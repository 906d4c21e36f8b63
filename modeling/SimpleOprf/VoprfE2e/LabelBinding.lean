import SimpleOprf.VoprfE2e.Integrity
import SimpleOprf.VoprfE2e.Reception

/-!
# What a proof fixes of the labels

A proof file carries the hash of the decoding bits and the Merkle root of the
evaluator's label pairs. The verifier binds both into the public inputs; the
client compares neither with what it evaluates on. They agree exactly when the
server sent messages that agree.
-/

namespace SimpleOprf.VoprfE2e

open SimpleOprf.Basis SimpleOprf.GcMmo SimpleOprf.PlaintextOprf SimpleOprf.ProbeResilient
  SimpleOprf.VoprfSer SimpleOprf.StarkGarble

/-- What the client decodes and evaluates circuit 0 with is what the header has
committed to. -/
structure LabelsBound (p : Primitives) (r : Received) (h : Header) : Prop where
  decode : ∃ tm, checkedTables r 0 = .ok (some tm) ∧ p.sha256 tm.outDecode = h.outHash
  labels : ∃ pairs : List (Block × Block), pairs.length = 128 ∧
    merkleRootPairs p.sha256 pairs = h.rRoot ∧ ∀ j, j < 128 → ∃ label pair,
      evaluatorLabel r 0 j = .ok label ∧ pairs[j]? = some pair ∧
        (label = pair.1 ∨ label = pair.2)

/-- What the masks of a transfer open to with the client's choice. -/
def openedLabel (p : Primitives) (cfg : Config) (rng : Rng) (pads : Pads)
    (masks : List (Block × Block)) (t : Nat) : Block :=
  openMask (pads t) (masks.getD t (0, 0)) ((clientChoices p cfg rng).getD t false)

/-- The messages agree with the header: the `out_decode` field of the first table
blob with its hash, and the masks, which open to the labels `opened`, with
pairs under its root. -/
structure Messages.Agree (p : Primitives) (msg : Messages) (opened : Nat → Block) (h : Header) :
    Prop where
  decode : ∃ blob tm, msg.tableBlobs[0]? = some blob ∧ deserializeTables blob = .ok tm ∧
    h.outHash = p.sha256 tm.outDecode
  masks : ∃ pairs : List (Block × Block), pairs.length = 128 ∧
    h.rRoot = merkleRootPairs p.sha256 pairs ∧ ∀ j, j < 128 → ∀ pair, pairs[j]? = some pair →
      opened (2 * j) + opened (2 * j + 1) = pair.1 ∨ opened (2 * j) + opened (2 * j + 1) = pair.2

variable {p : Primitives} {wf : Winterfell} {cfg : Config} {circ : Circuit}

/-- Each evaluator label is the sum of two opened masks. -/
theorem evaluatorLabel_received {msg : Messages} (batch : cfg.Batch) (fits : msg.Fits cfg)
    (rng : Rng) (pads : Pads) {j : Nat} (inside : j < 128) :
    evaluatorLabel (received p cfg rng pads msg) 0 j =
      .ok (openedLabel p cfg rng pads msg.masks (2 * j) +
        openedLabel p cfg rng pads msg.masks (2 * j + 1)) := by
  have positive := batch.positive
  have sent := fits.masks.trans batch.transfers
  have chosen : (clientChoices p cfg rng).length = 256 * cfg.m.toNat := by
    rw [clientChoices, List.length_map, length_clientShares]
  have opens : ∀ t, t < 256 → (unmasked p cfg rng pads msg.masks)[t]? =
      some (openedLabel p cfg rng pads msg.masks t) := by
    intro t below
    have mask : t < msg.masks.length := by omega
    have choice : t < (clientChoices p cfg rng).length := by omega
    rw [openedLabel, List.getD_eq_getElem _ _ mask, List.getD_eq_getElem _ _ choice]
    exact getElem?_unmasked (List.getElem?_eq_getElem mask) (List.getElem?_eq_getElem choice)
  have held : (received p cfg rng pads msg).shareLabels = unmasked p cfg rng pads msg.masks := rfl
  rw [evaluatorLabel, held, Nat.zero_mul, Nat.zero_add, readAt_eq_ok.mpr (opens _ (by omega)),
    Outcome.ok_bind, readAt_eq_ok.mpr (opens _ (by omega)), Outcome.ok_bind]
  rfl

/-- A verified proof has a header. -/
theorem exists_header {r : Received} {v : Verdict} (judged : judge p wf cfg circ r = .ok v)
    (stark : v.starkOk = true) : ∃ h off, readHeader r.proof 0 = .ok (h, off) := by
  unfold judge at judged
  obtain ⟨bindOk, -, judged⟩ := Outcome.bind_eq_ok.mp judged
  obtain ⟨final, -, judged⟩ := Outcome.bind_eq_ok.mp judged
  have result := (Except.ok.inj judged).symm
  subst result
  change r.starkOk p wf = true at stark
  unfold Received.starkOk at stark
  split at stark
  · rename_i verified
    obtain ⟨⟨h, off⟩, read, -⟩ := Outcome.bind_eq_ok.mp verified
    exact ⟨h, off, read⟩
  · cases stark

/-- In every session with both checks passed, the client uses what the proof has
committed to exactly when the messages agree with the proof. -/
theorem labels_bound_iff (batch : cfg.Batch) (rng : Rng) (pads : Pads) (inbox : List Packet)
    (r : Received) (v : Verdict) (ran : runClient p wf cfg circ rng pads inbox = .ok (r, v))
    (stark : v.starkOk = true) (bound : v.bindOk = true) :
    ∃ msg h off, msg.Fits cfg ∧ r = received p cfg rng pads msg ∧
      readHeader msg.proof 0 = .ok (h, off) ∧
      (LabelsBound p r h ↔ msg.Agree p (openedLabel p cfg rng pads msg.masks) h) := by
  obtain ⟨msg, fits, rfl⟩ := runClient_messages batch ran
  have judged := judge_of_runClient ran
  obtain ⟨h, off, read⟩ := exists_header judged stark
  obtain ⟨blob, t0, found, parsed, listed, -⟩ := judge_bindOk judged bound
  refine ⟨msg, h, off, fits, rfl, read, ?_⟩
  constructor
  · rintro ⟨⟨tm, checked, hashed⟩, pairs, count, root, members⟩
    obtain ⟨blob, found, parsed, -⟩ := checkedTables_eq_some.mp checked
    refine ⟨⟨blob, tm, found, parsed, hashed.symm⟩, pairs, count, root.symm, ?_⟩
    intro j inside pair at_j
    obtain ⟨label, pair', used, same, member⟩ := members j inside
    rw [evaluatorLabel_received batch fits rng pads inside] at used
    cases used
    cases at_j.symm.trans same
    exact member
  · rintro ⟨⟨blob', tm, found', parsed', hashed⟩, pairs, count, root, members⟩
    obtain rfl : blob' = blob := Option.some.inj (found'.symm.trans found)
    obtain rfl : tm = t0 := Except.ok.inj (parsed'.symm.trans parsed)
    refine ⟨⟨tm, checkedTables_eq_some.mpr ⟨blob', found, parsed, listed⟩, hashed.symm⟩, pairs,
      count, root.symm, ?_⟩
    intro j inside
    have pair := List.getElem?_eq_getElem (l := pairs) (i := j) (by omega)
    exact ⟨_, _, evaluatorLabel_received batch fits rng pads inside, pair,
      members j inside _ pair⟩

/-- For every circuit with a datapath some server has both checks pass with any
digest in the header that depends on its decoding bits. -/
theorem exists_bound_session (p : Primitives) {circ : Circuit} (datapath : Datapath circ)
    (digest : List UInt8 → Digest) : ∃ inbox r v tm off,
    runClient p acceptAll oneEvaluation circ (Stream'.const 0) (fun _ => (0, 0)) inbox =
      .ok (r, v) ∧ v.starkOk = true ∧ v.bindOk = true ∧ checkedTables r 0 = .ok (some tm) ∧
    readHeader r.proof 0 = .ok (forgedHeader p (digest tm.outDecode), off) := by
  obtain ⟨supplied, fits⟩ := blankTables_fit circ
  obtain ⟨decode, sessions⟩ := exists_accepted_sessions p datapath [] (by norm_num [vectorLimit])
    (blankTables circ) supplied fits (Stream'.const 0) fun _ => (0, 0)
  obtain ⟨inbox, r, v, tm, ran, stark, bound, -, -, checked, -, -, decoded, proof⟩ :=
    sessions (digest decode)
  subst decoded
  have sized : (forgedHeader p (digest tm.outDecode)).cm.length = cmBytes := List.length_replicate
  have read := reads_header sized [] []
  rw [List.nil_append, ← proof] at read
  exact ⟨inbox, r, v, tm, _, ran, stark, bound, checked, read⟩

/-- The equivalence for a session with blank tables. -/
theorem blank_labels_bound_iff : ∃ inbox r v,
    runClient standard acceptAll oneEvaluation passThrough (Stream'.const 0) (fun _ => (0, 0))
      inbox = .ok (r, v) ∧ v.starkOk = true ∧ v.bindOk = true ∧
    ∃ msg h off, msg.Fits oneEvaluation ∧
      r = received standard oneEvaluation (Stream'.const 0) (fun _ => (0, 0)) msg ∧
      readHeader msg.proof 0 = .ok (h, off) ∧
      (LabelsBound standard r h ↔ msg.Agree standard (openedLabel standard oneEvaluation
        (Stream'.const 0) (fun _ => (0, 0)) msg.masks) h) := by
  obtain ⟨inbox, r, v, tm, off, ran, stark, bound, -, -⟩ :=
    exists_bound_session standard passThrough_datapath fun _ => Vector.replicate 32 0
  exact ⟨inbox, r, v, ran, stark, bound, labels_bound_iff oneEvaluation_batch (Stream'.const 0)
    (fun _ => (0, 0)) inbox r v ran stark bound⟩

/-- The client decodes with bits that the proof does not cover, whatever the hash
function, the cipher and the circuit are. -/
theorem decoded_labels_may_miss_header :
    ¬ ∃ p circ, Datapath circ ∧ ∀ wf cfg rng pads inbox r v h off, wf.Sound → cfg.Batch →
      runClient p wf cfg circ rng pads inbox = .ok (r, v) → v.starkOk = true → v.bindOk = true →
      readHeader r.proof 0 = .ok (h, off) → LabelsBound p r h := by
  rintro ⟨p, circ, datapath, allBound⟩
  obtain ⟨inbox, r, v, tm, off, ran, stark, bound, checked, read⟩ :=
    exists_bound_session p datapath fun decode => otherDigest (p.sha256 decode)
  obtain ⟨⟨tm', checked', hashed⟩, -⟩ := allBound acceptAll oneEvaluation _ _ inbox r v _ off
    acceptAll_sound oneEvaluation_batch ran stark bound read
  obtain rfl : tm' = tm := Option.some.inj (Except.ok.inj (checked'.symm.trans checked))
  exact otherDigest_ne _ hashed.symm

end SimpleOprf.VoprfE2e
