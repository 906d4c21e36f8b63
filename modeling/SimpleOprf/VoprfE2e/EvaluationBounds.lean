import SimpleOprf.GcMmo.WireBounds
import SimpleOprf.VoprfE2e.ProofFormat
import SimpleOprf.VoprfSer.TableBlob

/-!
# When the verification stays inside its buffers

The verdict of a client, on whatever it received: the exact condition on the
lengths and counts in the table blobs under which the binding check and the
evaluation loop make no access outside a buffer.

The loop stops at the first table blob that does not carry its committed hash,
so a condition on circuit `k` holds only where the loop gets there.
-/

namespace SimpleOprf.VoprfE2e

open SimpleOprf.Basis SimpleOprf.Basis.Outcome SimpleOprf.GcMmo SimpleOprf.PlaintextOprf
  SimpleOprf.ProbeResilient SimpleOprf.VoprfSer SimpleOprf.StarkGarble

/-- The vectors of a client that received a batch of `m`. -/
structure Received.Sized (r : Received) (m : Nat) : Prop where
  gcHashes : r.gcHashes.length = m
  tableBlobs : r.tableBlobs.length = m
  tableBlob : ∀ blob ∈ r.tableBlobs, blob.length < vectorLimit
  xs : r.xs.length = m
  shareLabels : 256 * m ≤ r.shareLabels.length
  keyLabels : r.keyLabels.length = m
  keyLabel : ∀ labels ∈ r.keyLabels, labels.length = 128

/-- The table blob of circuit `i`. -/
def Received.blob (r : Received) (i : Nat) : List UInt8 := r.tableBlobs.getD i []

/-- The hash that the server committed to for circuit `i`. -/
def Received.committed (r : Received) (i : Nat) : Digest := r.gcHashes.getD i (Vector.replicate 32 0)

/-- The bytes that the blob of circuit `i` has to carry. -/
def Received.hash (r : Received) (i : Nat) : List UInt8 := (r.committed i).toList

/-- A blob that holds a message with the given hash. -/
def Carries (blob hash : List UInt8) : Prop := Whole blob ∧ hashBytes blob = hash

/-- What the evaluator needs of the counts in a blob. -/
structure Evaluable (circ : Circuit) (blob : List UInt8) : Prop where
  tables : circ.andGates ≤ tableCount blob
  decode : circ.nOutput.toNat ≤ decodeCount blob
  outputs : 128 ≤ circ.nOutput.toNat

variable {p : Primitives} {wf : Winterfell} {circ : Circuit} {r : Received} {m i : Nat}

/-- There is a table blob for every circuit. -/
theorem Received.Sized.readAt_blob (sized : r.Sized m) (inside : i < m) :
    readAt r.tableBlobs i = .ok (r.blob i) :=
  readAt_getD [] (by rwa [sized.tableBlobs])

/-- There is a committed hash for every circuit. -/
theorem Received.Sized.readAt_committed (sized : r.Sized m) (inside : i < m) :
    readAt r.gcHashes i = .ok (r.committed i) :=
  readAt_getD _ (by rwa [sized.gcHashes])

theorem Received.Sized.blob_fits (sized : r.Sized m) (inside : i < m) :
    (r.blob i).length < 2 ^ 63 :=
  sized.tableBlob _ (List.mem_of_getElem? (readAt_eq_ok.mp (sized.readAt_blob inside)))

/-! ## One circuit -/

/-- What the loop learns when it reads the tables of a circuit. -/
def Checked (r : Received) (i : Nat) : Option TablesMsg → Prop
  | none => Guarded (r.blob i) ∧ ¬ Carries (r.blob i) (r.hash i)
  | some tm => Holds (r.blob i) tm ∧ Carries (r.blob i) (r.hash i)

/-- How the check of one table blob ends. -/
theorem checkedTables_ends (sized : r.Sized m) (inside : i < m) :
    Ends (Checked r i) (Fails (r.blob i)) (checkedTables r i) := by
  have ends_ := deserializeTables_ends (sized.blob_fits inside)
  rw [checkedTables, sized.readAt_blob inside, Outcome.ok_bind]
  rcases ran : deserializeTables (r.blob i) with fault | tm
  · rwa [ran] at ends_
  · rw [ran] at ends_
    have holds : Holds (r.blob i) tm := ends_
    rw [Outcome.ok_bind, sized.readAt_committed inside, Outcome.ok_bind]
    by_cases same : tm.gcHash = r.committed i
    · rw [if_neg (not_not.mpr same)]
      exact ⟨holds, holds.whole, by rw [← holds.gcHash, same, Received.hash]⟩
    · rw [if_pos same]
      refine ⟨holds.whole.guarded, fun carries => same ?_⟩
      exact Vector.toList_inj.mp (holds.gcHash.trans carries.2)

/-- The input labels of a circuit are all there. -/
theorem evaluateCircuit_labels (sized : r.Sized m) (inside : i < m) (tm : TablesMsg) :
    ∃ labels x, labels.length = 256 ∧ evaluateCircuit p circ r i tm = (do
      let outLabs ← evalCircuitLabels circ (p.aes tm.aesKey) (TablesMsg.garbling tm) labels
      let outBits ← decodeOutputs (TablesMsg.garbling tm) outLabs
      let z ← bits128ToBlock outBits
      .ok (h2 p x z)) := by
  have keyCount : i < r.keyLabels.length := by rwa [sized.keyLabels]
  have inputCount : i < r.xs.length := by rwa [sized.xs]
  have keys := readAt_of_lt keyCount
  have keySize := sized.keyLabel _ (List.mem_of_getElem? (readAt_eq_ok.mp keys))
  have room := sized.shareLabels
  let opened : Nat → Block := fun j => reconstructLabel
    (r.shareLabels.getD (i * 256 + 2 * j) 0) (r.shareLabels.getD (i * 256 + 2 * j + 1) 0)
  have evaluator : ∀ j ∈ List.range 128, evaluatorLabel r i j = .ok (opened j) := by
    intro j member
    have bounded := List.mem_range.mp member
    rw [evaluatorLabel, readAt_getD 0 (by omega), Outcome.ok_bind, readAt_getD 0 (by omega),
      Outcome.ok_bind]
  refine ⟨r.keyLabels[i] ++ (List.range 128).map opened, r.xs[i], ?_, ?_⟩
  · rw [List.length_append, keySize, List.length_map, List.length_range]
  · rw [evaluateCircuit, keys, Outcome.ok_bind, slice_whole keySize, Outcome.ok_bind,
      mapM_eq_map evaluator, Outcome.ok_bind, readAt_of_lt inputCount]
    rfl

/-- Packing bits fails out of bounds only. -/
theorem bits128ToBlock_only (bits : List UInt8) : OnlyOutOfBounds (bits128ToBlock bits) :=
  (slice_only _ _ _).bind fun _ => .ok _

/-- It is inside exactly with 128 bits. -/
theorem bits128ToBlock_inBounds {bits : List UInt8} :
    InBounds (bits128ToBlock bits) ↔ 128 ≤ bits.length := by
  rw [bits128ToBlock, inBounds_bind_ok, inBounds_slice, Nat.zero_add]

/-- Evaluating a circuit stays inside exactly when the counts in its blob allow. -/
theorem evaluateCircuit_inBounds (sized : r.Sized m) (inside : i < m) (wellFormed : circ.WellFormed)
    (inputs : (circ.nInput0 + circ.nInput1).toNat = 256) {tm : TablesMsg}
    (holds : Holds (r.blob i) tm) :
    OnlyOutOfBounds (evaluateCircuit p circ r i tm) ∧
      (InBounds (evaluateCircuit p circ r i tm) ↔ Evaluable circ (r.blob i)) := by
  obtain ⟨labels, x, count, unfolded⟩ :=
    @evaluateCircuit_labels p circ _ _ _ sized inside tm
  have accepted : labels.length = (circ.nInput0 + circ.nInput1).toNat := by rw [count, inputs]
  have evaluates := @evalCircuitLabels_inBounds _ (p.aes tm.aesKey)
    (TablesMsg.garbling tm) _ wellFormed.outputs accepted
  have labelsOnly := evalCircuitLabels_only (p.aes tm.aesKey) (TablesMsg.garbling tm) accepted
  have tables : (TablesMsg.garbling tm).tables.length = tableCount (r.blob i) := holds.tables
  have decode : (TablesMsg.garbling tm).outDecode.length = decodeCount (r.blob i) := holds.outDecode
  rw [tables] at evaluates
  rw [unfolded]
  refine ⟨labelsOnly.bind fun _ => (decodeOutputs_only _ _).bind fun _ =>
    (bits128ToBlock_only _).bind fun _ => .ok _, ?_⟩
  rw [inBounds_bind, evaluates]
  constructor
  · rintro ⟨⟨bounded, supplied⟩, rest⟩
    obtain ⟨outLabs, ran⟩ := labelsOnly.inBounds_iff.mp (evaluates.mpr ⟨bounded, supplied⟩)
    obtain ⟨decodes, rest⟩ := inBounds_bind.mp (rest outLabs ran)
    obtain ⟨outBits, decoded⟩ := (decodeOutputs_only _ _).inBounds_iff.mp decodes
    have packs := bits128ToBlock_inBounds.mp (inBounds_bind_ok.mp (rest outBits decoded))
    rw [decodeOutputs_inBounds, length_of_evalCircuitLabels ran, decode] at decodes
    rw [length_of_decodeOutputs decoded, length_of_evalCircuitLabels ran] at packs
    exact ⟨supplied, decodes, packs⟩
  · rintro ⟨supplied, enough, outputs⟩
    refine ⟨⟨wellFormed.bounded, supplied⟩, fun outLabs ran => ?_⟩
    rw [inBounds_bind, decodeOutputs_inBounds, length_of_evalCircuitLabels ran, decode]
    refine ⟨enough, fun outBits decoded => inBounds_bind_ok.mpr (bits128ToBlock_inBounds.mpr ?_)⟩
    rwa [length_of_decodeOutputs decoded, length_of_evalCircuitLabels ran]

/-! ## The loop -/

/-- What a loop from circuit `first` on needs of the blob of circuit `k`, once it
gets there; `hash` is what each blob has to carry. -/
def Reaches (circ : Circuit) (blob hash : Nat → List UInt8) (first k : Nat) : Prop :=
  (∀ j, first ≤ j → j < k → Carries (blob j) (hash j)) →
    Guarded (blob k) ∧ (Carries (blob k) (hash k) → Evaluable circ (blob k))

section

variable {blob hash : Nat → List UInt8} {k : Nat}

/-- The loop ends at the first circuit whose blob does not carry its hash. -/
theorem reaches_of_not_carries (guarded : Guarded (blob i)) (other : ¬ Carries (blob i) (hash i))
    (from_ : i ≤ k) : Reaches circ blob hash i k := by
  intro earlier
  rcases Nat.eq_or_lt_of_le from_ with rfl | later
  · exact ⟨guarded, fun carries => absurd carries other⟩
  · exact absurd (earlier i (Nat.le_refl i) later) other

theorem reaches_succ (carries : Carries (blob i) (hash i)) :
    Reaches circ blob hash i k ↔ Reaches circ blob hash (i + 1) k := by
  unfold Reaches
  constructor
  · intro reaches earlier
    refine reaches fun j low high => ?_
    rcases Nat.eq_or_lt_of_le low with rfl | above
    · exact carries
    · exact earlier j above high
  · intro reaches earlier
    exact reaches fun j low high => earlier j (by omega) high

/-- Only the circuits up to `k` matter. -/
theorem Reaches.of_agree {blob' hash' : Nat → List UInt8}
    (agree : ∀ j, j ≤ k → blob j = blob' j ∧ hash j = hash' j)
    (reaches : Reaches circ blob hash i k) : Reaches circ blob' hash' i k := by
  obtain ⟨sameBlob, sameHash⟩ := agree k (Nat.le_refl k)
  intro earlier
  rw [← sameBlob, ← sameHash]
  refine reaches fun j low high => ?_
  obtain ⟨blobs, hashes⟩ := agree j (by omega)
  rw [blobs, hashes]
  exact earlier j low high

end

/-- The loop is inside exactly when every circuit it reaches has what it needs. -/
theorem evaluateFrom_inBounds (sized : r.Sized m) (wellFormed : circ.WellFormed)
    (inputs : (circ.nInput0 + circ.nInput1).toNat = 256) {remaining : Nat} {state : Progress}
    (within : i + remaining ≤ m) (room : i + remaining ≤ state.ys.length) :
    InBounds (evaluateFrom p circ r remaining i state) ↔
      ∀ k, i ≤ k → k < i + remaining → Reaches circ r.blob r.hash i k := by
  induction remaining generalizing i state with
  | zero =>
    refine iff_of_true (inBounds_ok _) fun k low high => absurd high (by omega)
  | succ remaining ih =>
    have inside : i < m := by omega
    have ends_ := checkedTables_ends sized inside
    have unfolded : evaluateFrom p circ r (remaining + 1) i state = checkedTables r i >>= _ := rfl
    rcases checked : checkedTables r i with fault | found
    · rw [checked] at ends_ unfolded
      rw [unfolded]
      cases ends_ with
      | outOfBounds unguarded =>
        refine iff_of_false (fun stays => stays rfl) fun reaches => unguarded ?_
        exact (reaches i (Nat.le_refl i) (by omega) fun j low high => absurd high (by omega)).1
      | tooLarge what guarded cut =>
        refine iff_of_true (inBounds_thrown what) fun k low _ => ?_
        exact reaches_of_not_carries guarded (fun carries => cut carries.1) low
    · rw [checked] at ends_ unfolded
      cases found with
      | none =>
        rw [unfolded]
        refine iff_of_true (inBounds_ok _) fun k low _ => ?_
        exact reaches_of_not_carries ends_.1 ends_.2 low
      | some tm =>
        obtain ⟨holds, carries⟩ : Holds (r.blob i) tm ∧ _ := ends_
        obtain ⟨only, evaluates⟩ :=
          evaluateCircuit_inBounds (p := p) sized inside wellFormed inputs holds
        by_cases evaluable : Evaluable circ (r.blob i)
        · obtain ⟨y, evaluated⟩ := only.inBounds_iff.mp (evaluates.mpr evaluable)
          have input : i < r.xs.length := by rwa [sized.xs]
          have iteration : Evaluates p circ r i r.xs[i] y :=
            ⟨List.getElem?_eq_getElem input, tm, checked, evaluated⟩
          rw [evaluateFrom_succ iteration (by omega), ih (by omega) (by
            rw [Progress.ys_record, List.length_set]
            omega)]
          constructor
          · intro later k low high
            rcases Nat.eq_or_lt_of_le low with rfl | above
            · exact fun _ => ⟨holds.whole.guarded, fun _ => evaluable⟩
            · exact (reaches_succ carries).mpr (later k above (by omega))
          · intro all k low high
            exact (reaches_succ carries).mp (all k (by omega) (by omega))
        · refine iff_of_false (fun stays => ?_) fun reaches => ?_
          · rw [unfolded, Outcome.ok_bind] at stays
            exact evaluable (evaluates.mp (inBounds_bind.mp stays).1)
          · refine evaluable ((reaches i (Nat.le_refl i) (by omega) ?_).2 carries)
            exact fun j low high => absurd high (by omega)

/-! ## The verdict -/

/-- The `gc_hash` bytes of a proof file, as the verifier and the client find them. -/
def proofHash (proof : List UInt8) : List UInt8 :=
  (proof.drop (8 + announced proof + 32)).take 32

/-- What the verification of a batch of `m` needs of the table blobs. -/
structure Verifiable (circ : Circuit) (blob hash : Nat → List UInt8) (proof : List UInt8)
    (m : Nat) : Prop where
  positive : 0 < m
  first : Guarded (blob 0)
  loop : Carries (blob 0) (proofHash proof) → proofHash proof = hash 0 →
    ∀ k, k < m → Reaches circ blob hash 0 k

/-- Only the circuits of the batch matter. -/
theorem Verifiable.of_agree {blob hash blob' hash' : Nat → List UInt8} {proof : List UInt8}
    (agree : ∀ j, j < m → blob j = blob' j ∧ hash j = hash' j)
    (needs : Verifiable circ blob hash proof m) : Verifiable circ blob' hash' proof m := by
  obtain ⟨firstBlob, firstHash⟩ := agree 0 needs.positive
  refine ⟨needs.positive, firstBlob ▸ needs.first, fun carries committed k inside => ?_⟩
  rw [← firstBlob] at carries
  rw [← firstHash] at committed
  exact (needs.loop carries committed k inside).of_agree fun j _ => agree j (by omega)

/-- The client believes a proof exactly when the verifier accepts it. -/
theorem starkOk_eq_true : r.starkOk p wf = true ↔ doVerify p wf r.proof none = .ok () := by
  unfold Received.starkOk
  cases doVerify p wf r.proof none with
  | ok done => simp
  | error fault => simp

/-- With a proof that verifies the check compares the three hashes. -/
theorem bindCheck_of_verify (fits : r.proof.length < vectorLimit)
    (verified : doVerify p wf r.proof none = .ok ()) :
    bindCheck p wf r = (do
      let blob ← readAt r.tableBlobs 0
      let t0 ← deserializeTables blob
      let committed ← readAt r.gcHashes 0
      .ok (proofHash r.proof = t0.gcHash.toList ∧ proofHash r.proof = committed.toList)) := by
  have steps := verified
  rw [doVerify_eq_parse] at steps
  obtain ⟨⟨h, proof⟩, parsed, -⟩ := Outcome.bind_eq_ok.mp steps
  obtain ⟨off, read⟩ := readHeader_of_parseProofFile parsed
  obtain ⟨long, covered, taken⟩ := proofGc_of_readHeader fits read
  have placed := headerAt_of_readHeader read
  have ends := placed.ends
  have inside := placed.inside
  have length : (proofHash r.proof).length = 32 := by
    rw [proofHash, List.length_take, List.length_drop]
    omega
  rw [placed.gcHash, ← proofHash, toList_ofBytes length] at taken
  have guard : r.starkOk p wf ∧ 16 < r.proof.length ∧
      proofOffset r.proof + 32 ≤ UInt64.ofNat r.proof.length :=
    ⟨starkOk_eq_true.mpr verified, long, covered⟩
  rw [bindCheck, if_pos guard, taken, Outcome.ok_bind]

/-- Without a verified proof no hashes are compared. -/
theorem bindCheck_of_not_verify (rejected : doVerify p wf r.proof none ≠ .ok ()) :
    bindCheck p wf r = .ok false := by
  rw [bindCheck, if_neg fun guard => rejected (starkOk_eq_true.mp guard.1)]

/-- The verdict stays inside exactly when the proof is rejected or the table
blobs hold what they announce and the circuit uses. -/
theorem judge_inBounds {cfg : Config} (sized : r.Sized cfg.m.toNat) (wellFormed : circ.WellFormed)
    (inputs : (circ.nInput0 + circ.nInput1).toNat = 256) (fits : r.proof.length < vectorLimit) :
    InBounds (judge p wf cfg circ r) ↔
      (doVerify p wf r.proof none = .ok () → Verifiable circ r.blob r.hash r.proof cfg.m.toNat) := by
  unfold judge
  by_cases verified : doVerify p wf r.proof none = .ok ()
  · have stark : r.starkOk p wf = true := starkOk_eq_true.mpr verified
    rw [bindCheck_of_verify fits verified, stark, imp_iff_right verified]
    by_cases positive : 0 < cfg.m.toNat
    · rw [sized.readAt_blob positive, Outcome.ok_bind]
      have ends_ := deserializeTables_ends (sized.blob_fits positive)
      rcases ran : deserializeTables (r.blob 0) with fault | t0
      · rw [ran] at ends_
        cases ends_ with
        | outOfBounds unguarded =>
          exact iff_of_false (fun stays => stays rfl) fun needs => unguarded needs.first
        | tooLarge what guarded cut =>
          exact iff_of_true (inBounds_thrown what)
            ⟨positive, guarded, fun carries => absurd carries.1 cut⟩
      · rw [ran] at ends_
        have holds : Holds (r.blob 0) t0 := ends_
        rw [Outcome.ok_bind, sized.readAt_committed positive, Outcome.ok_bind, Outcome.ok_bind,
          inBounds_bind_ok, holds.gcHash, Bool.true_and, evaluateBatch]
        have loop := @evaluateFrom_inBounds p _ _ _ 0 sized wellFormed inputs cfg.m.toNat
          ⟨true, 0, List.replicate cfg.m.toNat (Vector.replicate 32 0)⟩ (by omega)
          (by rw [List.length_replicate]; omega)
        simp only [Nat.zero_le, Nat.zero_add, forall_const] at loop
        split
        · rename_i bound
          obtain ⟨carried, committed⟩ := of_decide_eq_true bound
          rw [loop]
          constructor
          · exact fun reaches => ⟨positive, holds.whole.guarded, fun _ _ => reaches⟩
          · exact fun needs => needs.loop ⟨holds.whole, carried.symm⟩ committed
        · rename_i unbound
          refine iff_of_true (inBounds_ok _) ⟨positive, holds.whole.guarded, ?_⟩
          exact fun carries committed => absurd (decide_eq_true ⟨carries.2.symm, committed⟩) unbound
    · refine iff_of_false (fun stays => ?_) fun needs => positive needs.positive
      have present := inBounds_readAt.mp (inBounds_bind.mp (inBounds_bind.mp stays).1).1
      rw [sized.tableBlobs] at present
      exact positive present
  · have rejected : r.starkOk p wf = false := by
      rw [← Bool.not_eq_true, starkOk_eq_true]
      exact verified
    rw [bindCheck_of_not_verify verified, Outcome.ok_bind, rejected]
    exact iff_of_true (inBounds_ok _) fun accepted => absurd accepted verified

end SimpleOprf.VoprfE2e
