import SimpleOprf.VoprfE2e.Reception
import SimpleOprf.VoprfE2e.Session

/-!
# What one proof fixes of a batch

The proof carries the table hash of circuit 0. The server also collects the
hashes of the other circuits beside the commitment, and drops the collection. A
proof so fixes the hashes of a whole batch exactly when the batch has one
circuit: in any other accepted session the hash of circuit 1 may be replaced.
-/

namespace SimpleOprf.VoprfE2e

open SimpleOprf.Basis SimpleOprf.GcMmo SimpleOprf.PlaintextOprf SimpleOprf.VoprfSer
  SimpleOprf.StarkGarble

/-- The verifier and the binding check passed, and so did the hash check of every
circuit. -/
structure ChecksPass (cfg : Config) (r : Received) (v : Verdict) : Prop where
  starkOk : v.starkOk = true
  bindOk : v.bindOk = true
  tables : ∀ i, i < cfg.m.toNat → ∃ tm, checkedTables r i = .ok (some tm)

/-- Every session that passes with this commitment and this proof lists these
table hashes. -/
def BatchBound (p : Primitives) (wf : Winterfell) (cfg : Config) (circ : Circuit)
    (r : Received) : Prop :=
  ∀ rng pads inbox r' v', runClient p wf cfg circ rng pads inbox = .ok (r', v') →
    ChecksPass cfg r' v' → r'.cm = r.cm → r'.proof = r.proof →
    ∀ i, i < cfg.m.toNat → r'.gcHashes[i]? = r.gcHashes[i]?

variable {p : Primitives} {wf : Winterfell} {cfg : Config} {circ : Circuit}

/-! ## Replacing the hash of a later circuit -/

/-- The table message with another hash field. -/
def rehashTables (tm : TablesMsg) : TablesMsg := { tm with gcHash := otherDigest tm.gcHash }

/-- The messages with another hash for circuit 1. -/
def Messages.rehash (msg : Messages) (tm : TablesMsg) : Messages :=
  { msg with
    gcHashes := msg.gcHashes.set 1 (rehashTables tm).gcHash
    tableBlobs := msg.tableBlobs.set 1 (rehashTables tm).bytes }

section Rehash

variable {msg : Messages} {tm : TablesMsg} {blob : List UInt8} {rng : Rng} {pads : Pads}

theorem rehash_fits (fits : msg.Fits cfg) (found : msg.tableBlobs[1]? = some blob)
    (parsed : deserializeTables blob = .ok tm) : (msg.rehash tm).Fits cfg where
  cm := fits.cm
  gcHashes := by rw [Messages.rehash, List.length_set, fits.gcHashes]
  tableBlobs := by rw [Messages.rehash, List.length_set, fits.tableBlobs]
  tableBlob other member := by
    rcases List.mem_or_eq_of_mem_set member with kept | rfl
    · exact fits.tableBlob other kept
    · have size : (rehashTables tm).bytes.length = tm.bytes.length := by
        rw [TablesMsg.length_bytes, TablesMsg.length_bytes]
        rfl
      have within := (deserializeTables_fits parsed).2
      have limit := fits.tableBlob blob (List.mem_of_getElem? found)
      omega
  masks := fits.masks
  keyLabels := fits.keyLabels
  keyLabel := fits.keyLabel
  proof := fits.proof
  keyBlob := fits.keyBlob

/-- The other circuits are checked as before. -/
theorem checkedTables_rehash_ne {i : Nat} (other : i ≠ 1) :
    checkedTables (received p cfg rng pads (msg.rehash tm)) i =
      checkedTables (received p cfg rng pads msg) i := by
  have blobs : (msg.tableBlobs.set 1 (rehashTables tm).bytes)[i]? = msg.tableBlobs[i]? :=
    List.getElem?_set_ne (Ne.symm other)
  have hashes : (msg.gcHashes.set 1 (rehashTables tm).gcHash)[i]? = msg.gcHashes[i]? :=
    List.getElem?_set_ne (Ne.symm other)
  simp only [checkedTables, received, Messages.rehash, readAt, blobs, hashes]

/-- Circuit 1 passes its check with the new hash. -/
theorem checkedTables_rehash
    (checked : checkedTables (received p cfg rng pads msg) 1 = .ok (some tm)) :
    checkedTables (received p cfg rng pads (msg.rehash tm)) 1 = .ok (some (rehashTables tm)) := by
  obtain ⟨blob, found, parsed, listed⟩ := checkedTables_eq_some.mp checked
  obtain ⟨size, -⟩ := List.getElem?_eq_some_iff.mp found
  obtain ⟨count, -⟩ := List.getElem?_eq_some_iff.mp listed
  have tablesFit := (deserializeTables_fits parsed).1
  have fitsToo : (rehashTables tm).Fits :=
    ⟨tablesFit.tables, tablesFit.keyWire0, tablesFit.outDecode⟩
  exact checkedTables_eq_some.mpr ⟨(rehashTables tm).bytes, List.getElem?_set_self size,
    deserialize_tablesMsg fitsToo, List.getElem?_set_self count⟩

/-- The evaluation loop reads the hashes only in its checks. -/
theorem evaluateFrom_rehash
    (checked : checkedTables (received p cfg rng pads msg) 1 = .ok (some tm))
    (remaining i : Nat) (state : Progress) :
    evaluateFrom p circ (received p cfg rng pads (msg.rehash tm)) remaining i state =
      evaluateFrom p circ (received p cfg rng pads msg) remaining i state := by
  induction remaining generalizing i state with
  | zero => rfl
  | succ remaining ih =>
    rw [evaluateFrom, evaluateFrom]
    by_cases later : i = 1
    · subst later
      rw [checkedTables_rehash checked, checked, Outcome.ok_bind, Outcome.ok_bind]
      dsimp only
      simp only [ih]
      rfl
    · rw [checkedTables_rehash_ne later]
      simp only [ih]
      rfl

/-- The verdict does not change. -/
theorem judge_rehash
    (checked : checkedTables (received p cfg rng pads msg) 1 = .ok (some tm)) :
    judge p wf cfg circ (received p cfg rng pads (msg.rehash tm)) =
      judge p wf cfg circ (received p cfg rng pads msg) := by
  have bound : bindCheck p wf (received p cfg rng pads (msg.rehash tm)) =
      bindCheck p wf (received p cfg rng pads msg) := by
    have blobs : (msg.tableBlobs.set 1 (rehashTables tm).bytes)[0]? = msg.tableBlobs[0]? :=
      List.getElem?_set_ne Nat.one_ne_zero
    have hashes : (msg.gcHashes.set 1 (rehashTables tm).gcHash)[0]? = msg.gcHashes[0]? :=
      List.getElem?_set_ne Nat.one_ne_zero
    simp only [bindCheck, Received.starkOk, received, Messages.rehash, readAt, blobs, hashes]
    rfl
  have loop : ∀ enabled, evaluateBatch p cfg circ (received p cfg rng pads (msg.rehash tm)) enabled =
      evaluateBatch p cfg circ (received p cfg rng pads msg) enabled := by
    intro enabled
    simp only [evaluateBatch, evaluateFrom_rehash checked]
  unfold judge
  rw [bound]
  simp only [loop]
  rfl

end Rehash

/-! ## When the proof fixes the batch -/

/-- The first hash of the meta blob is the one in the proof. -/
theorem first_hash {r : Received} {v : Verdict} (judged : judge p wf cfg circ r = .ok v)
    (bound : v.bindOk = true) : ∃ digest, r.gcHashes[0]? = some digest ∧
      proofGc r.proof = .ok digest.toList := by
  obtain ⟨blob, t0, -, -, listed, carried⟩ := judge_bindOk judged bound
  exact ⟨t0.gcHash, listed, carried⟩

/-- A session with two circuits that passes is one of two with other hashes. -/
theorem not_batchBound {rng : Rng} {pads : Pads} {inbox : List Packet} {r : Received} {v : Verdict}
    (batch : cfg.Batch) (ran : runClient p wf cfg circ rng pads inbox = .ok (r, v))
    (passed : ChecksPass cfg r v) (several : 1 < cfg.m.toNat) : ¬ BatchBound p wf cfg circ r := by
  intro bound
  obtain ⟨msg, fits, rfl⟩ := runClient_messages batch ran
  obtain ⟨tm, checked⟩ := passed.tables 1 several
  obtain ⟨blob, found, parsed, listed⟩ := checkedTables_eq_some.mp checked
  have again : runClient p wf cfg circ rng pads
      ((msg.rehash tm).offline cfg ++ (.octet 1 :: (msg.rehash tm).online cfg)) =
        .ok (received p cfg rng pads (msg.rehash tm), v) := by
    rw [runClient_eq p wf circ rng pads batch (rehash_fits fits found parsed) 1,
      judge_rehash checked, judge_of_runClient ran]
    rfl
  have passes : ChecksPass cfg (received p cfg rng pads (msg.rehash tm)) v := by
    refine ⟨passed.starkOk, passed.bindOk, fun i inside => ?_⟩
    by_cases later : i = 1
    · rw [later]
      exact ⟨_, checkedTables_rehash checked⟩
    · rw [checkedTables_rehash_ne later]
      exact passed.tables i inside
  have same := bound rng pads _ _ v again passes rfl rfl 1 several
  have replaced : (received p cfg rng pads (msg.rehash tm)).gcHashes[1]? =
      some (otherDigest tm.gcHash) :=
    List.getElem?_set_self (List.getElem?_eq_some_iff.mp listed).1
  rw [replaced, listed] at same
  exact otherDigest_ne tm.gcHash (Option.some.inj same)

/-- The proof of a session that passes fixes the hashes of the batch exactly when
the batch has one circuit. -/
theorem batch_bound_iff (batch : cfg.Batch) (rng : Rng) (pads : Pads) (inbox : List Packet)
    (r : Received) (v : Verdict) (ran : runClient p wf cfg circ rng pads inbox = .ok (r, v))
    (passed : ChecksPass cfg r v) : BatchBound p wf cfg circ r ↔ cfg.m.toNat = 1 := by
  have positive := batch.positive
  constructor
  · intro bound
    by_contra several
    exact not_batchBound batch ran passed (by omega) bound
  · intro single rng' pads' inbox' r' v' ran' passed' _ sameProof i inside
    have first : i = 0 := by omega
    subst first
    obtain ⟨digest, listed, carried⟩ := first_hash (judge_of_runClient ran) passed.bindOk
    obtain ⟨digest', listed', carried'⟩ := first_hash (judge_of_runClient ran') passed'.bindOk
    rw [sameProof, carried] at carried'
    rw [listed, listed', Vector.toList_inj.mp (Except.ok.inj carried')]

/-! ## Sessions that pass -/

/-- The messages of an honest server pass every check. -/
theorem exists_passing_session {f : Block → Block → Block} (datapath : Datapath circ)
    (gates : 0 < circ.andGates) (computes : Computes circ f) (batch : cfg.Batch)
    (honest : wf.AcceptsHonest p circ.andGates) (serverRng clientRng : Rng) (pads : Pads) :
    ∃ inbox r v, runClient p wf cfg circ clientRng pads inbox = .ok (r, v) ∧
      ChecksPass cfg r v := by
  obtain ⟨server, -, -, prepared⟩ := serverOffline_spec datapath gates batch honest serverRng pads
  obtain ⟨stark, bound⟩ := session_checks clientRng pads prepared datapath batch
  choose! x evaluates using fun i (inside : i < cfg.m.toNat) =>
    session_evaluates clientRng pads prepared datapath computes inside
  obtain ⟨v, judged, starkOk, bindOk, -⟩ := judge_all stark bound evaluates
  let msg := serverMessages pads server
  have fits : msg.Fits cfg := serverMessages_fits prepared datapath batch pads
  refine ⟨msg.offline cfg ++ (.octet 1 :: msg.online cfg), received p cfg clientRng pads msg, v, ?_,
    starkOk, bindOk, ?_⟩
  · rw [runClient_eq p wf circ clientRng pads batch fits 1, judged]
    rfl
  · intro i inside
    obtain ⟨tm, checked, -⟩ := (evaluates i inside).tables
    exact ⟨tm, checked⟩

/-- Two evaluations with their tables sent offline. -/
def twoEvaluations : Config := ⟨2, 512, false⟩

/-- Its transfers match its evaluations. -/
theorem twoEvaluations_batch : twoEvaluations.Batch where
  positive := by decide
  transfers := rfl
  memory := by
    change 32 * 512 < vectorLimit
    norm_num [vectorLimit]

/-- A run of two evaluations passes both checks. -/
theorem exists_passing_pair : ∃ inbox r v,
    runClient standard acceptAll twoEvaluations passThrough (Stream'.const 0) (fun _ => (0, 0))
      inbox = .ok (r, v) ∧ ChecksPass twoEvaluations r v :=
  exists_passing_session passThrough_datapath Nat.one_pos passThrough_computes
    twoEvaluations_batch (acceptAll_honest standard _) (Stream'.const 0) (Stream'.const 0)
    fun _ => (0, 0)

/-- The equivalence for that run. -/
theorem two_evaluations_bound_iff : ∃ inbox r v,
    runClient standard acceptAll twoEvaluations passThrough (Stream'.const 0) (fun _ => (0, 0))
      inbox = .ok (r, v) ∧ ChecksPass twoEvaluations r v ∧
    (BatchBound standard acceptAll twoEvaluations passThrough r ↔ twoEvaluations.m.toNat = 1) := by
  obtain ⟨inbox, r, v, ran, passed⟩ := exists_passing_pair
  exact ⟨inbox, r, v, ran, passed,
    batch_bound_iff twoEvaluations_batch (Stream'.const 0) (fun _ => (0, 0)) inbox r v ran passed⟩

/-- One proof for two circuits leaves the second hash open. -/
theorem not_forall_batch_bound : ¬ ∀ (p : Primitives) (wf : Winterfell) (cfg : Config)
    (circ : Circuit) (rng : Rng) (pads : Pads) (inbox : List Packet) (r : Received) (v : Verdict),
    cfg.Batch → runClient p wf cfg circ rng pads inbox = .ok (r, v) → ChecksPass cfg r v →
    BatchBound p wf cfg circ r := by
  intro all
  obtain ⟨inbox, r, v, ran, passed⟩ := exists_passing_pair
  exact not_batchBound twoEvaluations_batch ran passed (by decide)
    (all standard acceptAll twoEvaluations passThrough _ _ inbox r v twoEvaluations_batch ran passed)

end SimpleOprf.VoprfE2e
