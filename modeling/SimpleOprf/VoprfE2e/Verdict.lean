import SimpleOprf.VoprfE2e.Client

/-!
# What a verdict says

The evaluation loop, forwards and backwards: what it computes when every step
succeeds, and what an accepting verdict says of every step it made.

The loop carries a record of the outputs so far and of the comparison with the
plaintext function. It ends early, without an error, at the first hash that
differs.
-/

namespace SimpleOprf.VoprfE2e

open SimpleOprf.Basis SimpleOprf.GcMmo SimpleOprf.PlaintextOprf SimpleOprf.VoprfSer
  SimpleOprf.StarkGarble

variable {p : Primitives} {wf : Winterfell} {cfg : Config} {circ : Circuit} {r : Received}

/-! ## One iteration -/

/-- An iteration whose tables pass and whose evaluation succeeds. -/
structure Evaluates (p : Primitives) (circ : Circuit) (r : Received) (i : Nat) (x : List UInt8)
    (y : Digest) : Prop where
  input : r.xs[i]? = some x
  tables : ∃ tm, checkedTables r i = .ok (some tm) ∧ evaluateCircuit p circ r i tm = .ok y

/-- The state after an iteration with the given result. -/
def Progress.record (state : Progress) (i : Nat) (y : Digest) (matched : Bool) : Progress :=
  if matched then
    { state with ys := state.ys.set i y, plainMatch := state.plainMatch + 1 }
  else
    { state with ys := state.ys.set i y, plaintextOk := false }

/-- A successful iteration stores its result and continues. -/
theorem evaluateFrom_succ {remaining i : Nat} {state : Progress} {x : List UInt8} {y : Digest}
    (evaluates : Evaluates p circ r i x y) (room : i < state.ys.length) :
    evaluateFrom p circ r (remaining + 1) i state =
      evaluateFrom p circ r remaining (i + 1)
        (state.record i y (decide (fK p r.oprfKey x = y))) := by
  obtain ⟨input, tm, checked, evaluated⟩ := evaluates
  rw [evaluateFrom, checked, Outcome.ok_bind]
  dsimp only
  rw [evaluated, Outcome.ok_bind, writeAt_of_lt y room, Outcome.ok_bind, readAt_eq_ok.mpr input,
    Outcome.ok_bind]
  by_cases matched : fK p r.oprfKey x = y
  · simp [matched, Progress.record]
  · simp [matched, Progress.record]

/-- Conversely, a loop that goes on either met a hash mismatch or made a
successful iteration. -/
theorem evaluateFrom_cases {remaining i : Nat} {state final : Progress}
    (ran : evaluateFrom p circ r (remaining + 1) i state = .ok final) :
    final = { state with plaintextOk := false } ∨
      ∃ x y, Evaluates p circ r i x y ∧ i < state.ys.length ∧
        evaluateFrom p circ r remaining (i + 1)
          (state.record i y (decide (fK p r.oprfKey x = y))) = .ok final := by
  have unfolded := ran
  rw [evaluateFrom] at unfolded
  obtain ⟨found, checked, unfolded⟩ := Outcome.bind_eq_ok.mp unfolded
  cases found with
  | none =>
    left
    exact (Except.ok.inj unfolded).symm
  | some tm =>
    right
    dsimp only at unfolded
    obtain ⟨y, evaluated, unfolded⟩ := Outcome.bind_eq_ok.mp unfolded
    obtain ⟨ys, written, unfolded⟩ := Outcome.bind_eq_ok.mp unfolded
    obtain ⟨x, input, -⟩ := Outcome.bind_eq_ok.mp unfolded
    have evaluates : Evaluates p circ r i x y := ⟨readAt_eq_ok.mp input, tm, checked, evaluated⟩
    have room : i < state.ys.length := by
      by_contra outside
      rw [writeAt, if_neg outside] at written
      cases written
    rw [evaluateFrom_succ evaluates room] at ran
    exact ⟨x, y, evaluates, room, ran⟩

@[simp] theorem Progress.ys_record (state : Progress) (i : Nat) (y : Digest) (matched : Bool) :
    (state.record i y matched).ys = state.ys.set i y := by
  cases matched <;> rfl

/-! ## The whole loop -/

/-- Later iterations leave earlier results alone. -/
theorem evaluateFrom_frame {remaining i : Nat} {state final : Progress}
    (ran : evaluateFrom p circ r remaining i state = .ok final) {k : Nat} (earlier : k < i) :
    final.ys[k]? = state.ys[k]? := by
  induction remaining generalizing i state with
  | zero =>
    cases ran
    rfl
  | succ remaining ih =>
    rcases evaluateFrom_cases ran with rfl | ⟨x, y, -, -, rest⟩
    · rfl
    · rw [ih rest (by omega), Progress.ys_record, List.getElem?_set_ne (by omega)]

/-- A loop whose iterations all succeed ends with all their results. -/
theorem evaluateFrom_all {x : Nat → List UInt8} {y : Nat → Digest} {remaining i : Nat}
    {state : Progress}
    (evaluates : ∀ k, i ≤ k → k < i + remaining → Evaluates p circ r k (x k) (y k))
    (room : i + remaining ≤ state.ys.length) :
    ∃ final, evaluateFrom p circ r remaining i state = .ok final ∧
      (∀ k, i ≤ k → k < i + remaining → final.ys[k]? = some (y k)) ∧
      ((∀ k, i ≤ k → k < i + remaining → fK p r.oprfKey (x k) = y k) →
        final.plaintextOk = state.plaintextOk ∧
          final.plainMatch = state.plainMatch + UInt32.ofNat remaining) := by
  induction remaining generalizing i state with
  | zero =>
    refine ⟨state, rfl, fun k low high => absurd high (by omega), fun _ => ⟨rfl, ?_⟩⟩
    simp
  | succ remaining ih =>
    have now := evaluates i (Nat.le_refl i) (by omega)
    obtain ⟨final, ran, results, counted⟩ := ih
      (fun k low high => evaluates k (by omega) (by omega))
      (show i + 1 + remaining ≤
        (state.record i (y i) (decide (fK p r.oprfKey (x i) = y i))).ys.length by
          rw [Progress.ys_record, List.length_set]
          omega)
    refine ⟨final, by rw [evaluateFrom_succ now (by omega), ran], fun k low high => ?_, ?_⟩
    · rcases Nat.eq_or_lt_of_le low with rfl | later
      · rw [evaluateFrom_frame ran (Nat.lt_succ_self _), Progress.ys_record,
          List.getElem?_set_self (by omega)]
      · exact results k later (by omega)
    · intro matched
      obtain ⟨kept, total⟩ := counted fun k low high => matched k (by omega) (by omega)
      have here := matched i (Nat.le_refl i) (by omega)
      simp only [here, decide_true, Progress.record, if_true] at kept total
      refine ⟨kept, ?_⟩
      have one : UInt32.ofNat (remaining + 1) = 1 + UInt32.ofNat remaining := by
        rw [UInt32.ofNat_add, add_comm]
        rfl
      rw [total, one, add_assoc]

/-- When the loop ends with `plaintext_ok` still set, every result equals the
plaintext function under the oracle key. -/
theorem evaluateFrom_plaintextOk {remaining i : Nat} {state final : Progress}
    (ran : evaluateFrom p circ r remaining i state = .ok final)
    (plaintextOk : final.plaintextOk = true) :
    state.plaintextOk = true ∧ ∀ k, i ≤ k → k < i + remaining →
      ∃ x, r.xs[k]? = some x ∧ final.ys[k]? = some (fK p r.oprfKey x) := by
  induction remaining generalizing i state with
  | zero =>
    cases ran
    exact ⟨plaintextOk, fun k low high => absurd high (by omega)⟩
  | succ remaining ih =>
    rcases evaluateFrom_cases ran with rfl | ⟨x, y, evaluates, room, rest⟩
    · cases plaintextOk
    · obtain ⟨kept, results⟩ := ih rest
      have matched : fK p r.oprfKey x = y := by
        by_contra differs
        simp [differs, Progress.record] at kept
      simp only [matched, decide_true, Progress.record, if_true] at kept
      refine ⟨kept, fun k low high => ?_⟩
      rcases Nat.eq_or_lt_of_le low with rfl | later
      · refine ⟨x, evaluates.input, ?_⟩
        rw [evaluateFrom_frame rest (Nat.lt_succ_self _), Progress.ys_record,
          List.getElem?_set_self room, matched]
      · exact results k later (by omega)

/-! ## The verdict -/

/-- The verdict of a run is the judgement of what was received. -/
theorem judge_of_runClient {p : Primitives} {wf : Winterfell} {cfg : Config} {circ : Circuit}
    {rng : Rng} {pads : Pads} {inbox : List Packet} {r : Received} {v : Verdict}
    (ran : runClient p wf cfg circ rng pads inbox = .ok (r, v)) :
    judge p wf cfg circ r = .ok v := by
  unfold runClient at ran
  obtain ⟨offline, -, ran⟩ := Outcome.bind_eq_ok.mp ran
  obtain ⟨ping, -, ran⟩ := Outcome.bind_eq_ok.mp ran
  obtain ⟨online, -, ran⟩ := Outcome.bind_eq_ok.mp ran
  obtain ⟨verdict, judged, ran⟩ := Outcome.bind_eq_ok.mp ran
  cases ran
  exact judged

/-- An accepting verdict: every result is the plaintext function of its input
under the oracle key. -/
theorem judge_vok {v : Verdict} (judged : judge p wf cfg circ r = .ok v) (accepted : v.vok = 1) :
    v.starkOk = true ∧ v.bindOk = true ∧ ∀ i, i < cfg.m.toNat →
      ∃ x, r.xs[i]? = some x ∧ v.ys[i]? = some (fK p r.oprfKey x) := by
  unfold judge at judged
  obtain ⟨bindOk, -, judged⟩ := Outcome.bind_eq_ok.mp judged
  obtain ⟨final, ran, judged⟩ := Outcome.bind_eq_ok.mp judged
  have result := (Except.ok.inj judged).symm
  subst result
  have conditions : ((r.starkOk p wf && bindOk && final.plaintextOk &&
      final.plainMatch == cfg.m.toUInt32) = true) := by
    by_contra rejected
    simp only [rejected] at accepted
    exact absurd accepted (by decide)
  simp only [Bool.and_eq_true] at conditions
  obtain ⟨⟨⟨stark, bound⟩, plaintextOk⟩, -⟩ := conditions
  rw [stark, bound, Bool.and_self, evaluateBatch, if_pos rfl] at ran
  obtain ⟨-, results⟩ := evaluateFrom_plaintextOk ran plaintextOk
  exact ⟨stark, bound, fun i inside => results i (Nat.zero_le i) (by omega)⟩

/-- `bind_ok` ties the proof's hash, the hash field of table blob 0, and the
first committed hash together. -/
theorem judge_bindOk {v : Verdict} (judged : judge p wf cfg circ r = .ok v)
    (bound : v.bindOk = true) : ∃ blob t0, r.tableBlobs[0]? = some blob ∧
      deserializeTables blob = .ok t0 ∧ r.gcHashes[0]? = some t0.gcHash ∧
      proofGc r.proof = .ok t0.gcHash.toList := by
  unfold judge at judged
  obtain ⟨bindOk, checked, judged⟩ := Outcome.bind_eq_ok.mp judged
  obtain ⟨final, -, judged⟩ := Outcome.bind_eq_ok.mp judged
  have result := (Except.ok.inj judged).symm
  subst result
  change bindOk = true at bound
  subst bound
  unfold bindCheck at checked
  split at checked
  · obtain ⟨carried, proofRead, checked⟩ := Outcome.bind_eq_ok.mp checked
    obtain ⟨blob, found, checked⟩ := Outcome.bind_eq_ok.mp checked
    obtain ⟨t0, parsed, checked⟩ := Outcome.bind_eq_ok.mp checked
    obtain ⟨committed, first, checked⟩ := Outcome.bind_eq_ok.mp checked
    have equal := of_decide_eq_true (Except.ok.inj checked)
    obtain ⟨fromTables, fromMeta⟩ := equal
    have same : committed = t0.gcHash := Vector.toList_inj.mp (fromMeta.symm.trans fromTables)
    subst same
    rw [fromTables] at proofRead
    exact ⟨blob, t0, readAt_eq_ok.mp found, parsed, readAt_eq_ok.mp first, proofRead⟩
  · cases checked

/-- A circuit that passes the hash check has the hash of its blob committed. -/
theorem checkedTables_eq_some {i : Nat} {tm : TablesMsg} :
    checkedTables r i = .ok (some tm) ↔ ∃ blob, r.tableBlobs[i]? = some blob ∧
      deserializeTables blob = .ok tm ∧ r.gcHashes[i]? = some tm.gcHash := by
  unfold checkedTables
  constructor
  · intro checked
    obtain ⟨blob, found, checked⟩ := Outcome.bind_eq_ok.mp checked
    obtain ⟨parsed, read, checked⟩ := Outcome.bind_eq_ok.mp checked
    obtain ⟨committed, listed, checked⟩ := Outcome.bind_eq_ok.mp checked
    have decided := Except.ok.inj checked
    split at decided
    · cases decided
    · rename_i same
      cases decided
      rw [not_not] at same
      rw [← same] at listed
      exact ⟨blob, readAt_eq_ok.mp found, read, readAt_eq_ok.mp listed⟩
  · rintro ⟨blob, found, read, listed⟩
    rw [readAt_eq_ok.mpr found, Outcome.ok_bind, read, Outcome.ok_bind,
      readAt_eq_ok.mpr listed, Outcome.ok_bind, if_neg (not_not.mpr rfl)]

/-! ## Reaching an accepting verdict -/

/-- The client finds the `gc_hash` of a proof file where its writer put it. -/
theorem proofGc_header (h : Header) (rest : List UInt8) :
    proofOffset (h.bytes ++ rest) = 88 ∧ proofGc (h.bytes ++ rest) = .ok h.gcHash.toList := by
  have pubSize := length_pubToBytes h.pub
  have layout : h.bytes ++ rest = (le64 48 ++ pubToBytes h.pub ++ h.binding.toList) ++
      (h.gcHash.toList ++ (h.rRoot.toList ++ (h.outHash.toList ++ h.cm) ++ rest)) := by
    simp only [Header.bytes, pubSize, List.append_assoc]
    rfl
  have front : (h.bytes ++ rest).take 8 = le64 48 := by
    rw [layout]
    simp
  have offset : proofOffset (h.bytes ++ rest) = 88 := by
    rw [proofOffset, front, ofLe64_le64]
    rfl
  refine ⟨offset, ?_⟩
  have start : (le64 48 ++ pubToBytes h.pub ++ h.binding.toList).length = 88 := by
    simp [pubSize]
  have size : h.gcHash.toList.length = 32 := Vector.length_toList
  rw [proofGc, offset, layout]
  exact slice_field start size

/-- A proof that verifies is believed. -/
theorem starkOk_of_doVerify (verified : doVerify p wf r.proof none = .ok ()) :
    r.starkOk p wf = true := by
  rw [Received.starkOk, verified]

/-- The binding check passes when the three hashes agree. -/
theorem bindCheck_header {h : Header} {rest blob : List UInt8} {t0 : TablesMsg}
    (proof : r.proof = h.bytes ++ rest) (size : r.proof.length < vectorLimit)
    (stark : r.starkOk p wf = true) (found : r.tableBlobs[0]? = some blob)
    (parsed : deserializeTables blob = .ok t0) (carried : h.gcHash = t0.gcHash)
    (committed : r.gcHashes[0]? = some t0.gcHash) : bindCheck p wf r = .ok true := by
  obtain ⟨offset, proofRead⟩ := proofGc_header h rest
  rw [← proof] at offset proofRead
  have long : 120 ≤ r.proof.length := by
    rw [proof, List.length_append, h.length_bytes]
    omega
  have words : (88 + 32 : UInt64) ≤ UInt64.ofNat r.proof.length := by
    rw [UInt64.le_iff_toNat_le, UInt64.toNat_ofNat_of_lt' (lt_trans size (by norm_num [vectorLimit]))]
    exact long
  rw [bindCheck, if_pos ⟨stark, by omega, by rw [offset]; exact words⟩, proofRead, Outcome.ok_bind,
    readAt_eq_ok.mpr found, Outcome.ok_bind, parsed, Outcome.ok_bind, readAt_eq_ok.mpr committed,
    Outcome.ok_bind]
  simp [carried]

/-- With both checks passed and every circuit evaluated the verdict carries all
results, and accepts when they are the plaintext function. -/
theorem judge_all {x : Nat → List UInt8} {y : Nat → Digest} (stark : r.starkOk p wf = true)
    (bound : bindCheck p wf r = .ok true)
    (evaluates : ∀ i, i < cfg.m.toNat → Evaluates p circ r i (x i) (y i)) :
    ∃ v, judge p wf cfg circ r = .ok v ∧ v.starkOk = true ∧ v.bindOk = true ∧
      (∀ i, i < cfg.m.toNat → v.ys[i]? = some (y i)) ∧
      ((∀ i, i < cfg.m.toNat → fK p r.oprfKey (x i) = y i) → v.vok = 1) := by
  let start : Progress := ⟨true, 0, List.replicate cfg.m.toNat (Vector.replicate 32 0)⟩
  have room : 0 + cfg.m.toNat ≤ start.ys.length := by simp [start]
  have all : ∀ k, 0 ≤ k → k < 0 + cfg.m.toNat → Evaluates p circ r k (x k) (y k) :=
    fun k _ high => evaluates k (by omega)
  obtain ⟨final, ran, results, counted⟩ := evaluateFrom_all all room
  refine ⟨⟨true, true, final.plaintextOk, final.ys,
      if final.plaintextOk && final.plainMatch == cfg.m.toUInt32 then 1 else 0⟩, ?_, rfl, rfl,
    fun i inside => results i (Nat.zero_le i) (by omega), ?_⟩
  · rw [judge, bound, Outcome.ok_bind, stark]
    change (evaluateFrom p circ r cfg.m.toNat 0 start >>= _) = _
    rw [ran, Outcome.ok_bind]
    rfl
  · intro matched
    obtain ⟨plaintextOk, total⟩ := counted fun k _ high => matched k (by omega)
    have count : final.plainMatch = cfg.m.toUInt32 := by
      rw [total]
      simp [start]
    simp [plaintextOk, count, start]

end SimpleOprf.VoprfE2e
