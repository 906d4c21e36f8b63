import SimpleOprf.VoprfE2e.Adversary

/-!
# What acceptance guarantees against a malicious server

The client compares its results with a key that the server sends in the clear,
and table hashes with each other. Neither the commitment nor the tables take
part in a comparison, so each guarantee holds exactly when the messages happen
to have the missing relation.
-/

namespace SimpleOprf.VoprfE2e

open SimpleOprf.Basis SimpleOprf.GcMmo SimpleOprf.PlaintextOprf SimpleOprf.VoprfSer
  SimpleOprf.StarkGarble

variable (p : Primitives)

/-! ## The key commitment -/

/-- The results are the function of one key, and that key was committed to. -/
def CommitmentVerified (cfg : Config) (r : Received) (ys : List Digest) : Prop :=
  ∃ k, r.cm = keyCommitment p k 128 ∧ ∀ i, i < cfg.m.toNat →
    ∃ x, r.xs[i]? = some x ∧ ys[i]? = some (fK p k x)

/-- The received commitment opens to a key that agrees with the key blob on
every input of the client. -/
def CommittedKeyAgrees (cfg : Config) (r : Received) : Prop :=
  ∃ k, r.cm = keyCommitment p k 128 ∧ ∀ i, i < cfg.m.toNat →
    ∃ x, r.xs[i]? = some x ∧ fK p k x = fK p r.oprfKey x

/-- In every accepted session the results are those of the committed key exactly
when that key agrees with the one in the key blob. -/
theorem accepted_commitment_iff (wf : Winterfell) (cfg : Config) (circ : Circuit) (rng : Rng)
    (pads : Pads) (inbox : List Packet) (r : Received) (v : Verdict)
    (ran : runClient p wf cfg circ rng pads inbox = .ok (r, v)) (accepted : v.vok = 1) :
    CommitmentVerified p cfg r v.ys ↔ CommittedKeyAgrees p cfg r := by
  obtain ⟨-, -, results⟩ := judge_vok (judge_of_runClient ran) accepted
  constructor
  · rintro ⟨k, opens, verified⟩
    refine ⟨k, opens, fun i inside => ?_⟩
    obtain ⟨x, input, result⟩ := verified i inside
    obtain ⟨x', input', oracle⟩ := results i inside
    have same : x = x' := Option.some.inj (input.symm.trans input')
    subst same
    exact ⟨x, input, Option.some.inj (result.symm.trans oracle)⟩
  · rintro ⟨k, opens, agrees⟩
    refine ⟨k, opens, fun i inside => ?_⟩
    obtain ⟨x, input, same⟩ := agrees i inside
    obtain ⟨x', input', oracle⟩ := results i inside
    have drawn : x = x' := Option.some.inj (input.symm.trans input')
    subst drawn
    exact ⟨x, input, by rw [oracle, same]⟩

/-- As many blank tables as a circuit has AND gates. -/
def blankTables (circ : Circuit) : List AndGateTable := List.replicate circ.andGates default

/-- Blank tables suffice for the circuit and fit a vector. -/
theorem blankTables_fit (circ : Circuit) : circ.andGates ≤ (blankTables circ).length ∧
    32 * (blankTables circ).length < 2 ^ 62 := by
  have few : circ.andGates ≤ circ.gates.length := List.countP_le_length
  have size := circ.gates_size
  rw [blankTables, List.length_replicate]
  omega

/-- The equivalence for a session with blank tables. -/
theorem blank_commitment_iff : ∃ inbox r v,
    runClient standard acceptAll oneEvaluation passThrough (Stream'.const 0) (fun _ => (0, 0))
      inbox = .ok (r, v) ∧ v.vok = 1 ∧
    (CommitmentVerified standard oneEvaluation r v.ys ↔
      CommittedKeyAgrees standard oneEvaluation r) := by
  obtain ⟨supplied, fits⟩ := blankTables_fit passThrough
  obtain ⟨inbox, r, v, -, ran, -, -, accepted, -⟩ :=
    exists_accepted_session standard passThrough_datapath [] (by norm_num [vectorLimit])
      (blankTables passThrough) supplied fits (Vector.replicate 32 0) (Stream'.const 0)
      (fun _ => (0, 0))
  exact ⟨inbox, r, v, ran, accepted, accepted_commitment_iff standard acceptAll oneEvaluation
    passThrough (Stream'.const 0) (fun _ => (0, 0)) inbox r v ran accepted⟩

/-- The client accepts the empty commitment, which commits to no key, whatever
the hash function, the cipher and the circuit are. -/
theorem accepted_commitment_may_be_empty :
    ¬ ∃ p circ, Datapath circ ∧ ∀ wf cfg rng pads inbox r v, wf.Sound → 0 < cfg.m.toNat →
      runClient p wf cfg circ rng pads inbox = .ok (r, v) → v.vok = 1 →
      CommitmentVerified p cfg r v.ys := by
  rintro ⟨p, circ, datapath, verified⟩
  obtain ⟨supplied, fits⟩ := blankTables_fit circ
  obtain ⟨inbox, r, v, -, ran, -, -, accepted, empty, -⟩ :=
    exists_accepted_session p datapath [] (by norm_num [vectorLimit]) (blankTables circ) supplied
      fits (Vector.replicate 32 0) (Stream'.const 0) (fun _ => (0, 0))
  obtain ⟨k, opens, -⟩ := verified acceptAll oneEvaluation _ _ inbox r v acceptAll_sound
    Nat.one_pos ran accepted
  have length := length_keyCommitment p k 128
  rw [← opens, empty] at length
  exact absurd length (by decide)

/-! ## The garbled tables -/

/-- The tables that the evaluator reads. -/
def evaluatedTables (circ : Circuit) (tm : TablesMsg) : List AndGateTable :=
  tm.tables.take circ.andGates

/-- Evaluation depends on no other table of the message. -/
theorem eval_evaluatedTables (aes : Block → Block) (circ : Circuit) (tm : TablesMsg)
    (labels : List Block) :
    evalCircuitLabels circ aes
        { TablesMsg.garbling tm with tables := evaluatedTables circ tm } labels =
      evalCircuitLabels circ aes (TablesMsg.garbling tm) labels :=
  evalCircuitLabels_take circ aes (TablesMsg.garbling tm) labels

/-- The committed hash of circuit `i`, and for circuit 0 the one in the proof,
is the hash of the tables that the client evaluates. -/
structure TablesBound (circ : Circuit) (r : Received) (i : Nat) (tm : TablesMsg) : Prop where
  committed : r.gcHashes[i]? = some (p.sha256 (tableBytes (evaluatedTables circ tm)))
  proof : i = 0 →
    proofGc r.proof = .ok (p.sha256 (tableBytes (evaluatedTables circ tm))).toList

/-- For every circuit that passes the client's checks the evaluated tables have
the committed hash exactly when the hash field inside their own blob is right. -/
theorem evaluated_tables_bound_iff (wf : Winterfell) (cfg : Config) (circ : Circuit) (rng : Rng)
    (pads : Pads) (inbox : List Packet) (r : Received) (v : Verdict) (i : Nat) (tm : TablesMsg)
    (ran : runClient p wf cfg circ rng pads inbox = .ok (r, v)) (bound : v.bindOk = true)
    (checked : checkedTables r i = .ok (some tm)) :
    TablesBound p circ r i tm ↔ tm.gcHash = p.sha256 (tableBytes (evaluatedTables circ tm)) := by
  obtain ⟨blob, found, parsed, committed⟩ := checkedTables_eq_some.mp checked
  constructor
  · intro tablesBound
    exact Option.some.inj (committed.symm.trans tablesBound.committed)
  · intro hashes
    refine ⟨by rw [committed, hashes], ?_⟩
    rintro rfl
    obtain ⟨blob0, t0, found0, parsed0, -, carried⟩ :=
      judge_bindOk (judge_of_runClient ran) bound
    have sameBlob : blob = blob0 := Option.some.inj (found.symm.trans found0)
    subst sameBlob
    have sameTables : tm = t0 := Except.ok.inj (parsed.symm.trans parsed0)
    subst sameTables
    rw [carried, hashes]

/-- The equivalence for a session with blank tables. -/
theorem blank_tables_bound_iff : ∃ inbox r v tm,
    runClient standard acceptAll oneEvaluation passThrough (Stream'.const 0) (fun _ => (0, 0))
      inbox = .ok (r, v) ∧ v.bindOk = true ∧ checkedTables r 0 = .ok (some tm) ∧
    (TablesBound standard passThrough r 0 tm ↔
      tm.gcHash = standard.sha256 (tableBytes (evaluatedTables passThrough tm))) := by
  obtain ⟨supplied, fits⟩ := blankTables_fit passThrough
  obtain ⟨inbox, r, v, tm, ran, -, bound, -, -, checked, -⟩ :=
    exists_accepted_session standard passThrough_datapath [] (by norm_num [vectorLimit])
      (blankTables passThrough) supplied fits (Vector.replicate 32 0) (Stream'.const 0)
      (fun _ => (0, 0))
  exact ⟨inbox, r, v, tm, ran, bound, checked, evaluated_tables_bound_iff standard acceptAll
    oneEvaluation passThrough (Stream'.const 0) (fun _ => (0, 0)) inbox r v 0 tm ran bound checked⟩

/-- The client evaluates blank tables under a hash that is not theirs, whatever
the hash function, the cipher and the circuit are. -/
theorem evaluated_tables_may_miss_hash :
    ¬ ∃ p circ, Datapath circ ∧ ∀ wf cfg rng pads inbox r v i tm, wf.Sound →
      runClient p wf cfg circ rng pads inbox = .ok (r, v) → v.bindOk = true →
      checkedTables r i = .ok (some tm) → TablesBound p circ r i tm := by
  rintro ⟨p, circ, datapath, allBound⟩
  obtain ⟨supplied, fits⟩ := blankTables_fit circ
  let digest := p.sha256 (tableBytes ((blankTables circ).take circ.andGates))
  obtain ⟨inbox, r, v, tm, ran, -, bound, -, -, checked, tables, hash⟩ :=
    exists_accepted_session p datapath [] (by norm_num [vectorLimit]) (blankTables circ) supplied
      fits (otherDigest digest) (Stream'.const 0) (fun _ => (0, 0))
  have tablesBound := allBound acceptAll oneEvaluation _ _ inbox r v 0 tm acceptAll_sound ran bound
    checked
  obtain ⟨blob, -, -, committed⟩ := checkedTables_eq_some.mp checked
  have same : tm.gcHash = p.sha256 (tableBytes (evaluatedTables circ tm)) :=
    Option.some.inj (committed.symm.trans tablesBound.committed)
  rw [evaluatedTables, tables, hash] at same
  exact otherDigest_ne digest same

end SimpleOprf.VoprfE2e
