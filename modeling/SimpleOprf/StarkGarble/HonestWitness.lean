import SimpleOprf.GcMmo.Correctness
import SimpleOprf.StarkGarble.AcceptedGates
import SimpleOprf.StarkGarble.HashedTables
import SimpleOprf.VoprfSer

/-!
# The witness of an honest garbling

The file that the C++ side writes for a garbling is one that the prover reads
back, accepts and proves.

This covers every circuit with at least one AND gate, every row of the trace
with its padding, and the four assertions.
-/

namespace SimpleOprf.StarkGarble

open SimpleOprf.Basis SimpleOprf.GcMmo SimpleOprf.VoprfSer

/-- A half-gate witness as the prover reads it. -/
def gateWit (w : HalfGateWitness) : GateWit :=
  ⟨w.a0, w.b0, w.tg, w.te, w.ha0, w.ha1, w.hb0, w.hb1, w.pa, w.pb⟩

/-- The witness that is written for a garbling. -/
def starkWitness (p : Primitives) (gr : GarbleResult) (cm : List UInt8) : Witness where
  nAnd := UInt64.ofNat gr.andWit.length
  cm := cm
  gcHash := gr.gcHash
  rRoot := gr.rRoot
  outHash := p.sha256 gr.outDecode
  delta := gr.delta
  gates := gr.andWit.map gateWit

/-- The server writes the bytes of that witness. -/
theorem serializeStarkWitness_eq (p : Primitives) (gr : GarbleResult) (cm : List UInt8) :
    serializeStarkWitness p gr cm = (starkWitness p gr cm).bytes := by
  simp only [serializeStarkWitness, Witness.bytes, starkWitness, List.append_assoc,
    List.flatMap_map]
  rfl

/-- The half-gate equations hold of what the garbler records. -/
theorem gateHolds_halfGate (aes : Block → Block) (delta : Block) (i : Nat) (a0 b0 : Block) :
    GateHolds delta (gateWit (halfGate aes delta i a0 b0).1) := by
  have permute : ∀ x : Block, (if lsb x then 1 else 0 : UInt8) = 0 ∨
      (if lsb x then 1 else 0 : UInt8) = 1 := by
    intro x
    cases lsb x with
    | false => exact .inl rfl
    | true => exact .inr rfl
  have weight : ∀ x : Block, parity (if lsb x then 1 else 0) = select x := by
    intro x
    rw [select_eq_lsb]
    cases lsb x <;> rfl
  apply gateHolds_of_table_eq
  · exact (le_one_iff _).mpr (permute a0)
  · exact permute b0
  · change (if lsb b0 then xorBlock _ delta else _) = _ + _ + parity (if lsb b0 then 1 else 0) • delta
    rw [weight, xorBlock_if_lsb]
    rfl
  · rfl

/-! ## What a garbling run records -/

/-- The recorded witnesses are those of the gate loop, one for each AND gate. -/
structure Records (aes : Block → Block) (c : Circuit) (gr : GarbleResult) : Prop where
  honest : HonestWitnesses aes gr.delta gr.tables gr.andWit
  count : gr.andWit.length = c.andGates

/-- The garbler's vectors after gates with `count` AND gates among them. -/
structure StateRecords (aes : Block → Block) (delta : Block) (state : GarbleState)
    (count : Nat) : Prop where
  honest : HonestWitnesses aes delta state.tables state.andWit
  number : state.andId = state.tables.length
  count : state.tables.length = count

section Run

variable {aes : Block → Block} {delta : Block}

/-- A gate that succeeds records itself when it is an AND gate. -/
theorem StateRecords.gate {state next : GarbleState} {g : Gate} {count : Nat}
    (records : StateRecords aes delta state count) (ran : garbleGate aes delta state g = .ok next) :
    StateRecords aes delta next (count + if g.type = .and then 1 else 0) := by
  obtain ⟨type, in0, in1, out⟩ := g
  cases type with
  | xor =>
    obtain ⟨x, -, ran⟩ := Outcome.bind_eq_ok.mp ran
    obtain ⟨y, -, ran⟩ := Outcome.bind_eq_ok.mp ran
    obtain ⟨wire0, -, ran⟩ := Outcome.bind_eq_ok.mp ran
    cases ran
    exact ⟨records.honest, records.number, records.count⟩
  | inv =>
    obtain ⟨x, -, ran⟩ := Outcome.bind_eq_ok.mp ran
    obtain ⟨wire0, -, ran⟩ := Outcome.bind_eq_ok.mp ran
    cases ran
    exact ⟨records.honest, records.number, records.count⟩
  | and =>
    obtain ⟨a0, -, ran⟩ := Outcome.bind_eq_ok.mp ran
    obtain ⟨b0, -, ran⟩ := Outcome.bind_eq_ok.mp ran
    obtain ⟨wire0, -, ran⟩ := Outcome.bind_eq_ok.mp ran
    cases ran
    refine ⟨?_, ?_, ?_⟩
    · dsimp only
      rw [records.number]
      exact records.honest.append a0 b0
    · rw [List.length_append, records.number, List.length_singleton]
    · rw [List.length_append, records.count, List.length_singleton, if_pos rfl]

/-- The gate loop records every AND gate in its order. -/
theorem StateRecords.gates (gates : List Gate) {state final : GarbleState} {count : Nat}
    (records : StateRecords aes delta state count)
    (ran : gates.foldlM (garbleGate aes delta) state = .ok final) :
    StateRecords aes delta final (count + gates.countP (·.type = .and)) := by
  induction gates generalizing state count with
  | nil =>
    cases ran
    exact records
  | cons g gates ih =>
    rw [List.foldlM_cons] at ran
    obtain ⟨next, first, rest⟩ := Outcome.bind_eq_ok.mp ran
    have later := ih (records.gate first) rest
    simp only [List.countP_cons, decide_eq_true_eq]
    rwa [Nat.add_right_comm, Nat.add_assoc] at later

end Run

variable {p : Primitives} {aes : Block → Block} {c : Circuit} {mmoKey : Block} {rng : Rng}
  {gr : GarbleResult}

/-- Every run of the garbler, on whatever circuit, records its AND gates. -/
theorem garbleCircuit_records {rng' : Rng}
    (ran : garbleCircuit p.sha256 c mmoKey aes rng = .ok (gr, rng')) : Records aes c gr := by
  unfold garbleCircuit at ran
  dsimp only at ran
  obtain ⟨wire0, -, ran⟩ := Outcome.bind_eq_ok.mp ran
  obtain ⟨state, looped, ran⟩ := Outcome.bind_eq_ok.mp ran
  obtain ⟨outputs, -, ran⟩ := Outcome.bind_eq_ok.mp ran
  obtain ⟨evaluator, -, ran⟩ := Outcome.bind_eq_ok.mp ran
  cases ran
  have start : StateRecords aes (makeDelta rng).1 ⟨wire0, [], [], 0⟩ 0 := ⟨⟨by simp, rfl⟩, rfl, rfl⟩
  have final := start.gates c.gates looped
  refine ⟨final.honest, ?_⟩
  have counted := final.count
  rw [← final.honest.tables, List.length_map, Nat.zero_add] at counted
  exact counted

/-- So does one that meets its specification. -/
theorem records_of_spec (spec : GarbleSpec p.sha256 aes c mmoKey rng gr) : Records aes c gr where
  honest := spec.honest
  count := by
    have listed := congrArg List.length spec.honest.tables
    rw [List.length_map] at listed
    rw [listed, spec.length_tables]

/-! ## The witness file of a garbling -/

/-- It counts the AND gates. -/
theorem starkWitness_nAnd (records : Records aes c gr) (cm : List UInt8) :
    (starkWitness p gr cm).nAnd.toNat = c.andGates := by
  change (UInt64.ofNat gr.andWit.length).toNat = c.andGates
  rw [records.count]
  exact UInt64.toNat_ofNat_of_lt' (lt_trans (andGates_lt c) (by norm_num))

theorem starkWitness_fits (records : Records aes c gr) {cm : List UInt8}
    (sized : cm.length = cmBytes) : (starkWitness p gr cm).Fits where
  cm := sized
  gates := by
    rw [starkWitness_nAnd records]
    change (gr.andWit.map gateWit).length = c.andGates
    rw [List.length_map, records.count]
  capacity := by
    have small := andGates_lt c
    rw [starkWitness_nAnd records]
    omega

/-- The prover accepts the witness of every garbling. -/
theorem starkWitness_accepted (records : Records aes c gr) (cm : List UInt8) :
    checkHalfGates (starkWitness p gr cm) = .ok () := by
  rw [checkHalfGates_eq_ok]
  intro g member
  obtain ⟨w, recorded, rfl⟩ := List.mem_map.mp member
  obtain ⟨i, inside, rfl⟩ := List.getElem_of_mem recorded
  have honest := records.honest.gate i _ (List.getElem?_eq_getElem inside)
  rw [honest]
  exact gateHolds_halfGate aes gr.delta i _ _

/-- The prover builds its trace. -/
theorem buildTrace_starkWitness (records : Records aes c gr) {cm : List UInt8}
    (sized : cm.length = cmBytes) (gates : 0 < c.andGates) :
    buildTrace p (starkWitness p gr cm) =
      .ok (traceTable p (starkWitness p gr cm), publicInputs p (starkWitness p gr cm)) := by
  rw [buildTrace_eq (starkWitness_fits records sized), starkWitness_nAnd records,
    if_neg (Nat.ne_of_gt gates)]

/-- An honest garbling with a gate is proved, and its proof file is accepted. -/
theorem doProve_starkWitness {wf : Winterfell} (spec : GarbleSpec p.sha256 aes c mmoKey rng gr)
    {cm : List UInt8} (sized : cm.length = cmBytes) (gates : 0 < c.andGates)
    (honest : wf.AcceptsHonest p c.andGates) :
    ∃ rest, doProve p wf (serializeStarkWitness p gr cm) =
        .ok ((proofHeader p (starkWitness p gr cm)).bytes ++ rest) ∧
      doVerify p wf ((proofHeader p (starkWitness p gr cm)).bytes ++ rest) none = .ok () ∧
      rest.length < 2 ^ 62 := by
  have records := records_of_spec spec
  have fits := starkWitness_fits (p := p) records sized
  have count := starkWitness_nAnd (p := p) records cm
  have accepted := starkWitness_accepted (p := p) records cm
  have positive : 0 < (starkWitness p gr cm).nAnd.toNat := by rwa [count]
  obtain ⟨proof, made, restored, verified, small⟩ := honest _ fits count accepted
  refine ⟨wf.writeInto proof, ?_, ?_, small⟩
  · rw [serializeStarkWitness_eq, doProve_eq_ok]
    exact ⟨_, (reads_witness fits).parse_eq, fits, positive, accepted,
      buildTrace_starkWitness records sized gates, proof, made, rfl⟩
  · rw [doVerify_eq_ok sized]
    exact ⟨proof, restored, checkBinding_eq_ok.mpr ⟨rfl, rfl⟩, verified⟩

/-! ## Garbler, check and constraints agree -/

/-- The parsed witness has every field of the garbling. -/
structure ReadsBack (p : Primitives) (gr : GarbleResult) (cm : List UInt8) (w : Witness) :
    Prop where
  nAnd : w.nAnd.toNat = gr.andWit.length
  cm : w.cm = cm
  gcHash : w.gcHash = gr.gcHash
  rRoot : w.rRoot = gr.rRoot
  outHash : w.outHash = p.sha256 gr.outDecode
  delta : w.delta = gr.delta
  gates : w.gates = gr.andWit.map gateWit

/-- All fifteen constraints vanish on every row of the trace, the last one
included, and the four assertions hold. -/
structure HoldsOnRows (pub : PublicInputs) (trace : TraceTable) : Prop where
  rows : ∀ i, i < trace.rows.length → evaluateTransition (trace.row i) = Vector.replicate 15 0
  boundary : ∀ a ∈ getAssertions pub, (trace.row a.step).get a.column = a.value

/-- The witness file of every garbling run with an AND gate reads back as the
garbling, passes the check, and has a trace that satisfies the constraints up to
its last padding row. -/
theorem garbled_witness_satisfies (p : Primitives) (aes : Block → Block) (c : Circuit)
    (mmoKey : Block) (rng rng' : Rng) (gr : GarbleResult) (cm : List UInt8)
    (ran : garbleCircuit p.sha256 c mmoKey aes rng = .ok (gr, rng'))
    (gates : 0 < c.andGates) (sized : cm.length = cmBytes) :
    ∃ w trace pub, parseWitness (serializeStarkWitness p gr cm) = .ok w ∧ ReadsBack p gr cm w ∧
      w.nAnd.toNat = c.andGates ∧ checkHalfGates w = .ok () ∧
      buildTrace p w = .ok (trace, pub) ∧
      trace.rows.length = nextPow2 (128 * c.andGates) ∧ HoldsOnRows pub trace := by
  have records : Records aes c gr := garbleCircuit_records ran
  have fits := starkWitness_fits (p := p) records sized
  have count := starkWitness_nAnd (p := p) records cm
  have accepted := starkWitness_accepted (p := p) records cm
  have positive : 0 < (starkWitness p gr cm).nAnd.toNat := by rwa [count]
  refine ⟨starkWitness p gr cm, _, _, ?_, ⟨?_, rfl, rfl, rfl, rfl, rfl, rfl⟩, count, accepted,
    buildTrace_starkWitness records sized gates, ?_, ?_, ?_⟩
  · rw [serializeStarkWitness_eq]
    exact (reads_witness fits).parse_eq
  · rw [count, records.count]
  · have larger : max ((starkWitness p gr cm).nAnd.toNat * 128) 4 = 128 * c.andGates := by
      rw [count]
      omega
    rw [traceTable, List.length_map, List.length_range, larger]
  · exact fun i inside => transition_traceTable fits.gates positive accepted inside
  · exact (satisfies_traceTable fits.gates positive accepted).boundary

/-- The whole way for one garbling. -/
theorem sampleCircuit_witness_satisfies : ∃ gr rng' w trace pub,
    garbleCircuit standard.sha256 sampleCircuit 0 (fixedKeyAes 0) (Stream'.const 0) =
      .ok (gr, rng') ∧
    parseWitness (serializeStarkWitness standard gr (List.replicate cmBytes 0)) = .ok w ∧
    ReadsBack standard gr (List.replicate cmBytes 0) w ∧
    w.nAnd.toNat = sampleCircuit.andGates ∧ checkHalfGates w = .ok () ∧
    buildTrace standard w = .ok (trace, pub) ∧
    trace.rows.length = nextPow2 (128 * sampleCircuit.andGates) ∧ HoldsOnRows pub trace := by
  obtain ⟨gr, rng', ran, -⟩ := garbleCircuit_spec standard.sha256 (fixedKeyAes 0) 0
    sampleCircuit_wellFormed (Stream'.const 0)
  obtain ⟨w, trace, pub, proved⟩ := garbled_witness_satisfies standard (fixedKeyAes 0)
    sampleCircuit 0 (Stream'.const 0) rng' gr (List.replicate cmBytes 0) ran (by decide)
    List.length_replicate
  exact ⟨gr, rng', w, trace, pub, ran, proved⟩

end SimpleOprf.StarkGarble
