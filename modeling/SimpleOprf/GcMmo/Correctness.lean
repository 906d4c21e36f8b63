import SimpleOprf.Basis.Sha256
import SimpleOprf.GcMmo.Refinement

/-!
# Garbled evaluation computes the circuit

`garbleCircuit_spec` says what a garbling run produces; together with the
alignment invariant of the garbling theory it makes the evaluator's labels
carry the plain wire values and decoding return the plain outputs.

The theorem is about any circuit, block function and random stream.
`RefinesPlain` states it for every wire, for the output labels and for the
decoded bits.
-/

namespace SimpleOprf.GcMmo

open SimpleOprf.Basis

variable (sha256 : List UInt8 → Digest) (aes : Block → Block) (c : Circuit) (mmoKey : Block)

/-- The wire vector before the gate loop: the inputs, then zeros. -/
def initialWires {α : Type} [Zero α] (wires : Nat) (inputs : List α) : List α :=
  inputs ++ (List.replicate wires 0).drop inputs.length

theorem length_initialWires {α : Type} [Zero α] {wires : Nat} {inputs : List α}
    (fits : inputs.length ≤ wires) : (initialWires wires inputs).length = wires := by
  simp only [initialWires, List.length_append, List.length_drop, List.length_replicate]
  omega

/-- The other wires start at zero. -/
theorem getD_initialWires {α : Type} [Zero α] (wires : Nat) (inputs : List α) (i : Nat) :
    (initialWires wires inputs).getD i 0 = inputs.getD i 0 := by
  simp only [initialWires, List.getD_eq_getElem?_getD, List.getElem?_append, List.getElem?_drop,
    List.getElem?_replicate]
  by_cases inside : i < inputs.length
  · simp [inside]
  · simp only [inside, if_false, List.getElem?_eq_none (Nat.le_of_not_lt inside)]
    split <;> rfl

/-- Everything a garbling run of a well-formed circuit determines. -/
structure GarbleSpec (rng : Rng) (gr : GarbleResult) : Prop where
  delta : gr.delta = (makeDelta rng).1
  aesKey : gr.aesKey = mmoKey
  gcHash : gr.gcHash = sha256 (tableBytes gr.tables)
  length : gr.wire0.length = c.nWires.toNat
  outDecode : gr.outDecode = c.outputWires.map fun wire =>
    if lsb (gr.wire0.getD wire.toNat 0) then 1 else 0
  honest : HonestWitnesses aes gr.delta gr.tables gr.andWit
  run : ∀ odd : select gr.delta = 1, ∃ start : Nat → Block,
    (∀ i, start i = (inputLabels gr.delta c.inputs (makeDelta rng).2).1.getD i 0) ∧
    let final := (scheme aes gr.delta odd).garble (c.gates.map Gate.abstract) ⟨start, []⟩
    (∀ i, gr.wire0.getD i 0 = final.zero i) ∧
      gr.tables.map AndGateTable.abstract = final.tables

variable {c}

/-- On a well-formed circuit every output wire is read. -/
theorem readOutputs_eq {α : Type} (wf : c.WellFormed) {w : List α}
    (length : w.length = c.nWires.toNat) (fallback : α) :
    readOutputs c w = .ok (c.outputWires.map fun wire => w.getD wire.toNat fallback) := by
  have indexed : c.outputWires.map (fun wire => w.getD wire.toNat fallback) =
      (List.range c.nOutput.toNat).map fun i =>
        w.getD (c.outputWires.getD i 0).toNat fallback := by
    rw [← wf.outputs]
    apply List.ext_getElem
    · simp
    · intro i first second
      simp only [List.length_map] at first
      simp [first]
  rw [indexed]
  apply Outcome.mapM_eq_map
  intro i member
  have inside : i < c.outputWires.length := by simpa [wf.outputs] using member
  have bounded : (c.outputWires.getD i 0).toNat < w.length := by
    rw [length, List.getD_eq_getElem _ _ inside]
    exact wf.output _ (List.getElem_mem inside)
  rw [readAt_getD 0 inside, Outcome.ok_bind, readAt_getD fallback bounded]

/-- Garbling a well-formed circuit succeeds and meets its specification. -/
theorem garbleCircuit_spec (wf : c.WellFormed) (rng : Rng) :
    ∃ gr rng', garbleCircuit sha256 c mmoKey aes rng = .ok (gr, rng') ∧
      GarbleSpec sha256 aes c mmoKey rng gr := by
  have odd := select_makeDelta rng
  have fits : (inputLabels (makeDelta rng).1 c.inputs (makeDelta rng).2).1.length ≤
      (List.replicate c.nWires.toNat (0 : Block)).length := by
    simpa using wf.inputs
  have stored := storeFront_of_le fits
  have related : GarbleRelated aes (makeDelta rng).1 c.nWires.toNat
      ⟨initialWires c.nWires.toNat (inputLabels (makeDelta rng).1 c.inputs (makeDelta rng).2).1,
        [], [], 0⟩
      ⟨fun i => (inputLabels (makeDelta rng).1 c.inputs (makeDelta rng).2).1.getD i 0, []⟩ :=
    ⟨length_initialWires (by simpa using wf.inputs), getD_initialWires _ _, rfl, rfl,
      ⟨by simp, rfl⟩⟩
  obtain ⟨state, ran, final⟩ := garbleGates_simulate aes odd c.gates wf.gates related
  have outputs := readOutputs_eq wf final.length (0 : Block)
  have evaluator : slice .outOfBounds state.wire0 c.nInput0.toNat c.nInput1.toNat =
      .ok ((state.wire0.drop c.nInput0.toNat).take c.nInput1.toNat) := by
    rw [slice, if_pos]
    rw [final.length]
    exact wf.inputs
  change storeFront _ _ = .ok (initialWires c.nWires.toNat _) at stored
  unfold garbleCircuit
  simp only [wf.inputs_toNat, stored, ran, outputs, evaluator, Outcome.ok_bind]
  refine ⟨_, _, rfl, rfl, rfl, rfl, final.length, by simp, final.honest, fun _ => ⟨_, fun _ => rfl, ?_⟩⟩
  exact ⟨final.zero, final.tables⟩

/-! ## Evaluation against the specification -/

variable {sha256 aes mmoKey}

/-- Zero labels of input wires survive the gate loop. -/
theorem GarbleSpec.inputLabel {rng : Rng} {gr : GarbleResult} (wf : c.WellFormed)
    (spec : GarbleSpec sha256 aes c mmoKey rng gr) {i : Nat} (input : i < c.inputs) :
    gr.wire0.getD i 0 = (inputLabels gr.delta c.inputs (makeDelta rng).2).1.getD i 0 := by
  have odd : select gr.delta = 1 := by rw [spec.delta, select_makeDelta]
  obtain ⟨start, started, zero, -⟩ := spec.run odd
  rw [zero, Garbling.Scheme.garble_zero_of_untouched]
  · exact started i
  · intro gate member
    obtain ⟨g, gMember, rfl⟩ := List.mem_map.mp member
    have above := (wf.gates g gMember).above
    exact Nat.ne_of_gt (lt_of_lt_of_le input above)

/-- Garbling publishes one table for each AND gate. -/
theorem GarbleSpec.length_tables {rng : Rng} {gr : GarbleResult}
    (spec : GarbleSpec sha256 aes c mmoKey rng gr) : gr.tables.length = c.andGates := by
  have odd : select gr.delta = 1 := by rw [spec.delta, select_makeDelta]
  obtain ⟨start, -, -, tables⟩ := spec.run odd
  have counted := (scheme aes gr.delta odd).length_garble_tables (c.gates.map Gate.abstract)
    ⟨start, []⟩
  have sameGates : (c.gates.map Gate.abstract).countP (·.operation = .and) = c.andGates := by
    rw [List.countP_map]
    apply List.countP_congr
    intro g _
    cases type : g.type <;> simp [Gate.abstract, GateType.abstract, type]
  have mapped := congrArg List.length tables
  rw [List.length_map, counted, sameGates] at mapped
  simpa using mapped

/-- One active label for each input wire, in wire order. -/
structure ActiveInputs (c : Circuit) (gr : GarbleResult) (bits : List UInt8)
    (labels : List Block) : Prop where
  length : labels.length = c.inputs
  label : ∀ i, i < c.inputs →
    labels.getD i 0 = labelForBit (gr.wire0.getD i 0) gr.delta (bits.getD i 0)

/-- The input bit vectors of a circuit. -/
structure InputBits (c : Circuit) (bits : List UInt8) : Prop where
  length : bits.length = c.inputs
  isBit : ∀ x ∈ bits, x = 0 ∨ x = 1

/-- The plaintext interpreter starts with the input bits. -/
private theorem plainStart_related (wf : c.WellFormed) {bits : List UInt8}
    (input : InputBits c bits) :
    PlainRelated c.nWires.toNat (initialWires c.nWires.toNat (bits.map (· &&& 1)))
      fun i => parity (bits.getD i 0) where
  length := length_initialWires (by simpa [input.length] using wf.inputs)
  view i := by
    have masked : (bits.map (· &&& 1)).getD i 0 = bits.getD i 0 &&& 1 := by
      simp only [List.getD_eq_getElem?_getD, List.getElem?_map]
      cases bits[i]? <;> rfl
    rw [getD_initialWires, masked]
    rcases isBit_getD input.isBit i with zero | one
    · rw [zero]; rfl
    · rw [one]; rfl
  isBit x member := by
    rcases List.mem_append.mp member with given | filled
    · obtain ⟨y, yMember, rfl⟩ := List.mem_map.mp given
      rcases input.isBit y yMember with rfl | rfl <;> decide
    · exact .inl (List.eq_of_mem_replicate (List.mem_of_mem_drop filled))

/-- The evaluator starts with the input labels. -/
private theorem activeStart_related (wf : c.WellFormed) {labels : List Block}
    (length : labels.length = c.inputs) :
    ActiveRelated c.nWires.toNat (initialWires c.nWires.toNat labels, 0)
      ⟨fun i => labels.getD i 0, 0⟩ where
  length := length_initialWires (by simpa [length] using wf.inputs)
  label := getD_initialWires _ _
  gate := rfl

/-- Both evaluators finish, and the active label of every wire is the zero
label shifted by the plain bit of that wire. -/
theorem GarbleSpec.wires {rng : Rng} {gr : GarbleResult} (wf : c.WellFormed)
    (spec : GarbleSpec sha256 aes c mmoKey rng gr) {bits : List UInt8} (input : InputBits c bits)
    {labels : List Block} (activeInputs : ActiveInputs c gr bits labels) :
    ∃ w active, plainWires c bits = .ok w ∧ activeWires c aes gr labels = .ok active ∧
      w.length = c.nWires.toNat ∧ active.length = c.nWires.toNat ∧
      (∀ i, w.getD i 0 = 0 ∨ w.getD i 0 = 1) ∧
      ∀ i, active.getD i 0 = labelForBit (gr.wire0.getD i 0) gr.delta (w.getD i 0) := by
  have odd : select gr.delta = 1 := by rw [spec.delta, select_makeDelta]
  obtain ⟨start, started, zero, tables⟩ := spec.run odd
  obtain ⟨w, plainRan, plainFinal⟩ :=
    plainGates_simulate c.gates wf.gates (plainStart_related wf input)
  have supplied : 0 + c.gates.countP (·.type = .and) ≤ gr.tables.length := by
    rw [spec.length_tables, Nat.zero_add]
    exact Nat.le_refl _
  obtain ⟨active, activeRan, activeFinal⟩ := activeGates_simulate aes odd c.gates wf.gates
    (activeStart_related wf activeInputs.length) supplied
  -- At the start the inputs are aligned by assumption and all other wires are zero.
  have aligned : (scheme aes gr.delta odd).Aligned ⟨start, []⟩
      ⟨fun i => labels.getD i 0, 0⟩ (fun i => parity (bits.getD i 0)) := by
    refine ⟨fun i => ?_, rfl⟩
    rw [← labelForBit_eq_active _ _ (isBit_getD input.isBit i)]
    change labels.getD i 0 = labelForBit (start i) gr.delta (bits.getD i 0)
    rw [started i]
    by_cases inside : i < c.inputs
    · rw [activeInputs.label i inside, spec.inputLabel wf inside]
    · have outside := Nat.le_of_not_lt inside
      simp [List.getD_eq_getElem?_getD, activeInputs.length, input.length, outside, labelForBit]
  have published : ((scheme aes gr.delta odd).garble (c.gates.map Gate.abstract)
      ⟨start, []⟩).tables <+: gr.tables.map AndGateTable.abstract := by rw [tables]
  have final := aligned.run (c.gates.map Gate.abstract) published
  have plainLoad : storeFront (List.replicate c.nWires.toNat 0) (bits.map (· &&& 1)) =
      .ok (initialWires c.nWires.toNat (bits.map (· &&& 1))) :=
    storeFront_of_le (by simpa [input.length] using wf.inputs)
  have activeLoad : storeFront (List.replicate c.nWires.toNat 0) labels =
      .ok (initialWires c.nWires.toNat labels) :=
    storeFront_of_le (by simpa [activeInputs.length] using wf.inputs)
  refine ⟨w, active.1, ?_, ?_, plainFinal.length, activeFinal.length, isBit_getD plainFinal.isBit, ?_⟩
  · rw [plainWires, if_neg (by simp [input.length, wf.inputs_toNat]), plainLoad]
    exact plainRan
  · rw [activeWires, if_neg (by simp [activeInputs.length, wf.inputs_toNat]), activeLoad]
    rw [Outcome.ok_bind, activeRan]
    rfl
  · intro i
    rw [activeFinal.label, final.label, zero, ← plainFinal.view,
      labelForBit_eq_active _ _ (isBit_getD plainFinal.isBit i)]
    rfl

/-- A label of bit `x` shows the select bit of its zero label flipped by `x`. -/
theorem decode_labelForBit {zero delta : Block} (odd : select delta = 1) {bit : UInt8}
    (isBit : bit = 0 ∨ bit = 1) :
    (if lsb (labelForBit zero delta bit) then 1 else 0 : UInt8) ^^^ (if lsb zero then 1 else 0) =
      bit := by
  have flipped : select (labelForBit zero delta bit) = select zero + parity bit := by
    rw [labelForBit_eq_active _ _ isBit, Garbling.active, map_add, map_smul, odd, smul_eq_mul,
      mul_one]
  have cases_select : ∀ s : ZMod 2, s = 0 ∨ s = 1 := by decide
  simp only [lsb_eq_decide, flipped]
  rcases isBit with rfl | rfl <;> rcases cases_select (select zero) with low | low <;>
    rw [low] <;> decide

/-- Decoding labels and select bits that are indexed alike works entry by entry. -/
theorem decodeOutputs_map {α : Type} {gr : GarbleResult} (entries : List α) (label : α → Block)
    (decode : α → UInt8) (outDecode : gr.outDecode = entries.map decode) :
    decodeOutputs gr (entries.map label) =
      .ok (entries.map fun entry => (if lsb (label entry) then 1 else 0) ^^^ decode entry) := by
  have indexed : (entries.map fun entry => (if lsb (label entry) then 1 else 0) ^^^ decode entry) =
      (entries.map label).zipIdx.map fun position =>
        (if lsb position.1 then 1 else 0) ^^^ gr.outDecode.getD position.2 0 := by
    apply List.ext_getElem
    · simp
    · intro i first second
      simp only [List.length_map] at first
      simp [outDecode, first]
  rw [indexed]
  apply Outcome.mapM_eq_map
  rintro ⟨outLabel, i⟩ member
  obtain ⟨-, inside, -⟩ := List.mem_zipIdx member
  have bounded : i < gr.outDecode.length := by simpa [outDecode] using inside
  have decoded := readAt_getD (0 : UInt8) bounded
  simp only [decoded, Outcome.ok_bind]

/-- A garbling run's outputs decode to the plain outputs. -/
theorem GarbleSpec.decode {rng : Rng} {gr : GarbleResult} (wf : c.WellFormed)
    (spec : GarbleSpec sha256 aes c mmoKey rng gr) {bits : List UInt8} (input : InputBits c bits)
    {labels : List Block} (activeInputs : ActiveInputs c gr bits labels) :
    ∃ outs out, evalCircuitLabels c aes gr labels = .ok outs ∧ evalCircuitPlain c bits = .ok out ∧
      decodeOutputs gr outs = .ok out := by
  have odd : select gr.delta = 1 := by rw [spec.delta, select_makeDelta]
  obtain ⟨w, active, plainRan, activeRan, plainLength, activeLength, isBit, label⟩ :=
    spec.wires wf input activeInputs
  have plainOuts := readOutputs_eq wf plainLength (0 : UInt8)
  have activeOuts := readOutputs_eq wf activeLength (0 : Block)
  refine ⟨_, _, by rw [evalCircuitLabels, activeRan, Outcome.ok_bind, activeOuts],
    by rw [evalCircuitPlain, plainRan, Outcome.ok_bind, plainOuts], ?_⟩
  rw [decodeOutputs_map _ _ _ spec.outDecode]
  have entry : ∀ wire : UInt32, (if lsb (active.getD wire.toNat 0) then 1 else 0 : UInt8) ^^^
      (if lsb (gr.wire0.getD wire.toNat 0) then 1 else 0) = w.getD wire.toNat 0 := by
    intro wire
    rw [label]
    exact decode_labelForBit odd (isBit wire.toNat)
  simp only [entry]

/-! ## Evaluation of arbitrary tables -/

/-- Evaluation finishes on any labels and any tables, if there are enough of
them; no garbler needs to have made them. -/
theorem evalCircuitLabels_total (aes : Block → Block) (wf : c.WellFormed) (gr : GarbleResult)
    {labels : List Block} (length : labels.length = c.inputs)
    (supplied : c.andGates ≤ gr.tables.length) :
    ∃ outs, evalCircuitLabels c aes gr labels = .ok outs ∧ outs.length = c.nOutput.toNat := by
  have odd := select_makeDelta (Stream'.const 0)
  have enough : 0 + c.gates.countP (·.type = .and) ≤ gr.tables.length := by
    rw [Nat.zero_add]
    exact supplied
  obtain ⟨active, ran, final⟩ := activeGates_simulate aes odd c.gates wf.gates
    (activeStart_related wf length) enough
  have load : storeFront (List.replicate c.nWires.toNat 0) labels =
      .ok (initialWires c.nWires.toNat labels) :=
    storeFront_of_le (by simpa [length] using wf.inputs)
  have wires : activeWires c aes gr labels = .ok active.1 := by
    rw [activeWires, if_neg (by simp [length, wf.inputs_toNat]), load, Outcome.ok_bind, ran]
    rfl
  refine ⟨_, by rw [evalCircuitLabels, wires, Outcome.ok_bind, readOutputs_eq wf final.length 0], ?_⟩
  rw [List.length_map, wf.outputs]

/-- An evaluator gate counts itself when it is an AND gate. -/
theorem activeGate_counts {aes : Block → Block} {tables : List AndGateTable}
    {state next : List Block × Nat} {g : Gate} (ran : activeGate aes tables state g = .ok next) :
    next.2 = state.2 + if g.type = .and then 1 else 0 := by
  obtain ⟨w, andId⟩ := state
  obtain ⟨type, in0, in1, out⟩ := g
  cases type with
  | xor =>
    obtain ⟨x, -, ran⟩ := Outcome.bind_eq_ok.mp ran
    obtain ⟨y, -, ran⟩ := Outcome.bind_eq_ok.mp ran
    obtain ⟨written, -, ran⟩ := Outcome.bind_eq_ok.mp ran
    cases ran
    rfl
  | inv =>
    obtain ⟨x, -, ran⟩ := Outcome.bind_eq_ok.mp ran
    obtain ⟨written, -, ran⟩ := Outcome.bind_eq_ok.mp ran
    cases ran
    rfl
  | and =>
    obtain ⟨t, -, ran⟩ := Outcome.bind_eq_ok.mp ran
    obtain ⟨wa, -, ran⟩ := Outcome.bind_eq_ok.mp ran
    obtain ⟨wb, -, ran⟩ := Outcome.bind_eq_ok.mp ran
    obtain ⟨written, -, ran⟩ := Outcome.bind_eq_ok.mp ran
    cases ran
    rfl

/-- The tables behind the last AND gate are not read. -/
private theorem activeGates_take (aes : Block → Block) (tables : List AndGateTable) (count : Nat)
    (gates : List Gate) (state : List Block × Nat)
    (enough : state.2 + gates.countP (·.type = .and) ≤ count) :
    gates.foldlM (activeGate aes (tables.take count)) state =
      gates.foldlM (activeGate aes tables) state := by
  induction gates generalizing state with
  | nil => rfl
  | cons g rest ih =>
    rw [List.countP_cons] at enough
    have same : activeGate aes (tables.take count) state g = activeGate aes tables state g := by
      obtain ⟨w, andId⟩ := state
      unfold activeGate
      cases type : g.type with
      | xor => rfl
      | inv => rfl
      | and =>
        simp only [type, decide_true, if_true] at enough
        have kept : readAt (tables.take count) andId = readAt tables andId := by
          rw [readAt, List.getElem?_take_of_lt (by omega)]
          rfl
        simp only [kept]
    rw [List.foldlM_cons, List.foldlM_cons, same]
    cases ran : activeGate aes tables state g with
    | error fault => rfl
    | ok next =>
      apply ih
      rw [activeGate_counts ran]
      simp only [decide_eq_true_eq] at enough
      omega

/-- The evaluator reads one table for each AND gate and no others. -/
theorem evalCircuitLabels_take (c : Circuit) (aes : Block → Block) (gr : GarbleResult)
    (labels : List Block) :
    evalCircuitLabels c aes { gr with tables := gr.tables.take c.andGates } labels =
      evalCircuitLabels c aes gr labels := by
  unfold evalCircuitLabels activeWires
  have bounded : 0 + c.gates.countP (·.type = .and) ≤ c.andGates := by
    rw [Nat.zero_add]
    exact Nat.le_refl _
  have same := fun w => activeGates_take aes gr.tables c.andGates c.gates (w, 0) bounded
  simp only [same]

/-! ## A small datapath -/

/-- One AND gate beside 128 wires that go straight to the outputs. -/
def passThrough : Circuit where
  nGates := 1
  nWires := 257
  nInput0 := 128
  nInput1 := 128
  nOutput := 128
  nAnd := 1
  gates := [⟨.and, 0, 128, 256⟩]
  outputWires := (List.range 128).map fun i => UInt32.ofNat (128 + i)
  gates_size := by norm_num

/-- It takes 128 key bits and 128 input bits to 128 outputs. -/
theorem passThrough_datapath : Datapath passThrough where
  wf := {
    inputs := by decide
    gates := by
      intro g member
      rw [List.mem_singleton.mp member]
      constructor <;> decide
    outputs := by
      rw [passThrough, List.length_map, List.length_range]
      rfl
    output := by
      intro wire member
      obtain ⟨i, inside, rfl⟩ := List.mem_map.mp member
      have bound := List.mem_range.mp inside
      rw [UInt32.toNat_ofNat_of_lt' (lt_trans (show 128 + i < 256 by omega) (by norm_num))]
      change 128 + i < 257
      omega }
  key := rfl
  input := rfl
  output := rfl

/-- Its output is its second input. -/
theorem passThrough_computes : Computes passThrough fun _ x => x := by
  intro k x
  let bits := blockToBits128 k ++ blockToBits128 x
  have length : bits.length = 256 := by simp [bits]
  have masked : bits.map (· &&& 1) = bits := by
    conv_rhs => rw [← List.map_id bits]
    apply List.map_congr_left
    intro bit member
    have isBit : bit = 0 ∨ bit = 1 := by
      rcases List.mem_append.mp member with key | input
      · exact isBit_blockToBits128 k bit key
      · exact isBit_blockToBits128 x bit input
    rcases isBit with rfl | rfl <;> rfl
  have load : storeFront (List.replicate 257 0) (bits.map (· &&& 1)) = .ok (bits ++ [0]) := by
    rw [masked, storeFront_of_le (by rw [List.length_replicate, length]; omega), length]
    rfl
  have wires : plainWires passThrough bits =
      .ok ((bits ++ [0]).set 256 ((bits ++ [0]).getD 0 0 &&& (bits ++ [0]).getD 128 0)) := by
    have read0 := readAt_getD (0 : UInt8) (show 0 < (bits ++ [0]).length by simp)
    have read1 := readAt_getD (0 : UInt8) (show 128 < (bits ++ [0]).length by simp [length])
    have write := fun value : UInt8 =>
      writeAt_of_lt value (show 256 < (bits ++ [0]).length by simp [length])
    rw [plainWires, if_neg (by rw [length]; decide)]
    change (storeFront (List.replicate 257 0) (bits.map (· &&& 1)) >>= _) = _
    rw [load, Outcome.ok_bind]
    change (plainGate (bits ++ [0]) ⟨.and, 0, 128, 256⟩ >>= _) = _
    simp only [plainGate, UInt32.reduceToNat, read0, read1, write, Outcome.ok_bind]
    rfl
  have sized : ((bits ++ [0]).set 256
      ((bits ++ [0]).getD 0 0 &&& (bits ++ [0]).getD 128 0)).length = passThrough.nWires.toNat := by
    rw [List.length_set, List.length_append, length]
    rfl
  change evalCircuitPlain passThrough bits = _
  rw [evalCircuitPlain, wires, Outcome.ok_bind, readOutputs_eq passThrough_datapath.wf sized 0]
  refine congrArg Except.ok ?_
  apply List.ext_getElem
  · simp [passThrough]
  · intro i first second
    rw [length_blockToBits128] at second
    have wire : (UInt32.ofNat (128 + i)).toNat = 128 + i :=
      UInt32.toNat_ofNat_of_lt' (lt_trans (show 128 + i < 256 by omega) (by norm_num))
    simp only [passThrough, List.getElem_map, List.getElem_range, wire]
    rw [List.getD_eq_getElem?_getD, List.getElem?_set_ne (by omega),
      List.getElem?_append_left (by omega)]
    simp [bits, List.getElem?_append_right, second]

/-! ## The refinement -/

/-- What a garbling owes the plain interpreter: on the active labels of any
input bits the evaluator finishes with the label of the plain bit on every
wire, and its outputs decode to the plain outputs. -/
def RefinesPlain (aes : Block → Block) (c : Circuit) (gr : GarbleResult) : Prop :=
  ∀ b labels, InputBits c b → ActiveInputs c gr b labels →
    ∃ w active out outs,
      plainWires c b = .ok w ∧ activeWires c aes gr labels = .ok active ∧
      w.length = c.nWires.toNat ∧ active.length = c.nWires.toNat ∧
      (∀ wire, wire < c.nWires.toNat → active.getD wire 0 =
        labelForBit (gr.wire0.getD wire 0) gr.delta (w.getD wire 0)) ∧
      evalCircuitPlain c b = .ok out ∧ evalCircuitLabels c aes gr labels = .ok outs ∧
      decodeOutputs gr outs = .ok out

/-- A garbling that meets the specification refines the plaintext interpreter. -/
theorem GarbleSpec.refinesPlain {rng : Rng} {gr : GarbleResult} (wf : c.WellFormed)
    (spec : GarbleSpec sha256 aes c mmoKey rng gr) : RefinesPlain aes c gr := by
  intro b labels input activeInputs
  obtain ⟨w, active, plainRan, activeRan, plainLength, activeLength, -, label⟩ :=
    spec.wires wf input activeInputs
  obtain ⟨outs, out, labelsRan, bitsRan, decoded⟩ := spec.decode wf input activeInputs
  exact ⟨w, active, out, outs, plainRan, activeRan, plainLength, activeLength,
    fun wire _ => label wire, bitsRan, labelsRan, decoded⟩

/-- Every well-formed circuit garbles, and its garbling refines plain
evaluation, whatever the block function and the random stream. -/
theorem garbled_evaluation_refines_plain (sha256 : List UInt8 → Digest) (aes : Block → Block)
    (c : Circuit) (wf : c.WellFormed) (mmoKey : Block) (rng : Rng) :
    ∃ gr rng', garbleCircuit sha256 c mmoKey aes rng = .ok (gr, rng') ∧
      RefinesPlain aes c gr := by
  obtain ⟨gr, rng', ran, spec⟩ := garbleCircuit_spec sha256 aes mmoKey wf rng
  exact ⟨gr, rng', ran, spec.refinesPlain wf⟩

/-- One gate of each kind; the last one assigns a wire again. -/
def sampleCircuit : Circuit where
  nGates := 3
  nWires := 4
  nInput0 := 1
  nInput1 := 1
  nOutput := 1
  nAnd := 1
  nXor := 1
  gates := [⟨.and, 0, 1, 2⟩, ⟨.xor, 2, 0, 3⟩, ⟨.inv, 3, 3, 2⟩]
  outputWires := [2]
  gates_size := by norm_num

/-- The sample circuit is well formed. -/
theorem sampleCircuit_wellFormed : sampleCircuit.WellFormed where
  inputs := by decide
  gates := by
    intro g member
    simp only [sampleCircuit, List.mem_cons, List.not_mem_nil, or_false] at member
    rcases member with rfl | rfl | rfl <;> constructor <;> decide
  outputs := rfl
  output := by simp [sampleCircuit]

/-- The refinement for one garbling with a gate of each kind. -/
theorem sampleCircuit_refines_plain :
    ∃ gr rng', garbleCircuit Sha256.hash sampleCircuit 0 (fixedKeyAes 0) (Stream'.const 0) =
        .ok (gr, rng') ∧ RefinesPlain (fixedKeyAes 0) sampleCircuit gr :=
  garbled_evaluation_refines_plain Sha256.hash (fixedKeyAes 0) sampleCircuit
    sampleCircuit_wellFormed 0 (Stream'.const 0)

end SimpleOprf.GcMmo
