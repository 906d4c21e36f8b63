import SimpleOprf.Garbling.Circuit
import SimpleOprf.GcMmo.Garble

/-!
# The interpreters refine the garbling theory

Each of the three loops over a circuit simulates its abstract counterpart: a
wire vector stands for the function that reads it, bytes stand for their low
bits, and a table vector for the list of abstract tables. The simulations also
show that no loop leaves its vectors on a well-formed circuit.

Each relation is a structure with one field for every part of the state, and
each loop has a lemma for one gate and one for all of them.
-/

namespace SimpleOprf.GcMmo

open SimpleOprf.Basis

/-- The operation of a gate. -/
def GateType.abstract : GateType → Garbling.Operation
  | .xor => .xor
  | .and => .and
  | .inv => .inv

/-- A gate with its wires as numbers. -/
def Gate.abstract (g : Gate) : Garbling.Gate :=
  ⟨g.type.abstract, g.in0.toNat, g.in1.toNat, g.out.toNat⟩

/-- The two rows of a table. -/
def AndGateTable.abstract (t : AndGateTable) : Garbling.Table Block := ⟨t.t0, t.t1⟩

/-- The garbling scheme of a block function and a global offset. -/
def scheme (aes : Block → Block) (delta : Block) (odd : select delta = 1) :
    Garbling.Scheme Block where
  generatorHash gate x := mmoHash aes (tweak x gate 0)
  evaluatorHash gate x := mmoHash aes (tweak x gate 1)
  select := select
  delta := delta
  select_delta := odd

variable (aes : Block → Block) {delta : Block} (odd : select delta = 1)

/-- The evaluator's AND rule is the abstract one. -/
theorem evalAndGate_eq (andId : Nat) (t : AndGateTable) (wa wb : Block) :
    evalAndGate aes andId t wa wb = (scheme aes delta odd).evaluate andId t.abstract wa wb := by
  unfold evalAndGate
  simp only [xorBlock_if_lsb]
  rfl

/-- The garbler's AND gate publishes the abstract table and reaches its output
label. -/
theorem halfGate_eq (andId : Nat) (a0 b0 : Block) :
    (AndGateTable.mk (halfGate aes delta andId a0 b0).1.tg
        (halfGate aes delta andId a0 b0).1.te).abstract =
      (scheme aes delta odd).table andId (select b0) a0 b0 ∧
    (halfGate aes delta andId a0 b0).2 = (scheme aes delta odd).outputZero andId
      ((scheme aes delta odd).table andId (select b0) a0 b0) a0 b0 := by
  unfold halfGate
  simp only [xorBlock_if_lsb]
  exact ⟨rfl, rfl⟩

/-! ## Plain evaluation -/

/-- A wire vector of bits and the bit function it stands for. -/
structure PlainRelated (wires : Nat) (w : List UInt8) (bits : Nat → ZMod 2) : Prop where
  length : w.length = wires
  view : ∀ i, parity (w.getD i 0) = bits i
  isBit : ∀ x ∈ w, x = 0 ∨ x = 1

/-- Writing a bit keeps the relation, with the bit function updated. -/
theorem PlainRelated.set {wires : Nat} {w : List UInt8} {bits : Nat → ZMod 2}
    (related : PlainRelated wires w bits) {out : Nat} (inside : out < wires) {value : UInt8}
    (isBit : value = 0 ∨ value = 1) :
    PlainRelated wires (w.set out value) (Function.update bits out (parity value)) where
  length := by rw [List.length_set, related.length]
  view i := by
    rw [getD_set value 0 (by rwa [related.length]) i]
    by_cases same : i = out
    · simp [same]
    · simpa [same] using related.view i
  isBit x member := by
    rcases List.mem_or_eq_of_mem_set member with kept | rfl
    · exact related.isBit x kept
    · exact isBit

/-- A plaintext gate simulates the abstract one. -/
theorem plainGate_simulates {inputs wires : Nat} {w : List UInt8} {bits : Nat → ZMod 2}
    (related : PlainRelated wires w bits) {g : Gate} (bounds : g.InBounds inputs wires) :
    ∃ next, plainGate w g = .ok next ∧
      PlainRelated wires next (Garbling.plainGate bits g.abstract) := by
  obtain ⟨type, in0, in1, out⟩ := g
  have length := related.length
  have read0 := readAt_getD 0 (lt_of_lt_of_eq bounds.in0 length.symm)
  have read1 := readAt_getD 0 (lt_of_lt_of_eq bounds.in1 length.symm)
  have write := fun value => writeAt_of_lt value (lt_of_lt_of_eq bounds.out length.symm)
  have bit0 := isBit_getD related.isBit in0.toNat
  have bit1 := isBit_getD related.isBit in1.toNat
  cases type with
  | xor =>
    have isBit : w.getD in0.toNat 0 ^^^ w.getD in1.toNat 0 = 0 ∨
        w.getD in0.toNat 0 ^^^ w.getD in1.toNat 0 = 1 := by
      rcases bit0 with a | a <;> rcases bit1 with b | b <;> rw [a, b] <;> decide
    refine ⟨_, by simp only [plainGate, read0, read1, write, Outcome.ok_bind]; rfl, ?_⟩
    have kept := related.set bounds.out isBit
    rwa [parity_xor, related.view, related.view] at kept
  | and =>
    have isBit : w.getD in0.toNat 0 &&& w.getD in1.toNat 0 = 0 ∨
        w.getD in0.toNat 0 &&& w.getD in1.toNat 0 = 1 := by
      rcases bit0 with a | a <;> rcases bit1 with b | b <;> rw [a, b] <;> decide
    refine ⟨_, by simp only [plainGate, read0, read1, write, Outcome.ok_bind]; rfl, ?_⟩
    have kept := related.set bounds.out isBit
    rwa [parity_and, related.view, related.view] at kept
  | inv =>
    have isBit : w.getD in0.toNat 0 ^^^ 1 = 0 ∨ w.getD in0.toNat 0 ^^^ 1 = 1 := by
      rcases bit0 with a | a <;> rw [a] <;> decide
    refine ⟨_, by simp only [plainGate, read0, write, Outcome.ok_bind]; rfl, ?_⟩
    have kept := related.set bounds.out isBit
    rw [parity_xor, related.view] at kept
    exact kept

/-- The plain gate loop simulates abstract plain evaluation. -/
theorem plainGates_simulate {inputs wires : Nat} (gates : List Gate)
    (bounds : ∀ g ∈ gates, g.InBounds inputs wires) {w : List UInt8} {bits : Nat → ZMod 2}
    (related : PlainRelated wires w bits) :
    ∃ final, gates.foldlM plainGate w = .ok final ∧
      PlainRelated wires final (Garbling.plain (gates.map Gate.abstract) bits) := by
  rw [Garbling.plain, List.foldl_map]
  refine Outcome.foldlM_simulates (PlainRelated wires) gates ?_ related
  intro _ _ holds g member
  exact plainGate_simulates holds (bounds g member)

/-! ## Garbling -/

/-- The witnesses of a garbling run: each is what `halfGate` computes for its
own gate number and labels, and together they hold the published tables. -/
structure HonestWitnesses (aes : Block → Block) (delta : Block) (tables : List AndGateTable)
    (andWit : List HalfGateWitness) : Prop where
  gate : ∀ i w, andWit[i]? = some w → w = (halfGate aes delta i w.a0 w.b0).1
  tables : andWit.map (fun w => AndGateTable.mk w.tg w.te) = tables

/-- The garbler's vectors and the abstract state they stand for. -/
structure GarbleRelated (aes : Block → Block) (delta : Block) (wires : Nat) (state : GarbleState)
    (abstract : Garbling.Garbled Block) : Prop where
  length : state.wire0.length = wires
  zero : ∀ i, state.wire0.getD i 0 = abstract.zero i
  tables : state.tables.map AndGateTable.abstract = abstract.tables
  andId : state.andId = abstract.tables.length
  honest : HonestWitnesses aes delta state.tables state.andWit

/-- Appending the witness of the next gate keeps the witnesses honest. -/
theorem HonestWitnesses.append {aes : Block → Block} {delta : Block} {tables : List AndGateTable}
    {andWit : List HalfGateWitness} (honest : HonestWitnesses aes delta tables andWit)
    (a0 b0 : Block) :
    let wit := (halfGate aes delta tables.length a0 b0).1
    HonestWitnesses aes delta (tables ++ [⟨wit.tg, wit.te⟩]) (andWit ++ [wit]) where
  gate i w found := by
    have sized : andWit.length = tables.length := by rw [← honest.tables, List.length_map]
    rw [List.getElem?_append] at found
    split at found
    · exact honest.gate i w found
    · have last : i = tables.length := by
        have inside := (List.getElem?_eq_some_iff.mp found).1
        simp only [List.length_singleton] at inside
        omega
      subst last
      simp only [sized, Nat.sub_self, List.getElem?_cons_zero, Option.some.injEq] at found
      subst found
      rfl
  tables := by rw [List.map_append, honest.tables, List.map_singleton]

/-- Reading an updated label vector reads the updated function. -/
theorem getD_set_eq_update {wires : Nat} {w : List Block} {view : Nat → Block}
    (length : w.length = wires) (viewed : ∀ i, w.getD i 0 = view i) {out : Nat}
    (inside : out < wires) (value : Block) (i : Nat) :
    (w.set out value).getD i 0 = Function.update view out value i := by
  rw [getD_set value 0 (by rwa [length]) i]
  by_cases same : i = out
  · simp [same]
  · simpa [same] using viewed i

/-- A garbled gate simulates the abstract one. -/
theorem garbleGate_simulates {inputs wires : Nat} {state : GarbleState}
    {abstract : Garbling.Garbled Block} (related : GarbleRelated aes delta wires state abstract)
    {g : Gate} (bounds : g.InBounds inputs wires) :
    ∃ next, garbleGate aes delta state g = .ok next ∧
      GarbleRelated aes delta wires next ((scheme aes delta odd).garbleGate abstract g.abstract) := by
  obtain ⟨type, in0, in1, out⟩ := g
  obtain ⟨length, zero, tables, andId, honest⟩ := related
  have read0 := readAt_getD 0 (lt_of_lt_of_eq bounds.in0 length.symm)
  have read1 := readAt_getD 0 (lt_of_lt_of_eq bounds.in1 length.symm)
  have write := fun value => writeAt_of_lt value (lt_of_lt_of_eq bounds.out length.symm)
  have written := getD_set_eq_update length zero bounds.out
  cases type with
  | xor =>
    refine ⟨_, by simp only [garbleGate, read0, read1, write, Outcome.ok_bind]; rfl, ?_⟩
    refine ⟨by simpa using length, fun i => ?_, tables, andId, honest⟩
    rw [written, zero, zero]
    rfl
  | inv =>
    refine ⟨_, by simp only [garbleGate, read0, write, Outcome.ok_bind]; rfl, ?_⟩
    refine ⟨by simpa using length, fun i => ?_, tables, andId, honest⟩
    rw [written, zero]
    rfl
  | and =>
    obtain ⟨tableEq, zeroEq⟩ :=
      halfGate_eq aes odd state.andId (state.wire0.getD in0.toNat 0)
        (state.wire0.getD in1.toNat 0)
    refine ⟨_, by simp only [garbleGate, read0, read1, write, Outcome.ok_bind]; rfl, ?_⟩
    refine ⟨by simpa using length, fun i => ?_, ?_, ?_, ?_⟩
    · rw [written, zeroEq, andId, zero, zero]
      rfl
    · rw [List.map_append, tables, List.map_singleton, tableEq, andId, zero, zero]
      rfl
    · simp [Garbling.Scheme.garbleGate, Gate.abstract, GateType.abstract, andId]
    · have numbered : state.andId = state.tables.length := by
        rw [andId, ← tables, List.length_map]
      rw [numbered]
      exact honest.append _ _

/-- The garbler's gate loop simulates abstract garbling. -/
theorem garbleGates_simulate {inputs wires : Nat} (gates : List Gate)
    (bounds : ∀ g ∈ gates, g.InBounds inputs wires) {state : GarbleState}
    {abstract : Garbling.Garbled Block} (related : GarbleRelated aes delta wires state abstract) :
    ∃ final, gates.foldlM (garbleGate aes delta) state = .ok final ∧
      GarbleRelated aes delta wires final
        ((scheme aes delta odd).garble (gates.map Gate.abstract) abstract) := by
  rw [Garbling.Scheme.garble, List.foldl_map]
  refine Outcome.foldlM_simulates (GarbleRelated aes delta wires) gates ?_ related
  intro _ _ holds g member
  exact garbleGate_simulates aes odd holds (bounds g member)

/-! ## Evaluation -/

/-- The evaluator's vector and counter and the abstract state they stand for. -/
structure ActiveRelated (wires : Nat) (state : List Block × Nat)
    (abstract : Garbling.Evaluated Block) : Prop where
  length : state.1.length = wires
  label : ∀ i, state.1.getD i 0 = abstract.label i
  gate : state.2 = abstract.gate

/-- One evaluator gate; an AND gate needs the table its counter names. -/
theorem activeGate_simulates {inputs wires : Nat} {tables : List AndGateTable}
    {state : List Block × Nat} {abstract : Garbling.Evaluated Block}
    (related : ActiveRelated wires state abstract) {g : Gate} (bounds : g.InBounds inputs wires)
    (supplied : g.type = .and → state.2 < tables.length) :
    ∃ next, activeGate aes tables state g = .ok next ∧
      ActiveRelated wires next ((scheme aes delta odd).evaluateGate
        (tables.map AndGateTable.abstract) abstract g.abstract) ∧
      next.2 = state.2 + if g.type = .and then 1 else 0 := by
  obtain ⟨w, andId⟩ := state
  obtain ⟨type, in0, in1, out⟩ := g
  obtain ⟨length, label, gate⟩ := related
  have counter : andId = abstract.gate := gate
  subst counter
  have read0 := readAt_getD 0 (lt_of_lt_of_eq bounds.in0 length.symm)
  have read1 := readAt_getD 0 (lt_of_lt_of_eq bounds.in1 length.symm)
  have write := fun value => writeAt_of_lt value (lt_of_lt_of_eq bounds.out length.symm)
  have written := getD_set_eq_update length label bounds.out
  cases type with
  | xor =>
    refine ⟨_, by simp only [activeGate, read0, read1, write, Outcome.ok_bind]; rfl, ?_, by simp⟩
    refine ⟨by simpa using length, fun i => ?_, gate⟩
    rw [written, label, label]
    rfl
  | inv =>
    refine ⟨_, by simp only [activeGate, read0, write, Outcome.ok_bind]; rfl, ?_, by simp⟩
    refine ⟨by simpa using length, fun i => ?_, gate⟩
    rw [written, label]
    rfl
  | and =>
    have inside := supplied rfl
    have readTable := readAt_of_lt inside
    have found : (tables.map AndGateTable.abstract).getD abstract.gate ⟨0, 0⟩ =
        tables[abstract.gate].abstract := by
      rw [List.getD_eq_getElem?_getD, List.getElem?_map, List.getElem?_eq_getElem inside]
      rfl
    refine ⟨_, by simp only [activeGate, readTable, read0, read1, write, Outcome.ok_bind]; rfl,
      ?_, by simp⟩
    refine ⟨by simpa using length, fun i => ?_, rfl⟩
    rw [written, evalAndGate_eq aes odd, label, label, ← found]
    rfl

/-- The evaluator's gate loop simulates abstract evaluation when there is a
table for every AND gate still to come. -/
theorem activeGates_simulate {inputs wires : Nat} {tables : List AndGateTable}
    (gates : List Gate) (bounds : ∀ g ∈ gates, g.InBounds inputs wires)
    {state : List Block × Nat} {abstract : Garbling.Evaluated Block}
    (related : ActiveRelated wires state abstract)
    (supplied : state.2 + gates.countP (·.type = .and) ≤ tables.length) :
    ∃ final, gates.foldlM (activeGate aes tables) state = .ok final ∧
      ActiveRelated wires final ((scheme aes delta odd).evaluateCircuit
        (tables.map AndGateTable.abstract) (gates.map Gate.abstract) abstract) := by
  induction gates generalizing state abstract with
  | nil => exact ⟨state, rfl, related⟩
  | cons g rest ih =>
    rw [List.countP_cons] at supplied
    have now : g.type = .and → state.2 < tables.length := by
      intro isAnd
      simp only [isAnd, decide_true, if_true] at supplied
      omega
    obtain ⟨next, ran, kept, counted⟩ :=
      activeGate_simulates aes odd related (bounds g List.mem_cons_self) now
    have later : next.2 + rest.countP (·.type = .and) ≤ tables.length := by
      rw [counted]
      simp only [decide_eq_true_eq] at supplied
      omega
    obtain ⟨final, rested, finished⟩ :=
      ih (fun other member => bounds other (List.mem_cons_of_mem _ member)) kept later
    exact ⟨final, by rw [List.foldlM_cons, ran, Outcome.ok_bind, rested], finished⟩

end SimpleOprf.GcMmo
