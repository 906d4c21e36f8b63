import SimpleOprf.GcMmo.Printing
import SimpleOprf.GcMmo.WireBounds

/-!
# What a loaded circuit guarantees

The loader checks the two bundle counts, the arity and the name of every gate
and the number of gates. It compares no index with the number of wires, so that
a loaded circuit is safe to run exactly when its file keeps the ranges.

`Circuit.Loaded` is what is guaranteed of every file that is accepted. A file
of one gate that breaks every range is accepted too.
-/

namespace SimpleOprf.GcMmo

open SimpleOprf.Basis SimpleOprf.Basis.Outcome

/-! ## What the loader establishes -/

/-- A line is passed over, refused, or read as one gate. -/
theorem addLine_cases {c next : Netlist} {line : List Char} (added : c.addLine line = .ok next) :
    next = c ∨ ∃ g : Gate, (g.type = .inv → g.in1 = g.in0) ∧ next = c.push g := by
  rw [Netlist.addLine] at added
  by_cases skipped : line = [] ∨ line.head? = some '#'
  · rw [if_pos skipped] at added
    cases added
    exact .inl rfl
  · rw [if_neg skipped] at added
    rcases arity : readArity { rest := line } with ⟨⟨ninG, noutG⟩, ss⟩
    rw [arity] at added
    dsimp only at added
    split_ifs at added
    · cases added
      exact .inl rfl
    · rw [Netlist.addBinary] at added
      split_ifs at added
      · cases added
        refine .inr ⟨_, ?_, rfl⟩
        rintro ⟨⟩
      · cases added
        refine .inr ⟨_, ?_, rfl⟩
        rintro ⟨⟩
    · rw [Netlist.addUnary] at added
      split_ifs at added
      cases added
      exact .inr ⟨_, fun _ => rfl, rfl⟩

/-- The line loop appends gates, in the order of their lines. -/
theorem foldlM_addLine {lines : List (List Char)} {c final : Netlist}
    (ran : lines.foldlM Netlist.addLine c = .ok final) :
    ∃ gates : List Gate, (∀ g ∈ gates, g.type = .inv → g.in1 = g.in0) ∧
      final = gates.foldl Netlist.push c := by
  induction lines generalizing c with
  | nil =>
    cases ran
    exact ⟨[], by simp, rfl⟩
  | cons line rest ih =>
    rw [List.foldlM_cons] at ran
    obtain ⟨next, added, ran⟩ := Outcome.bind_eq_ok.mp ran
    obtain ⟨gates, unary, rfl⟩ := ih ran
    rcases addLine_cases added with rfl | ⟨g, here, rfl⟩
    · exact ⟨gates, unary, rfl⟩
    · exact ⟨g :: gates, List.forall_mem_cons.mpr ⟨here, unary⟩, rfl⟩

/-- What the loader guarantees of every circuit it returns. -/
structure Circuit.Loaded (c : Circuit) : Prop where
  counted : c.gates.length = c.nGates.toNat
  ands : c.nAnd = UInt64.ofNat (c.gates.countP (·.type = .and))
  xors : c.nXor = UInt64.ofNat (c.gates.countP (·.type ≠ .and))
  unary : ∀ g ∈ c.gates, g.type = .inv → g.in1 = g.in0
  outputs : c.outputWires = lastWires c.nWires c.nOutput

/-- What the loader returns has its counters and output wires. -/
theorem loaded_of_loadBristol {path : String} {file : Option (List Char)} {c : Circuit}
    (loaded : loadBristol path file = .ok c) : c.Loaded := by
  cases file with
  | none => cases loaded
  | some text =>
    rw [loadBristol] at loaded
    rcases counts : readCounts { rest := text } with ⟨h, input⟩
    rcases behind : Extract.getline input with ⟨line, body⟩
    rw [counts] at loaded
    dsimp only at loaded
    rw [behind] at loaded
    dsimp only at loaded
    split at loaded
    · cases loaded
    · split at loaded
      · cases loaded
      · split at loaded
        · obtain ⟨netlist, ran, loaded⟩ := Outcome.bind_eq_ok.mp loaded
          obtain ⟨gates, unary, rfl⟩ := foldlM_addLine ran
          rw [foldl_push] at loaded
          split_ifs at loaded with counted outputs
          cases loaded
          exact ⟨counted, by simp, by simp, by simpa using unary, rfl⟩
        · cases loaded

/-- It has as many output wires as it says. -/
theorem Circuit.Loaded.outputs_length {c : Circuit} (loaded : c.Loaded) :
    c.outputWires.length = c.nOutput.toNat := by
  rw [loaded.outputs, lastWires, List.length_map, List.length_range]

/-! ## What it leaves to the file -/

/-- The ranges that the interpreters rely on. -/
structure Circuit.InRange (c : Circuit) : Prop where
  inputs : c.inputs ≤ c.nWires.toNat
  gates : ∀ g ∈ c.gates, g.in0.toNat < c.nWires.toNat ∧ g.in1.toNat < c.nWires.toNat ∧
    g.out.toNat < c.nWires.toNat
  outputs : ∀ wire ∈ c.outputWires, wire.toNat < c.nWires.toNat

/-- No interpreter makes an access outside its vectors, whatever it is given;
the evaluator is given a table for every AND gate. -/
structure Circuit.StaysInside (c : Circuit) : Prop where
  plain : ∀ inBits, InBounds (evalCircuitPlain c inBits)
  garble : ∀ sha256 mmoKey aes rng, InBounds (garbleCircuit sha256 c mmoKey aes rng)
  labels : ∀ aes gr labels, c.andGates ≤ gr.tables.length →
    InBounds (evalCircuitLabels c aes gr labels)

/-- Indices in range keep the wire accesses inside. -/
theorem Circuit.InRange.bounded {c : Circuit} (range : c.InRange) : c.Bounded where
  inputs := by
    have fits := range.inputs
    have wires := c.nWires.toNat_lt
    rw [Circuit.inputs] at fits
    rw [UInt64.toNat_add]
    omega
  gates g member := ⟨(range.gates g member).1, fun _ => (range.gates g member).2.1,
    (range.gates g member).2.2⟩
  outputs := range.outputs

/-- So no interpreter leaves its wires. -/
theorem Circuit.InRange.staysInside {c : Circuit} (range : c.InRange)
    (sized : c.outputWires.length = c.nOutput.toNat) : c.StaysInside where
  plain inBits := by
    by_cases accepted : inBits.length = (c.nInput0 + c.nInput1).toNat
    · exact (evalCircuitPlain_inBounds sized accepted).mpr range.bounded
    · rw [evalCircuitPlain, plainWires, if_pos accepted]
      exact inBounds_thrown _
  garble sha256 mmoKey aes rng := (garbleCircuit_inBounds sized).mpr ⟨range.bounded, range.inputs⟩
  labels aes gr labels supplied := by
    by_cases accepted : labels.length = (c.nInput0 + c.nInput1).toNat
    · exact (evalCircuitLabels_inBounds sized accepted).mpr ⟨range.bounded, supplied⟩
    · rw [evalCircuitLabels, activeWires, if_pos accepted]
      exact inBounds_thrown _

/-- The garbler alone visits every wire index of a circuit. -/
theorem Circuit.StaysInside.inRange {c : Circuit} (inside : c.StaysInside) (loaded : c.Loaded) :
    c.InRange := by
  have garbled := inside.garble (fun _ => Vector.replicate 32 0) 0 id (Stream'.const 0)
  obtain ⟨bounded, inputs⟩ := (garbleCircuit_inBounds loaded.outputs_length).mp garbled
  refine ⟨inputs, fun g member => ?_, bounded.outputs⟩
  have range := bounded.gates g member
  refine ⟨range.in0, ?_, range.out⟩
  by_cases isInv : g.type = .inv
  · rw [loaded.unary g member isInv]
    exact range.in0
  · exact range.in1 isInv

/-- Output wires exist when there are enough wires and 32 bits number them. -/
theorem Circuit.Loaded.outputs_lt {c : Circuit} (loaded : c.Loaded)
    (enough : c.nOutput.toNat ≤ c.nWires.toNat) (numbered : c.nWires.toNat ≤ 2 ^ 32) :
    ∀ wire ∈ c.outputWires, wire.toNat < c.nWires.toNat := by
  intro wire member
  have last := lastWires_toNat enough fun i inside => by omega
  rw [← loaded.outputs] at last
  have listed : wire.toNat ∈ c.outputWires.map UInt32.toNat := List.mem_map_of_mem member
  rw [last] at listed
  obtain ⟨i, inside, same⟩ := List.mem_map.mp listed
  have bounded := List.mem_range.mp inside
  omega

/-- A loaded circuit has the gates, counters and output wires that its file
lists; its interpreters stay inside their wire vectors when the indices are in
range and, with vectors that memory can hold, only then. -/
theorem loaded_circuit_safe_iff (path : String) (file : Option (List Char)) (c : Circuit)
    (loaded : loadBristol path file = .ok c) :
    c.Loaded ∧ (c.InRange → c.StaysInside) ∧
      (16 * c.nWires.toNat < 2 ^ 63 → 32 * c.nInput1.toNat < 2 ^ 63 →
        c.StaysInside → c.InRange) ∧
      (c.nOutput.toNat ≤ c.nWires.toNat → c.nWires.toNat ≤ 2 ^ 32 →
        ∀ wire ∈ c.outputWires, wire.toNat < c.nWires.toNat) := by
  have guaranteed := loaded_of_loadBristol loaded
  refine ⟨guaranteed, fun range => range.staysInside guaranteed.outputs_length,
    fun _ _ inside => inside.inRange guaranteed, guaranteed.outputs_lt⟩

/-- More inputs and more outputs than its one wire, and an AND gate from wires
that nothing writes onto an input. -/
def strayCircuit : Circuit where
  nGates := 1
  nWires := 1
  nInput0 := 2
  nInput1 := 0
  nOutput := 2
  nAnd := 1
  nXor := 0
  gates := [{ type := .and, in0 := 5, in1 := 6, out := 0 }]
  outputWires := [4294967295, 0]
  gates_size := by decide

/-- Its file: `1 1`, `2 2 0`, `1 2` and the gate line `2 1 5 6 0 AND`. -/
def strayText : List Char := bristolText strayCircuit (strayCircuit.gates.map gateLine)

/-- The loader accepts the file. -/
private theorem strayText_loads : loadBristol "stray.txt" (some strayText) = .ok strayCircuit :=
  loadBristol_text "stray.txt" strayCircuit (.gate _ .nil) (by decide) (by decide)

/-- The AND gate reads a wire that does not exist. -/
private theorem strayCircuit_not_inRange : ¬ strayCircuit.InRange := by
  intro range
  exact absurd (range.gates _ List.mem_cons_self).1 (by decide)

/-- A run on the stray circuit leaves its wires, and none on three gates in range. -/
theorem stray_leaves_and_three_stay : strayCircuit.Loaded ∧ ¬ strayCircuit.StaysInside ∧
    threeGates.StaysInside := by
  obtain ⟨guaranteed, -, needed, -⟩ :=
    loaded_circuit_safe_iff "stray.txt" (some strayText) strayCircuit strayText_loads
  have threeLoads : loadBristol "three.txt"
      (some (bristolText threeGates (threeGates.gates.map gateLine))) = .ok threeGates :=
    loadBristol_text "three.txt" threeGates (.gate _ (.gate _ (.gate _ .nil))) (by decide)
      (by decide)
  obtain ⟨-, enough, -, -⟩ := loaded_circuit_safe_iff "three.txt" _ threeGates threeLoads
  have wiresFit : 16 * strayCircuit.nWires.toNat < 2 ^ 63 := by decide
  have pairsFit : 32 * strayCircuit.nInput1.toNat < 2 ^ 63 := by decide
  have outputs : ∀ wire ∈ threeGates.outputWires, wire.toNat < threeGates.nWires.toNat := by
    intro wire member
    rw [List.mem_singleton.mp member]
    decide
  exact ⟨guaranteed, fun inside => strayCircuit_not_inRange (needed wiresFit pairsFit inside),
    enough ⟨by decide, by decide, outputs⟩⟩

/-- Everything one could want of a loaded circuit. -/
structure Circuit.SafeToRun (c : Circuit) : Prop extends c.InRange, c.StaysInside where
  outputCount : c.nOutput.toNat ≤ c.nWires.toNat
  inputsKept : ∀ g ∈ c.gates, c.inputs ≤ g.out.toNat
  ordered : ∀ (i : Nat) (g : Gate), c.gates[i]? = some g → ∀ wire ∈ [g.in0, g.in1],
    wire.toNat < c.inputs ∨
      ∃ (j : Nat) (earlier : Gate), j < i ∧ c.gates[j]? = some earlier ∧ earlier.out = wire

/-- The loader returns a circuit that breaks every range. -/
theorem loader_accepts_stray_circuit :
    (¬ ∀ path text c, loadBristol path (some text) = .ok c → c.SafeToRun) ∧
      loadBristol "stray.txt" (some strayText) = .ok strayCircuit ∧
      ¬ strayCircuit.inputs ≤ strayCircuit.nWires.toNat ∧
      ¬ strayCircuit.nOutput.toNat ≤ strayCircuit.nWires.toNat ∧
      (∃ wire ∈ strayCircuit.outputWires, ¬ wire.toNat < strayCircuit.nWires.toNat) ∧
      ∃ g ∈ strayCircuit.gates, ¬ g.in0.toNat < strayCircuit.nWires.toNat ∧
        ¬ strayCircuit.inputs ≤ g.out.toNat ∧ ¬ g.in0.toNat < strayCircuit.inputs ∧
        strayCircuit.gates[0]? = some g := by
  refine ⟨fun safe => ?_, strayText_loads, by decide, by decide,
    ⟨4294967295, List.mem_cons_self, by decide⟩, _, List.mem_cons_self, by decide, by decide,
    by decide, rfl⟩
  exact strayCircuit_not_inRange (safe "stray.txt" strayText strayCircuit strayText_loads).toInRange

end SimpleOprf.GcMmo
