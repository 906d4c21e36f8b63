import SimpleOprf.StarkGarble.Prove
import SimpleOprf.StarkGarble.Soundness

/-!
# The trace of an accepted witness

`build_trace` lays an accepted witness out so that the constraints hold and the
columns give the gates back.

The number of rows is the next power of two, at least four, and the rows past
the last gate repeat its last bit.
-/

namespace SimpleOprf.StarkGarble

open SimpleOprf.Basis SimpleOprf.GcMmo

variable {p : Primitives} {w : Witness}

/-- A row of the table is the row that the loop writes. -/
theorem row_traceTable {i : Nat} (inside : i < (traceTable p w).rows.length) :
    (traceTable p w).row i = traceRow w (bindingToField (bindingHash p w)) i := by
  have bound : i < nextPow2 (max (w.nAnd.toNat * 128) 4) := by
    simpa [traceTable] using inside
  simp [TraceTable.row, traceTable, List.getD_eq_getElem?_getD, bound]

/-- There is a row for every bit of every gate. -/
theorem rows_traceTable : 128 * w.nAnd.toNat ≤ (traceTable p w).rows.length := by
  have enough := le_nextPow2 (max (w.nAnd.toNat * 128) 4)
  have larger := Nat.le_max_left (w.nAnd.toNat * 128) 4
  simp only [traceTable, List.length_map, List.length_range]
  omega

/-- Every row shows one bit of one gate: past the end the last bit of the last
gate again. -/
theorem traceRow_encodes (bind : Vector E 4) (i : Nat) :
    ∃ g b, b < 128 ∧ (0 < w.nAnd.toNat → g < w.nAnd.toNat) ∧
      (i < w.nAnd.toNat * 128 → g = i / 128 ∧ b = i % 128) ∧
      RowEncodes (traceRow w bind i) w.delta (w.gates.getD g default) b ∧
      (traceRow w bind i).get 0 = ofByte (w.gates.getD g default).pa ∧
      (traceRow w bind i).get 6 = ofByte ((w.gates.getD g default).pb &&& getBit w.delta b) := by
  by_cases real : i < w.nAnd.toNat * 128
  · have clamp : min (i / 128) (w.nAnd.toNat - 1) = i / 128 := by omega
    refine ⟨i / 128, i % 128, by omega, fun _ => by omega, fun _ => ⟨rfl, rfl⟩, ?_⟩
    unfold traceRow
    simp only [real, if_true, clamp]
    exact ⟨⟨rfl, rfl, rfl, rfl, rfl, rfl, rfl, rfl, rfl⟩, rfl, rfl⟩
  · have clamp : min (w.nAnd.toNat - 1) (w.nAnd.toNat - 1) = w.nAnd.toNat - 1 := Nat.min_self _
    refine ⟨w.nAnd.toNat - 1, 127, by omega, fun _ => by omega, fun padded => absurd padded real, ?_⟩
    unfold traceRow
    simp only [real, if_false, clamp]
    exact ⟨⟨rfl, rfl, rfl, rfl, rfl, rfl, rfl, rfl, rfl⟩, rfl, rfl⟩

/-- A gate below the count is one of the witness. -/
private theorem gate_mem {g : Nat} (counted : w.gates.length = w.nAnd.toNat)
    (inside : g < w.nAnd.toNat) : w.gates.getD g default ∈ w.gates := by
  rw [List.getD_eq_getElem _ _ (by rwa [counted])]
  exact List.getElem_mem _

/-- Every row of the trace of an accepted witness with a gate, the padding
included, satisfies the constraints. -/
theorem transition_traceTable (counted : w.gates.length = w.nAnd.toNat) (gates : 0 < w.nAnd.toNat)
    (accepted : checkHalfGates w = .ok ()) {i : Nat} (inside : i < (traceTable p w).rows.length) :
    evaluateTransition ((traceTable p w).row i) = Vector.replicate 15 0 := by
  rw [row_traceTable inside, evaluateTransition_eq_zero]
  obtain ⟨g, b, bit, within, -, row, pa, pbd⟩ :=
    traceRow_encodes (bindingToField (bindingHash p w)) i
  have holds := checkHalfGates_eq_ok.mp accepted _ (gate_mem counted (within gates))
  have paBit := (le_one_iff _).mp holds.pa
  have pbBit := (le_one_iff _).mp holds.pb
  refine ⟨?_, ?_, row.gateColumns holds.pb (holds.bits b bit)⟩
  · change IsBit ((traceRow w _ i).get 0)
    rw [pa]
    exact isBit_ofByte paBit
  · change (traceRow w _ i).get 6 = _
    rw [pbd, row.pb, row.d]
    rcases pbBit with zero | one
    · rw [zero, UInt8.zero_and, ofByte_zero, zero_mul]
    · rw [one, ofByte_one, one_mul]
      rcases isBit_getBit w.delta b with low | low <;> rw [low] <;> rfl

/-- The trace of an accepted witness with a gate satisfies the constraints. -/
theorem satisfies_traceTable (counted : w.gates.length = w.nAnd.toNat) (gates : 0 < w.nAnd.toNat)
    (accepted : checkHalfGates w = .ok ()) :
    Satisfies (publicInputs p w) (traceTable p w) where
  transition i checked := transition_traceTable counted gates accepted (by omega)
  boundary a member := by
    have long := (traceTable p w).long
    simp only [getAssertions, List.mem_cons, List.not_mem_nil, or_false] at member
    rcases member with rfl | rfl | rfl | rfl <;>
      · dsimp only
        rw [row_traceTable (by omega)]
        rfl

/-- The trace of an accepted witness encodes that witness. -/
theorem encodes_traceTable (counted : w.gates.length = w.nAnd.toNat)
    (accepted : checkHalfGates w = .ok ()) : Encodes (publicInputs p w) (traceTable p w) w where
  nAnd := rfl
  gates := counted
  accepted := accepted
  row g b gate bit := by
    change g < w.nAnd.toNat at gate
    have inside : 128 * g + b < w.nAnd.toNat * 128 := by omega
    have enough : 128 * w.nAnd.toNat ≤ (traceTable p w).rows.length := rows_traceTable
    rw [row_traceTable (by omega)]
    obtain ⟨g', b', -, -, real, row, -, -⟩ :=
      traceRow_encodes (bindingToField (bindingHash p w)) (128 * g + b)
    obtain ⟨rfl, rfl⟩ := real inside
    have quotient : (128 * g + b) / 128 = g := by omega
    have remainder : (128 * g + b) % 128 = b := by omega
    rw [quotient, remainder] at row
    exact row

/-! ## The tables in the columns -/

/-- The table pair of one gate. -/
def GateWit.table (g : GateWit) : AndGateTable := ⟨g.tg, g.te⟩

/-- The tables encoded in the `tg` and `te` columns. -/
def columnTables (pub : PublicInputs) (trace : TraceTable) : List AndGateTable :=
  (List.range pub.nAnd.toNat).map fun g => ⟨columnBlock trace 5 g, columnBlock trace 10 g⟩

/-- The columns of a trace that encodes a witness hold the witness's tables. -/
theorem Encodes.columnTables_eq {pub : PublicInputs} {trace : TraceTable} {w : Witness}
    (encodes : Encodes pub trace w) : columnTables pub trace = w.gates.map GateWit.table := by
  apply List.ext_getElem
  · simp [columnTables, encodes.gates]
  · intro g first second
    have gate : g < pub.nAnd.toNat := by simpa [columnTables] using first
    have inside : g < w.gates.length := by rwa [encodes.gates]
    have found : w.gates.getD g default = w.gates[g] := List.getD_eq_getElem _ _ inside
    have column : ∀ (k : Fin 18) (x : Block), (∀ b, b < 128 →
        (trace.row (128 * g + b))[k] = ofByte (getBit x b)) → columnBlock trace k g = x := by
      intro k x carried
      apply ext_getBit
      intro b bit
      rw [getBit_columnBlock trace k g bit, carried b bit, bitOf_ofByte (isBit_getBit x b)]
    simp only [columnTables, List.getElem_map, List.getElem_range, GateWit.table, ← found]
    congr 1
    · exact column 5 _ fun b bit => (encodes.row g b gate bit).tg
    · exact column 10 _ fun b bit => (encodes.row g b gate bit).te

end SimpleOprf.StarkGarble
