import SimpleOprf.StarkGarble.Bits
import SimpleOprf.StarkGarble.Air

/-!
# What a satisfying trace encodes

A trace that satisfies the constraints need not come from a garbled circuit: no
constraint ties two rows together, counts the rows, or reads the last one. The
main result says exactly which satisfying traces encode an accepted witness.

`RowsLinked` names what the verifier does not see: that there are enough rows,
that the 128 rows of a gate share one `pb`, that all gates share one offset,
and that the last row is right where it belongs to a gate.
-/

namespace SimpleOprf.StarkGarble

open SimpleOprf.Basis SimpleOprf.GcMmo

/-- The trace holds, row by row, the bits of an accepted witness. -/
structure Encodes (pub : PublicInputs) (trace : TraceTable) (w : Witness) : Prop where
  nAnd : w.nAnd = pub.nAnd
  gates : w.gates.length = pub.nAnd.toNat
  accepted : checkHalfGates w = .ok ()
  row : ∀ g b, g < pub.nAnd.toNat → b < 128 →
    RowEncodes (trace.row (128 * g + b)) w.delta (w.gates.getD g default) b

/-- What a verified proof is meant to show of its trace. -/
def EncodesGarbling (pub : PublicInputs) (trace : TraceTable) : Prop :=
  128 * pub.nAnd.toNat ≤ trace.rows.length ∧ ∃ w, Encodes pub trace w

/-- The facts about a trace that the constraints leave out. -/
structure RowsLinked (pub : PublicInputs) (trace : TraceTable) : Prop where
  count : 128 * pub.nAnd.toNat ≤ trace.rows.length
  pb : ∀ g b, g < pub.nAnd.toNat → b < 128 →
    (trace.row (128 * g + b))[1] = (trace.row (128 * g))[1]
  d : ∀ g b, g < pub.nAnd.toNat → b < 128 → (trace.row (128 * g + b))[4] = (trace.row b)[4]
  last : 128 * pub.nAnd.toNat = trace.rows.length → GateColumns (trace.row (trace.rows.length - 1))

/-- A row that encodes a bit of a gate has gate columns. -/
theorem RowEncodes.gateColumns {cur : Row} {delta : Block} {g : GateWit} {bit : Nat}
    (row : RowEncodes cur delta g bit) (pb : g.pb ≤ 1) (holds : BitHolds delta g bit) :
    GateColumns cur := by
  have pbBit := (le_one_iff g.pb).mp pb
  have value : ∀ (x : Block), bitOf (ofByte (getBit x bit)) = getBit x bit :=
    fun x => bitOf_ofByte (isBit_getBit x bit)
  have boolean : ∀ (x : Block), IsBit (ofByte (getBit x bit)) :=
    fun x => isBit_ofByte (isBit_getBit x bit)
  constructor
  · rw [row.pb]
    exact isBit_ofByte pbBit
  · rw [row.ha0]
    exact boolean _
  · rw [row.ha1]
    exact boolean _
  · rw [row.d]
    exact boolean _
  · rw [row.tg]
    exact boolean _
  · rw [row.hb0]
    exact boolean _
  · rw [row.hb1]
    exact boolean _
  · rw [row.a0]
    exact boolean _
  · rw [row.te]
    exact boolean _
  · rw [row.tg, row.ha0, row.ha1, row.pb, row.d, value, value, value, value, bitOf_ofByte pbBit]
    exact holds.tg
  · rw [row.te, row.hb0, row.hb1, row.a0, value, value, value, value]
    exact holds.te

/-! ## Reading a witness off a trace -/

/-- The block in column `column` of the 128 rows of gate `g`. -/
def columnBlock (trace : TraceTable) (column : Fin 18) (g : Nat) : Block :=
  blockOfBits fun b => bitOf (trace.row (128 * g + b))[column]

/-- The gate in the rows of gate `g`. -/
def traceGate (trace : TraceTable) (g : Nat) : GateWit where
  a0 := columnBlock trace 9 g
  b0 := 0
  tg := columnBlock trace 5 g
  te := columnBlock trace 10 g
  ha0 := columnBlock trace 2 g
  ha1 := columnBlock trace 3 g
  hb0 := columnBlock trace 7 g
  hb1 := columnBlock trace 8 g
  pa := 0
  pb := bitOf ((trace.row (128 * g)).get 1)

/-- The witness in the rows of a trace. -/
def traceWitness (pub : PublicInputs) (trace : TraceTable) : Witness where
  nAnd := pub.nAnd
  cm := []
  gcHash := Vector.replicate 32 0
  rRoot := Vector.replicate 32 0
  outHash := Vector.replicate 32 0
  delta := columnBlock trace 4 0
  gates := (List.range pub.nAnd.toNat).map (traceGate trace)

/-- A bit of a block is the entry of its row. -/
theorem getBit_columnBlock (trace : TraceTable) (column : Fin 18) (g : Nat) {b : Nat}
    (inside : b < 128) :
    getBit (columnBlock trace column g) b = bitOf (trace.row (128 * g + b))[column] :=
  getBit_blockOfBits (fun _ => isBit_bitOf _) inside

variable {pub : PublicInputs} {trace : TraceTable}

/-- Every row of the gates has gate columns: the constraints say so of all but
the last row of the trace. -/
theorem RowsLinked.gateColumns (linked : RowsLinked pub trace) (satisfied : Satisfies pub trace)
    {g b : Nat} (gate : g < pub.nAnd.toNat) (bit : b < 128) :
    GateColumns (trace.row (128 * g + b)) := by
  have count := linked.count
  by_cases checked : 128 * g + b + 1 < trace.rows.length
  · exact (evaluateTransition_eq_zero.mp (satisfied.transition _ checked)).2.2
  · have full : 128 * pub.nAnd.toNat = trace.rows.length := by omega
    have final : 128 * g + b = trace.rows.length - 1 := by omega
    rw [final]
    exact linked.last full

/-- The rows of a gate encode the gate that is read from them. -/
private theorem traceGate_encodes (linked : RowsLinked pub trace) (satisfied : Satisfies pub trace)
    {g b : Nat} (gate : g < pub.nAnd.toNat) (bit : b < 128) :
    RowEncodes (trace.row (128 * g + b)) (columnBlock trace 4 0) (traceGate trace g) b := by
  have columns := linked.gateColumns satisfied gate bit
  have column : ∀ k : Fin 18, IsBit (trace.row (128 * g + b))[k] →
      (trace.row (128 * g + b))[k] = ofByte (getBit (columnBlock trace k g) b) := by
    intro k boolean
    rw [getBit_columnBlock trace k g bit, ofByte_bitOf boolean]
  constructor
  · change _ = ofByte (bitOf (trace.row (128 * g))[1])
    rw [← linked.pb g b gate bit]
    exact (ofByte_bitOf columns.pb).symm
  · exact column 2 columns.ha0
  · exact column 3 columns.ha1
  · have shared := linked.d g b gate bit
    rw [getBit_columnBlock trace 4 0 bit, Nat.mul_zero, Nat.zero_add]
    change _ = ofByte (bitOf (trace.row b)[4])
    rw [← shared]
    exact (ofByte_bitOf columns.d).symm
  · exact column 5 columns.tg
  · exact column 7 columns.hb0
  · exact column 8 columns.hb1
  · exact column 9 columns.a0
  · exact column 10 columns.te

/-- Columns of a row carry the equations of the gate they encode. -/
theorem RowEncodes.bitHolds {cur : Row} {delta : Block} {g : GateWit} {bit : Nat}
    (row : RowEncodes cur delta g bit) (pb : g.pb = 0 ∨ g.pb = 1) (columns : GateColumns cur) :
    BitHolds delta g bit := by
  have value : ∀ (x : Block), bitOf (ofByte (getBit x bit)) = getBit x bit :=
    fun x => bitOf_ofByte (isBit_getBit x bit)
  have tgEq := columns.tgEq
  have teEq := columns.teEq
  rw [row.tg, row.ha0, row.ha1, row.pb, row.d, value, value, value, value,
    bitOf_ofByte pb] at tgEq
  rw [row.te, row.hb0, row.hb1, row.a0, value, value, value, value] at teEq
  exact ⟨tgEq, teEq⟩

/-- A trace with linked rows encodes the witness read off it. -/
theorem RowsLinked.encodes (linked : RowsLinked pub trace) (satisfied : Satisfies pub trace) :
    Encodes pub trace (traceWitness pub trace) where
  nAnd := rfl
  gates := by simp [traceWitness]
  accepted := by
    rw [checkHalfGates_eq_ok]
    intro gate member
    obtain ⟨g, inside, rfl⟩ := List.mem_map.mp member
    rw [List.mem_range] at inside
    refine ⟨(le_one_iff 0).mpr (.inl rfl), (le_one_iff _).mpr (isBit_bitOf _), ?_⟩
    intro bit bound
    exact (traceGate_encodes linked satisfied inside bound).bitHolds (isBit_bitOf _)
      (linked.gateColumns satisfied inside bound)
  row g b gate bit := by
    have found : (traceWitness pub trace).gates.getD g default = traceGate trace g := by
      simp [traceWitness, List.getD_eq_getElem?_getD, gate]
    rw [found]
    exact traceGate_encodes linked satisfied gate bit

/-- The rows of an encoded witness are linked. -/
theorem Encodes.rowsLinked {w : Witness} (encodes : Encodes pub trace w)
    (count : 128 * pub.nAnd.toNat ≤ trace.rows.length) : RowsLinked pub trace where
  count := count
  pb g b gate bit := by
    have origin := encodes.row g 0 gate (by omega)
    rw [Nat.add_zero] at origin
    rw [(encodes.row g b gate bit).pb, origin.pb]
  d g b gate bit := by
    have origin := encodes.row 0 b (by omega) bit
    rw [Nat.mul_zero, Nat.zero_add] at origin
    rw [(encodes.row g b gate bit).d, origin.d]
  last full := by
    have long := trace.long
    have positive : pub.nAnd.toNat - 1 < pub.nAnd.toNat := by omega
    have final : trace.rows.length - 1 = 128 * (pub.nAnd.toNat - 1) + 127 := by omega
    have member : w.gates.getD (pub.nAnd.toNat - 1) default ∈ w.gates := by
      rw [List.getD_eq_getElem _ _ (by rwa [encodes.gates])]
      exact List.getElem_mem _
    have holds := checkHalfGates_eq_ok.mp encodes.accepted _ member
    rw [final]
    exact (encodes.row _ 127 positive (by omega)).gateColumns holds.pb (holds.bits 127 (by omega))

/-! ## Satisfying traces for any public inputs -/

/-- Put other binding limbs into a trace. -/
def TraceTable.rebind (trace : TraceTable) (bind : Vector E 4) : TraceTable where
  rows := trace.rows.zipIdx.map fun (row, i) => row.set 14 (bindLimb bind i)
  long := by
    rw [List.length_map, List.length_zipIdx]
    exact trace.long
  pow := by
    rw [List.length_map, List.length_zipIdx]
    exact trace.pow

/-- The all-zero trace of 2^(k+3) rows. -/
def zeroTrace (k : Nat) : TraceTable where
  rows := List.replicate (2 ^ (k + 3)) (Vector.replicate 18 0)
  long := by
    rw [List.length_replicate, pow_add]
    exact Nat.le_mul_of_pos_left _ (by positivity)
  pow := ⟨k + 3, List.length_replicate⟩

@[simp] theorem length_rebind (trace : TraceTable) (bind : Vector E 4) :
    (trace.rebind bind).rows.length = trace.rows.length := by
  simp [TraceTable.rebind]

/-- A new binding changes column 14 only. -/
theorem row_rebind (trace : TraceTable) (bind : Vector E 4) {i : Nat}
    (inside : i < trace.rows.length) :
    (trace.rebind bind).row i = (trace.row i).set 14 (bindLimb bind i) := by
  simp [TraceTable.row, TraceTable.rebind, List.getD_eq_getElem?_getD, inside]

/-- Rebinding a trace leaves every column but one as it was. -/
theorem getElem_row_rebind (trace : TraceTable) (bind : Vector E 4) (i : Nat) {k : Fin 18}
    (other : k ≠ 14) : ((trace.rebind bind).row i)[k] = (trace.row i)[k] := by
  by_cases inside : i < trace.rows.length
  · rw [row_rebind _ _ inside]
    have apart : 14 ≠ k.val := fun same => other (Fin.ext same.symm)
    exact Vector.getElem_set_ne _ _ apart
  · have outside : (trace.rebind bind).rows.length ≤ i := by
      rw [length_rebind]
      omega
    simp only [TraceTable.row, List.getD_eq_getElem?_getD, List.getElem?_eq_none outside,
      List.getElem?_eq_none (Nat.le_of_not_lt inside)]

/-- The constraints do not read the binding column, so the gate columns of a
trace satisfy them under any public inputs. -/
theorem Satisfies.rebind {pub : PublicInputs} {trace : TraceTable} (satisfied : Satisfies pub trace)
    (other : PublicInputs) : Satisfies other (trace.rebind other.bind) where
  transition i checked := by
    rw [length_rebind] at checked
    rw [row_rebind _ _ (by omega)]
    have unread : evaluateTransition ((trace.row i).set 14 (bindLimb other.bind i)) =
        evaluateTransition (trace.row i) := by
      simp [evaluateTransition]
    rw [unread]
    exact satisfied.transition i checked
  boundary a member := by
    have long := trace.long
    simp only [getAssertions, List.mem_cons, List.not_mem_nil, or_false] at member
    rcases member with rfl | rfl | rfl | rfl <;>
      · dsimp only
        rw [row_rebind _ _ (by omega)]
        simp [bindLimb]

/-- All entries are zero. -/
theorem row_zeroTrace (k i : Nat) : (zeroTrace k).row i = Vector.replicate 18 0 := by
  simp only [TraceTable.row, zeroTrace, List.getD_eq_getElem?_getD, List.getElem?_replicate]
  split <;> rfl

/-- The zero trace satisfies the constraints for zero binding limbs. -/
theorem satisfies_zeroTrace (k : Nat) :
    Satisfies ⟨Vector.replicate 4 0, 0, 0⟩ (zeroTrace k) where
  transition i _ := by
    rw [row_zeroTrace]
    simp [evaluateTransition, xor3, ← Vector.toList_inj, List.replicate]
  boundary a member := by
    simp only [getAssertions, List.mem_cons, List.not_mem_nil, or_false] at member
    rcases member with rfl | rfl | rfl | rfl <;> simp [row_zeroTrace]

/-- Some trace satisfies the constraints, whatever the public inputs. -/
theorem exists_satisfying (pub : PublicInputs) : ∃ trace, Satisfies pub trace :=
  ⟨_, (satisfies_zeroTrace 0).rebind pub⟩

/-! ## Soundness of the constraints -/

/-- A satisfying trace encodes a garbling exactly when its rows are linked. -/
theorem satisfying_trace_encodes_iff (pub : PublicInputs) (trace : TraceTable)
    (satisfied : Satisfies pub trace) : EncodesGarbling pub trace ↔ RowsLinked pub trace := by
  constructor
  · rintro ⟨count, w, encodes⟩
    exact encodes.rowsLinked count
  · intro linked
    exact ⟨linked.count, _, linked.encodes satisfied⟩

/-- Public inputs that announce one gate. -/
def oneGate : PublicInputs := ⟨Vector.replicate 4 0, 1, 128⟩

/-- The equivalence for a trace of zeros. -/
theorem zero_trace_encodes_iff :
    EncodesGarbling oneGate ((zeroTrace 4).rebind oneGate.bind) ↔
      RowsLinked oneGate ((zeroTrace 4).rebind oneGate.bind) :=
  satisfying_trace_encodes_iff oneGate _ ((satisfies_zeroTrace 4).rebind oneGate)

/-- Eight zero rows satisfy the constraints of a statement about one gate, which
needs 128 rows. -/
theorem satisfying_trace_may_encode_nothing :
    ¬ ∀ pub trace, Satisfies pub trace → EncodesGarbling pub trace := by
  intro sound
  obtain ⟨count, -⟩ := sound oneGate _ ((satisfies_zeroTrace 0).rebind oneGate)
  rw [length_rebind, zeroTrace, List.length_replicate] at count
  exact absurd count (by decide)

end SimpleOprf.StarkGarble
