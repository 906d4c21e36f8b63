import SimpleOprf.StarkGarble.Air
import SimpleOprf.StarkGarble.Bits

/-!
# What one row of the trace means

Over arbitrary field elements the constraints of a row leave only rows that are
filled for one bit of some gate, and of these only the rows whose bit passes the
half-gate check.

Columns 11 to 17 are read by no constraint, so a row may hold anything there.
-/

namespace SimpleOprf.StarkGarble

open SimpleOprf.GcMmo

/-- The row of a gate satisfies the constraints when the gate's bit passes the
check. -/
theorem RowOf.bitRow_iff {cur : Row} {delta : Block} {g : GateWit} {bit : Nat}
    (row : RowOf cur delta g bit) :
    BitRow cur ↔ g.pa ≤ 1 ∧ g.pb ≤ 1 ∧ BitHolds delta g bit := by
  have restored : ∀ x : Block, bitOf (ofByte (getBit x bit)) = getBit x bit := fun x =>
    bitOf_ofByte (isBit_getBit x bit)
  constructor
  · rintro ⟨pa, pb, -, -, -, -, -, -, -, tg, te⟩
    rw [row.pa] at pa
    rw [row.pb] at pb
    have low := isBit_ofByte_iff.mp pb
    rw [row.tg, row.ha0, row.ha1, row.pb, row.d, restored, restored, restored,
      bitOf_ofByte ((le_one_iff _).mp low)] at tg
    rw [row.te, row.hb0, row.hb1, row.a0, restored, restored, restored] at te
    exact ⟨isBit_ofByte_iff.mp pa, low, ofByte_injective tg, ofByte_injective te⟩
  · rintro ⟨pa, pb, tg, te⟩
    have column : ∀ x : Block, IsBit (ofByte (getBit x bit)) := fun x =>
      isBit_ofByte (isBit_getBit x bit)
    have control := bitOf_ofByte ((le_one_iff _).mp pb)
    constructor
    · rw [row.pa]
      exact isBit_ofByte_iff.mpr pa
    · rw [row.pb]
      exact isBit_ofByte_iff.mpr pb
    · rw [row.ha0]
      exact column g.ha0
    · rw [row.ha1]
      exact column g.ha1
    · rw [row.d]
      exact column delta
    · rw [row.hb0]
      exact column g.hb0
    · rw [row.hb1]
      exact column g.hb1
    · rw [row.a0]
      exact column g.a0
    · rw [row.pbd, row.pb, row.d, control, restored]
    · rw [row.tg, row.ha0, row.ha1, row.pb, row.d, control, restored, restored, restored, tg]
    · rw [row.te, row.hb0, row.hb1, row.a0, restored, restored, restored, te]

/-- The block with one bit everywhere. -/
def constantBlock (x : E) : Block := blockOfBits fun _ => bitOf x

/-- Every row of bits is filled for some gate, at any of the 128 bits. -/
theorem BitRow.rowOf {cur : Row} (row : BitRow cur) {bit : Nat} (inside : bit < 128) :
    ∃ delta g, RowOf cur delta g bit := by
  obtain ⟨-, -, columns⟩ := StarkGarble.bitRow_iff.mp row
  have entry {x : E} (isBit : IsBit x) : x = ofByte (getBit (constantBlock x) bit) := by
    rw [constantBlock, getBit_blockOfBits (fun _ => isBit_bitOf x) inside, ofByte_bitOf isBit]
  refine ⟨constantBlock cur[4], ⟨constantBlock cur[9], 0, constantBlock cur[5],
    constantBlock cur[10], constantBlock cur[2], constantBlock cur[3], constantBlock cur[7],
    constantBlock cur[8], bitOf cur[0], bitOf cur[1]⟩, ?_⟩
  constructor
  · constructor
    · exact (ofByte_bitOf row.pb).symm
    · exact entry row.ha0
    · exact entry row.ha1
    · exact entry row.d
    · exact entry columns.tg
    · exact entry row.hb0
    · exact entry row.hb1
    · exact entry row.a0
    · exact entry columns.te
  · exact (ofByte_bitOf row.pa).symm
  · have digit : getBit (constantBlock cur[4]) bit = bitOf cur[4] :=
      getBit_blockOfBits (fun _ => isBit_bitOf cur[4]) inside
    rw [row.pbd, digit]

/-- The thirteen constraints of a row of arbitrary field elements vanish exactly
on rows of bits with the AND and the two XORs in place. These are the rows filled
for a bit that passes the half-gate check. -/
theorem row_vanishes_iff_passes_check (cur : Row) :
    (RowVanishes cur ↔ BitRow cur) ∧
    (∀ delta g i bit, RowOf cur delta g bit →
      (RowVanishes cur ↔ g.pa ≤ 1 ∧ g.pb ≤ 1 ∧ checkBit delta i g bit = .ok ())) ∧
    ∀ i bit, bit < 128 → (RowVanishes cur ↔ ∃ delta g, RowOf cur delta g bit ∧
      g.pa ≤ 1 ∧ g.pb ≤ 1 ∧ checkBit delta i g bit = .ok ()) := by
  have meaning : RowVanishes cur ↔ BitRow cur := by
    rw [rowVanishes_iff, evaluateTransition_eq_zero, StarkGarble.bitRow_iff]
  refine ⟨meaning, ?_, ?_⟩
  · intro delta g i bit row
    rw [meaning, checkBit_eq_ok, row.bitRow_iff]
  · intro i bit inside
    rw [meaning]
    constructor
    · intro row
      obtain ⟨delta, g, filled⟩ := row.rowOf inside
      refine ⟨delta, g, filled, ?_⟩
      rw [checkBit_eq_ok, ← filled.bitRow_iff]
      exact row
    · rintro ⟨delta, g, filled, passes⟩
      rw [checkBit_eq_ok, ← filled.bitRow_iff] at passes
      exact passes

/-- The row of an AND of two one bits, whose table entry is the offset's bit. -/
theorem one_bits_row_vanishes :
    RowVanishes #v[1, 1, 0, 0, 1, 1, 1, 0, 0, 0, 0, 0, 0, 0, 0, 0, 0, 0] := by
  have offsetBit : getBit (blockOfBits fun _ => 1) 5 = 1 := by decide
  have zeroBit : getBit 0 5 = 0 := by decide
  have meaning := (row_vanishes_iff_passes_check
    #v[1, 1, 0, 0, 1, 1, 1, 0, 0, 0, 0, 0, 0, 0, 0, 0, 0, 0]).2.1
    (blockOfBits fun _ => 1) ⟨0, 0, blockOfBits fun _ => 1, 0, 0, 0, 0, 0, 1, 1⟩ 0 5
  refine (meaning ?_).mpr ⟨by decide, by decide, ?_⟩
  · constructor
    · constructor <;> simp [offsetBit, zeroBit, ofByte]
    · simp [ofByte]
    · simp [offsetBit, ofByte]
  · rw [checkBit_eq_ok]
    constructor <;> simp [offsetBit, zeroBit]

end SimpleOprf.StarkGarble
