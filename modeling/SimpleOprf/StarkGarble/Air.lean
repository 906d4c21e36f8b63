import SimpleOprf.StarkGarble.Witness

/-!
# The algebraic constraints

`GarbleAir`: fifteen constraints on a row of eighteen columns and four boundary
assertions. No constraint reads the next row, and the last row is not checked.

On bits the constraints are the equations of a half-gate. `RowVanishes` and
`BitRow` say what they are on arbitrary field elements and where the two
differ.
-/

namespace SimpleOprf.StarkGarble

open SimpleOprf.GcMmo

/-- Numerals name the eighteen columns of a row. -/
instance instNeZeroColumns : NeZero 18 := ⟨by decide⟩

/-- One row of the execution trace. -/
abbrev Row := Vector E 18

/-- `PublicInputs`. -/
structure PublicInputs where
  bind : Vector E 4
  nAnd : UInt64
  nBits : UInt64

/-- A trace table; the fields are what `TraceTable::new` asserts of its length. -/
structure TraceTable where
  rows : List Row
  long : 8 ≤ rows.length
  pow : ∃ k, rows.length = 2 ^ k

/-- A row of the trace. -/
def TraceTable.row (trace : TraceTable) (i : Nat) : Row := trace.rows.getD i (Vector.replicate 18 0)

/-- The binding limb in a row. -/
def bindLimb (bind : Vector E 4) (row : Nat) : E := bind[row % 4]

/-- XOR of three bits as a polynomial. -/
def xor3 {F : Type} [CommRing F] (x y z : F) : F :=
  x + y + z - 2 * (x * y + x * z + y * z) + x * y * z * 4

/-- `evaluate_transition`: the fifteen constraints on one row. -/
def evaluateTransition {F : Type} [CommRing F] (cur : Vector F 18) : Vector F 15 :=
  let pa := cur[0]
  let pb := cur[1]
  let ha0 := cur[2]
  let ha1 := cur[3]
  let d := cur[4]
  let tg := cur[5]
  let pbd := cur[6]
  let hb0 := cur[7]
  let hb1 := cur[8]
  let a0 := cur[9]
  let te := cur[10]
  #v[
    pa * (pa - 1),
    pb * (pb - 1),
    ha0 * (ha0 - 1),
    ha1 * (ha1 - 1),
    d * (d - 1),
    tg * (tg - 1),
    pbd - pb * d,
    tg - xor3 ha0 ha1 pbd,
    hb0 * (hb0 - 1),
    hb1 * (hb1 - 1),
    a0 * (a0 - 1),
    te * (te - 1),
    te - xor3 hb0 hb1 a0,
    0,
    0]

/-- A boundary assertion on one cell. -/
structure Assertion where
  column : Fin 18
  step : Nat
  value : E

/-- `get_assertions`: column 14 starts with the binding. -/
def getAssertions (pub : PublicInputs) : List Assertion := [
  ⟨14, 0, pub.bind[0]⟩,
  ⟨14, 1, pub.bind[1]⟩,
  ⟨14, 2, pub.bind[2]⟩,
  ⟨14, 3, pub.bind[3]⟩]

/-- The verifier's statement: every row but the last satisfies the transition
constraints, and every assertion holds. -/
structure Satisfies (pub : PublicInputs) (trace : TraceTable) : Prop where
  transition : ∀ i, i + 1 < trace.rows.length →
    evaluateTransition (trace.row i) = Vector.replicate 15 0
  boundary : ∀ a ∈ getAssertions pub, (trace.row a.step)[a.column] = a.value

/-! ## What a row that satisfies the constraints says -/

/-- A field element that is zero or one. -/
def IsBit (x : E) : Prop := x = 0 ∨ x = 1

/-- A bit column as a byte. -/
def bitOf (x : E) : UInt8 := if x = 1 then 1 else 0

/-- The field element of a byte, `E::from`. -/
def ofByte (x : UInt8) : E := (x.toNat : E)

@[simp] theorem ofByte_zero : ofByte 0 = 0 := by simp [ofByte]
@[simp] theorem ofByte_one : ofByte 1 = 1 := by simp [ofByte]

theorem mul_sub_one_eq_zero {x : E} : x * (x - 1) = 0 ↔ IsBit x := by
  rw [mul_eq_zero, sub_eq_zero]
  rfl

/-- A bit of the field is known from its byte. -/
theorem ofByte_bitOf {x : E} (isBit : IsBit x) : ofByte (bitOf x) = x := by
  rcases isBit with rfl | rfl <;> simp [bitOf]

/-- A byte that is a bit is known from the field. -/
theorem bitOf_ofByte {x : UInt8} (isBit : x = 0 ∨ x = 1) : bitOf (ofByte x) = x := by
  rcases isBit with rfl | rfl <;> simp [bitOf]

/-- A byte that is a bit is one in the field. -/
theorem isBit_ofByte {x : UInt8} (isBit : x = 0 ∨ x = 1) : IsBit (ofByte x) := by
  rcases isBit with rfl | rfl
  · exact .inl ofByte_zero
  · exact .inr ofByte_one

/-- Every field element is read as a bit. -/
theorem isBit_bitOf (x : E) : bitOf x = 0 ∨ bitOf x = 1 := by
  unfold bitOf
  split
  · exact .inr rfl
  · exact .inl rfl

/-- The part of a row that encodes one bit of a half gate: nine columns hold
bits, and the bits satisfy the two equations of the check. -/
structure GateColumns (cur : Row) : Prop where
  pb : IsBit cur[1]
  ha0 : IsBit cur[2]
  ha1 : IsBit cur[3]
  d : IsBit cur[4]
  tg : IsBit cur[5]
  hb0 : IsBit cur[7]
  hb1 : IsBit cur[8]
  a0 : IsBit cur[9]
  te : IsBit cur[10]
  tgEq : bitOf cur[5] = bitOf cur[2] ^^^ bitOf cur[3] ^^^ (bitOf cur[1] &&& bitOf cur[4])
  teEq : bitOf cur[10] = bitOf cur[7] ^^^ bitOf cur[8] ^^^ bitOf cur[9]

/-- The columns of a row that carry one bit of a gate. -/
structure RowEncodes (cur : Row) (delta : Block) (g : GateWit) (bit : Nat) : Prop where
  pb : cur[1] = ofByte g.pb
  ha0 : cur[2] = ofByte (getBit g.ha0 bit)
  ha1 : cur[3] = ofByte (getBit g.ha1 bit)
  d : cur[4] = ofByte (getBit delta bit)
  tg : cur[5] = ofByte (getBit g.tg bit)
  hb0 : cur[7] = ofByte (getBit g.hb0 bit)
  hb1 : cur[8] = ofByte (getBit g.hb1 bit)
  a0 : cur[9] = ofByte (getBit g.a0 bit)
  te : cur[10] = ofByte (getBit g.te bit)

/-- XOR of three bits is a bit. -/
private theorem isBit_xor3 {x y z : UInt8} (xBit : x = 0 ∨ x = 1) (yBit : y = 0 ∨ y = 1)
    (zBit : z = 0 ∨ z = 1) : x ^^^ y ^^^ z = 0 ∨ x ^^^ y ^^^ z = 1 := by
  rcases xBit with rfl | rfl <;> rcases yBit with rfl | rfl <;> rcases zBit with rfl | rfl <;>
    decide

/-- On bits the constraint of a sum of three is an exclusive or. -/
private theorem xor3_bits {x y z out : E} (xBit : IsBit x) (yBit : IsBit y) (zBit : IsBit z)
    (outBit : IsBit out) :
    out - xor3 x y z = 0 ↔ bitOf out = bitOf x ^^^ bitOf y ^^^ bitOf z := by
  rw [sub_eq_zero]
  have value : xor3 x y z = ofByte (bitOf x ^^^ bitOf y ^^^ bitOf z) := by
    rcases xBit with rfl | rfl <;> rcases yBit with rfl | rfl <;> rcases zBit with rfl | rfl <;>
      norm_num [xor3, bitOf]
  have sumBit := isBit_xor3 (isBit_bitOf x) (isBit_bitOf y) (isBit_bitOf z)
  rw [value]
  constructor
  · intro same
    rw [same, bitOf_ofByte sumBit]
  · intro same
    rw [← same, ofByte_bitOf outBit]

/-- On bits a product is a conjunction. -/
private theorem bitOf_mul {x y : E} (xBit : IsBit x) (yBit : IsBit y) :
    IsBit (x * y) ∧ bitOf (x * y) = bitOf x &&& bitOf y := by
  rcases xBit with rfl | rfl <;> rcases yBit with rfl | rfl <;> norm_num [IsBit, bitOf]

/-- The constraints vanish on a row exactly when `pa` is a bit, `pbd` is the
product of `pb` and `d`, and the row encodes one bit of a half gate. -/
theorem evaluateTransition_eq_zero {cur : Row} :
    evaluateTransition cur = Vector.replicate 15 0 ↔
      IsBit cur[0] ∧ cur[6] = cur[1] * cur[4] ∧ GateColumns cur := by
  have entries : evaluateTransition cur = Vector.replicate 15 0 ↔
      IsBit cur[0] ∧ IsBit cur[1] ∧ IsBit cur[2] ∧ IsBit cur[3] ∧ IsBit cur[4] ∧ IsBit cur[5] ∧
      cur[6] - cur[1] * cur[4] = 0 ∧ cur[5] - xor3 cur[2] cur[3] cur[6] = 0 ∧
      IsBit cur[7] ∧ IsBit cur[8] ∧ IsBit cur[9] ∧ IsBit cur[10] ∧
      cur[10] - xor3 cur[7] cur[8] cur[9] = 0 := by
    simp only [← mul_sub_one_eq_zero]
    rw [← Vector.toList_inj]
    simp [evaluateTransition, List.replicate]
  rw [entries, sub_eq_zero]
  constructor
  · rintro ⟨pa, pb, ha0, ha1, d, tg, pbd, tgEq, hb0, hb1, a0, te, teEq⟩
    obtain ⟨productBit, product⟩ := bitOf_mul pb d
    rw [pbd, xor3_bits ha0 ha1 productBit tg, product] at tgEq
    rw [xor3_bits hb0 hb1 a0 te] at teEq
    exact ⟨pa, pbd, pb, ha0, ha1, d, tg, hb0, hb1, a0, te, tgEq, teEq⟩
  · rintro ⟨pa, pbd, pb, ha0, ha1, d, tg, hb0, hb1, a0, te, tgEq, teEq⟩
    obtain ⟨productBit, product⟩ := bitOf_mul pb d
    refine ⟨pa, pb, ha0, ha1, d, tg, pbd, ?_, hb0, hb1, a0, te, ?_⟩
    · rwa [pbd, xor3_bits ha0 ha1 productBit tg, product]
    · rwa [xor3_bits hb0 hb1 a0 te]

/-! ## The thirteen constraints as bit logic -/

/-- The constraints that a row can break; the last two are constantly zero. -/
def RowVanishes (cur : Row) : Prop :=
  ∀ k (inside : k < 15), k < 13 → (evaluateTransition cur)[k] = 0

/-- What the constraints mean: eight free columns hold bits, and the other three
are the AND and the two XORs of these bits. -/
structure BitRow (cur : Row) : Prop where
  pa : IsBit cur[0]
  pb : IsBit cur[1]
  ha0 : IsBit cur[2]
  ha1 : IsBit cur[3]
  d : IsBit cur[4]
  hb0 : IsBit cur[7]
  hb1 : IsBit cur[8]
  a0 : IsBit cur[9]
  pbd : cur[6] = ofByte (bitOf cur[1] &&& bitOf cur[4])
  tg : cur[5] = ofByte (bitOf cur[2] ^^^ bitOf cur[3] ^^^ (bitOf cur[1] &&& bitOf cur[4]))
  te : cur[10] = ofByte (bitOf cur[7] ^^^ bitOf cur[8] ^^^ bitOf cur[9])

/-- A row as it is filled for one bit of a gate. -/
structure RowOf (cur : Row) (delta : Block) (g : GateWit) (bit : Nat) : Prop
    extends RowEncodes cur delta g bit where
  pa : cur[0] = ofByte g.pa
  pbd : cur[6] = ofByte (g.pb &&& getBit delta bit)

/-- A row vanishes exactly when all its constraints do. -/
theorem rowVanishes_iff {cur : Row} :
    RowVanishes cur ↔ evaluateTransition cur = Vector.replicate 15 0 := by
  constructor
  · intro vanishes
    apply Vector.ext
    intro k inside
    rw [Vector.getElem_replicate]
    by_cases checked : k < 13
    · exact vanishes k inside checked
    · have padding : k = 13 ∨ k = 14 := by omega
      rcases padding with rfl | rfl <;> rfl
  · intro zero k inside _
    rw [zero, Vector.getElem_replicate]

/-- Bytes are different field elements. -/
theorem ofByte_injective : Function.Injective ofByte := by
  intro x y same
  have small : ∀ z : UInt8, z.toNat < modulus := fun z => lt_trans z.toNat_lt (by norm_num)
  rw [ofByte, ofByte, ZMod.natCast_eq_natCast_iff', Nat.mod_eq_of_lt (small x),
    Nat.mod_eq_of_lt (small y)] at same
  exact UInt8.toNat_inj.mp same

/-- A byte is a bit of the field exactly when it is at most one. -/
theorem isBit_ofByte_iff {x : UInt8} : IsBit (ofByte x) ↔ x ≤ 1 := by
  rw [le_one_iff]
  constructor
  · rintro (zero | one)
    · exact .inl (ofByte_injective (zero.trans ofByte_zero.symm))
    · exact .inr (ofByte_injective (one.trans ofByte_one.symm))
  · exact isBit_ofByte

/-- What a row of bits comes down to. -/
theorem bitRow_iff {cur : Row} :
    BitRow cur ↔ IsBit cur[0] ∧ cur[6] = cur[1] * cur[4] ∧ GateColumns cur := by
  constructor
  · intro row
    obtain ⟨productBit, product⟩ := bitOf_mul row.pb row.d
    have andBit : bitOf cur[1] &&& bitOf cur[4] = 0 ∨ bitOf cur[1] &&& bitOf cur[4] = 1 := by
      rw [← product]
      exact isBit_bitOf _
    have tgBit := isBit_xor3 (isBit_bitOf cur[2]) (isBit_bitOf cur[3]) andBit
    have teBit := isBit_xor3 (isBit_bitOf cur[7]) (isBit_bitOf cur[8]) (isBit_bitOf cur[9])
    refine ⟨row.pa, ?_, row.pb, row.ha0, row.ha1, row.d, ?_, row.hb0, row.hb1, row.a0, ?_, ?_, ?_⟩
    · rw [row.pbd, ← product, ofByte_bitOf productBit]
    · rw [row.tg]
      exact isBit_ofByte tgBit
    · rw [row.te]
      exact isBit_ofByte teBit
    · rw [row.tg, bitOf_ofByte tgBit]
    · rw [row.te, bitOf_ofByte teBit]
  · rintro ⟨pa, pbd, columns⟩
    obtain ⟨productBit, product⟩ := bitOf_mul columns.pb columns.d
    refine ⟨pa, columns.pb, columns.ha0, columns.ha1, columns.d, columns.hb0, columns.hb1,
      columns.a0, ?_, ?_, ?_⟩
    · rw [pbd, ← product, ofByte_bitOf productBit]
    · rw [← columns.tgEq, ofByte_bitOf columns.tg]
    · rw [← columns.teEq, ofByte_bitOf columns.te]

end SimpleOprf.StarkGarble
