import Mathlib.Data.ZMod.Basic

/-!
# Reduction modulo 7681

`reduce.c` and the coefficientwise operations of `poly.c`. Coefficients are 16-bit
words that stand for their residues; only `freeze` makes them canonical.

`barrett_reduce` subtracts a multiple of the modulus that it reads off the top
three bits and may leave more than the modulus; `freeze` subtracts once more,
without branching. Each operation has a lemma on residues and a bound under which
no word wraps.
-/

namespace SimpleOprf.Kyber

/-- `KYBER_Q`. -/
def kyberQ : Nat := 7681

instance : NeZero kyberQ := ⟨by decide⟩

/-- `poly`, by its coefficients. -/
abbrev Poly := Fin 256 → BitVec 16

/-- The type of coefficients modulo `KYBER_Q`. -/
abbrev Residue := ZMod kyberQ

/-- `barrett_reduce`: subtracts as often as the top three bits say. -/
def barrettReduce (a : BitVec 16) : BitVec 16 :=
  let u : BitVec 32 := (a >>> 13).setWidth 32 * 7681#32
  a - u.setWidth 16

/-- `freeze`: the representative below `KYBER_Q`, in constant time. -/
def freeze (x : BitVec 16) : BitVec 16 :=
  let r := barrettReduce x
  let m := r - 7681#16
  let c := m.sshiftRight 15
  m ^^^ ((r ^^^ m) &&& c)

/-- `poly_add`. -/
def polyAdd (a b : Poly) : Poly := fun i => barrettReduce (a i + b i)

/-- `poly_sub`, which adds three times `KYBER_Q` before it subtracts. -/
def polySub (a b : Poly) : Poly := fun i => barrettReduce (a i + 3#16 * 7681#16 - b i)

/-! ## What the words stand for -/

/-- The residue of a coefficient. -/
def residue (x : BitVec 16) : Residue := (x.toNat : Residue)

/-- The reduction in numbers, without a borrow. -/
theorem toNat_barrettReduce (a : BitVec 16) :
    (barrettReduce a).toNat = a.toNat - a.toNat / 8192 * 7681 := by
  have quotient : a.toNat / 8192 < 8 := by
    have := a.isLt
    omega
  simp only [barrettReduce, BitVec.toNat_sub, BitVec.toNat_setWidth, BitVec.toNat_mul,
    BitVec.toNat_ushiftRight, BitVec.toNat_ofNat, Nat.shiftRight_eq_div_pow]
  omega

/-- The quotient by 8192 is too small by at most one multiple of `KYBER_Q`. -/
theorem barrettReduce_le (a : BitVec 16) : (barrettReduce a).toNat ≤ 11768 := by
  have := a.isLt
  rw [toNat_barrettReduce]
  omega

@[simp] theorem residue_barrettReduce (a : BitVec 16) : residue (barrettReduce a) = residue a := by
  have enough : a.toNat / 8192 * 7681 ≤ a.toNat := by omega
  rw [residue, toNat_barrettReduce, Nat.cast_sub enough, Nat.cast_mul,
    show ((7681 : Nat) : Residue) = 0 from ZMod.natCast_self kyberQ, mul_zero, sub_zero, residue]

/-- The last step subtracts `KYBER_Q` unless this makes the word negative. -/
theorem freeze_eq (x : BitVec 16) : freeze x =
    if (barrettReduce x).toNat < 7681 then barrettReduce x else barrettReduce x - 7681#16 := by
  have small := barrettReduce_le x
  simp only [freeze]
  generalize barrettReduce x = r at small
  have sign : (r - 7681#16).msb = decide (r.toNat < 7681) := by
    rw [BitVec.msb_eq_decide]
    simp only [BitVec.toNat_sub, BitVec.toNat_ofNat, decide_eq_decide]
    omega
  by_cases below : r.toNat < 7681
  · have ones : (r - 7681#16).sshiftRight 15 = BitVec.allOnes 16 := by
      ext i inside
      simp only [BitVec.getElem_sshiftRight, BitVec.getElem_allOnes]
      split
      · rw [← BitVec.getLsbD_eq_getElem, show 15 + i = 15 by omega]
        simpa [BitVec.msb_eq_getLsbD_last, below] using sign
      · exact sign.trans (decide_eq_true below)
    rw [if_pos below, ones, BitVec.and_allOnes, BitVec.xor_comm, BitVec.xor_assoc, BitVec.xor_self,
      BitVec.xor_zero]
  · have zeros : (r - 7681#16).sshiftRight 15 = 0#16 := by
      ext i inside
      simp only [BitVec.getElem_sshiftRight]
      split
      · rw [← BitVec.getLsbD_eq_getElem, show 15 + i = 15 by omega]
        simpa [BitVec.msb_eq_getLsbD_last, below] using sign
      · rw [BitVec.getElem_zero]
        exact sign.trans (decide_eq_false below)
    rw [if_neg below, zeros, BitVec.and_zero, BitVec.xor_zero]

/-- Freezing takes the remainder. -/
theorem toNat_freeze (x : BitVec 16) : (freeze x).toNat = x.toNat % 7681 := by
  have small := barrettReduce_le x
  have reduced := toNat_barrettReduce x
  rw [freeze_eq]
  split
  · omega
  · simp only [BitVec.toNat_sub, BitVec.toNat_ofNat]
    omega

/-- A frozen coefficient is below `KYBER_Q`. -/
theorem freeze_lt (x : BitVec 16) : (freeze x).toNat < 7681 := by
  rw [toNat_freeze]
  exact Nat.mod_lt _ (by omega)

/-- It is the canonical representative of its residue. -/
theorem toNat_freeze_eq_val (x : BitVec 16) : (freeze x).toNat = (residue x).val := by
  rw [toNat_freeze, residue, ZMod.val_natCast, kyberQ]

/-- Freezing keeps the residue. -/
theorem residue_freeze (x : BitVec 16) : residue (freeze x) = residue x := by
  rw [residue, toNat_freeze_eq_val, ZMod.natCast_zmod_val]

/-- Coefficients of one residue freeze to the same value. -/
theorem freeze_eq_of_residue {x y : BitVec 16} (same : residue x = residue y) : freeze x = freeze y := by
  apply BitVec.eq_of_toNat_eq
  rw [toNat_freeze_eq_val, toNat_freeze_eq_val, same]

/-- The sum of two words is that of their residues unless it needs a 17th bit. -/
theorem residue_polyAdd {a b : Poly} {i : Fin 256} (fits : (a i).toNat + (b i).toNat < 65536) :
    residue (polyAdd a b i) = residue (a i) + residue (b i) := by
  rw [polyAdd, residue_barrettReduce, residue, BitVec.toNat_add, Nat.mod_eq_of_lt fits, Nat.cast_add,
    residue, residue]

/-- A difference that neither borrows nor overflows has the difference of the
residues. -/
theorem residue_polySub {a b : Poly} {i : Fin 256} (positive : (b i).toNat ≤ (a i).toNat + 23043)
    (fits : (a i).toNat + 23043 - (b i).toNat < 65536) :
    residue (polySub a b i) = residue (a i) - residue (b i) := by
  have word : (a i + 3#16 * 7681#16 - b i).toNat = (a i).toNat + 3 * 7681 - (b i).toNat := by
    simp only [BitVec.toNat_sub, BitVec.toNat_add, BitVec.toNat_mul, BitVec.toNat_ofNat]
    omega
  have multiple : ((3 * 7681 : Nat) : Residue) = 0 := by
    rw [Nat.cast_mul, show ((7681 : Nat) : Residue) = 0 from ZMod.natCast_self kyberQ, mul_zero]
  rw [polySub, residue_barrettReduce, residue, word, Nat.cast_sub positive, Nat.cast_add, multiple,
    add_zero, residue, residue]

end SimpleOprf.Kyber
