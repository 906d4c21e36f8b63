import Mathlib.Data.List.Range

/-!
# Vector instructions, bit by bit

What the instructions that rearrange the lanes of a vector do to its bits. Bit zero
is the lowest bit of the lowest lane.

The definitions are by bit position, so that a rearrangement of lanes is proved by
arithmetic on positions. Both register widths use the same ones.
-/

namespace SimpleOprf.Basis

/-- A word by its bits. -/
def ofBits (w : Nat) (bit : Nat → Bool) : BitVec w :=
  (BitVec.ofBoolListLE ((List.range w).map bit)).setWidth w

@[simp] theorem getLsbD_ofBits (w : Nat) (bit : Nat → Bool) (i : Nat) :
    (ofBits w bit).getLsbD i = (decide (i < w) && bit i) := by
  rw [ofBits, BitVec.getLsbD_setWidth, BitVec.getLsbD_ofBoolListLE]
  by_cases inside : i < w <;> simp [inside]

/-- `_mm_unpacklo_epi` of lanes of `I` bits, and `_mm_unpackhi_epi` for the high
halves: lanes of both operands in turn. -/
def unpack (I : Nat) (high : Bool) (a b : BitVec 128) : BitVec 128 :=
  ofBits 128 fun p =>
    (if p / I % 2 = 0 then a else b).getLsbD
      ((if high then 64 else 0) + p / I / 2 * I + p % I)

/-- `_mm_movemask_epi8` and its wider variant: the highest bits of the bytes. -/
def movemask {v : Nat} (w : Nat) (x : BitVec v) : BitVec w :=
  ofBits w fun q => x.getLsbD (8 * q + 7)

/-- `_mm_slli_epi64` by one place and its wider variant. -/
def slliEpi64 {v : Nat} (x : BitVec v) : BitVec v :=
  ofBits v fun p => p % 64 != 0 && x.getLsbD (p - 1)

/-- The vector after some shifts. -/
def shifted {v : Nat} (x : BitVec v) : Nat → BitVec v
  | 0 => x
  | j + 1 => slliEpi64 (shifted x j)

/-- A shift by less than a byte keeps the bits of a byte apart from others. -/
theorem getLsbD_shifted {v : Nat} (x : BitVec v) {j : Nat} (p : Nat) (within : j ≤ p % 8) :
    (shifted x j).getLsbD p = (decide (p < v) && x.getLsbD (p - j)) := by
  induction j generalizing p with
  | zero =>
    by_cases inside : p < v
    · simp [shifted, inside]
    · simp [shifted, inside, BitVec.getLsbD_of_ge x p (by omega)]
  | succ j ih =>
    have nonzero : p % 64 ≠ 0 := by omega
    rw [shifted, slliEpi64, getLsbD_ofBits, ih (p - 1) (by omega), Nat.sub_sub, Nat.add_comm 1 j]
    by_cases inside : p < v
    · simp [inside, nonzero, show p - 1 < v by omega]
    · simp [inside]

/-- The mask after `j` shifts holds bit `7 - j` of every byte. -/
theorem getLsbD_movemask_shifted {v w : Nat} (x : BitVec v) (whole : v = 8 * w) {j q : Nat}
    (within : j < 8) (inside : q < w) :
    (movemask w (shifted x j)).getLsbD q = x.getLsbD (8 * q + (7 - j)) := by
  rw [movemask, getLsbD_ofBits, getLsbD_shifted x _ (by omega), decide_eq_true inside,
    decide_eq_true (by omega), Bool.true_and, Bool.true_and]
  congr 1
  omega

end SimpleOprf.Basis
