import Mathlib.Data.BitVec
import Mathlib.RingTheory.Int.Basic
import Mathlib.SetTheory.Cardinal.Finite
import Mathlib.Tactic.Abel
import Mathlib.Tactic.Positivity

/-!
# Linear equations over machine words

`BitVec w` is the ring of integers modulo `2 ^ w`. Multiplication by an integer
reaches exactly the multiples of its greatest common divisor with the modulus,
and adding the value of a homomorphism to a constant hides the constant exactly
up to the values of the homomorphism.
-/

namespace SimpleOprf.Basis

variable {w : Nat}

/-- A word is the residue of its value. -/
theorem intCast_toNat (x : BitVec w) : ((x.toNat : ℤ) : BitVec w) = x := by
  simp

/-- An integer is zero as a word when the modulus divides it. -/
theorem intCast_eq_zero_iff (z : ℤ) : (z : BitVec w) = 0 ↔ (2 ^ w : ℤ) ∣ z := by
  have zero : (0 : BitVec w).toInt = 0 := BitVec.toInt_zero
  rw [← BitVec.toInt_inj, BitVec.toInt_intCast, zero]
  exact_mod_cast Int.dvd_iff_bmod_eq_zero.symm

/-- Multiplying by `m` reaches the multiples of its divisor in common with the
modulus. -/
theorem exists_mul_intCast_eq_iff (m d : ℤ) :
    (∃ x : BitVec w, x * (m : BitVec w) = (d : BitVec w)) ↔ (Int.gcd m (2 ^ w) : ℤ) ∣ d := by
  constructor
  · rintro ⟨x, reached⟩
    have zero : ((x.toNat * m - d : ℤ) : BitVec w) = 0 := by
      rw [Int.cast_sub, Int.cast_mul, intCast_toNat, reached, sub_self]
    have divides := (Int.gcd_dvd_right m (2 ^ w)).trans ((intCast_eq_zero_iff _).mp zero)
    exact (dvd_sub_right ((Int.gcd_dvd_left m (2 ^ w)).mul_left _)).mp divides
  · rintro ⟨k, rfl⟩
    refine ⟨(Int.gcdA m (2 ^ w) * k : ℤ), ?_⟩
    rw [← Int.cast_mul, ← sub_eq_zero, ← Int.cast_sub, intCast_eq_zero_iff]
    exact ⟨-(Int.gcdB m (2 ^ w) * k), by rw [Int.gcd_eq_gcd_ab]; ring⟩

/-- Every word that `a` annihilates is annihilated by the multiples of its divisor
in common with the modulus. -/
theorem forall_mul_intCast_iff (a b : ℤ) :
    (∀ u : BitVec w, u * (a : BitVec w) = 0 → u * (b : BitVec w) = 0) ↔
      (Int.gcd a (2 ^ w) : ℤ) ∣ b := by
  constructor
  · intro annihilates
    obtain ⟨k, factor⟩ := Int.gcd_dvd_right a (2 ^ w)
    obtain ⟨l, multiple⟩ := Int.gcd_dvd_left a (2 ^ w)
    have zero := annihilates (k : BitVec w) (by
      rw [← Int.cast_mul, intCast_eq_zero_iff]
      exact ⟨l, by rw [factor]; nth_rewrite 1 [multiple]; ring⟩)
    rw [← Int.cast_mul, intCast_eq_zero_iff, factor, mul_comm] at zero
    have nonzero : k ≠ 0 := by
      rintro rfl
      rw [mul_zero] at factor
      exact absurd factor (by positivity)
    exact Int.dvd_of_mul_dvd_mul_left nonzero zero
  · rintro divides u zero
    obtain ⟨x, reached⟩ := (exists_mul_intCast_eq_iff (w := w) a b).mpr divides
    rw [← reached, mul_left_comm, zero, mul_zero]

/-- Odd numbers are coprime to powers of two. -/
theorem gcd_of_odd {m : ℤ} (odd : Odd m) : Int.gcd m (2 ^ w) = 1 :=
  Int.isCoprime_iff_gcd_eq_one.mp (Int.isCoprime_two_right.mpr odd).pow_right

/-- The odd integers are those that annihilate no word. -/
theorem forall_mul_eq_zero_iff_odd (positive : 0 < w) (m : ℤ) :
    (∀ u : BitVec w, u * (m : BitVec w) = 0 → u = 0) ↔ Odd m := by
  have criterion := forall_mul_intCast_iff (w := w) m 1
  simp only [Int.cast_one, mul_one] at criterion
  rw [criterion]
  constructor
  · intro unit
    by_contra notOdd
    have both : (2 : ℤ) ∣ Int.gcd m (2 ^ w) := Int.dvd_coe_gcd
      (even_iff_two_dvd.mp (Int.not_odd_iff_even.mp notOdd)) (dvd_pow_self 2 (by omega))
    exact absurd (both.trans unit) (by decide)
  · intro odd
    rw [gcd_of_odd odd]
    exact dvd_refl _

/-- An odd integer divides every word once. -/
theorem existsUnique_mul_intCast {m : ℤ} (positive : 0 < w) (odd : Odd m) (d : ℤ) :
    ∃! u : BitVec w, u * (m : BitVec w) = (d : BitVec w) := by
  have divides : (Int.gcd m (2 ^ w) : ℤ) ∣ d := by
    rw [gcd_of_odd odd]
    exact one_dvd d
  obtain ⟨u, reached⟩ := (exists_mul_intCast_eq_iff m d).mpr divides
  refine ⟨u, reached, fun u' reached' => sub_eq_zero.mp ?_⟩
  refine (forall_mul_eq_zero_iff_odd positive m).mpr odd (u' - u) ?_
  rw [sub_mul, reached, reached', sub_self]

/-- The divisor in common with the modulus is a power of two. -/
theorem gcd_dvd_of_not_dvd {m : ℤ} {i : Nat} (other : ¬(2 ^ i : ℤ) ∣ m) :
    (Int.gcd m (2 ^ w) : ℤ) ∣ 2 ^ i := by
  have common : Int.gcd m (2 ^ w) ∣ 2 ^ w := by
    have divides := Int.gcd_dvd_right m (2 ^ w)
    exact_mod_cast divides
  obtain ⟨e, -, power⟩ := (Nat.dvd_prime_pow Nat.prime_two).mp common
  have cast : (Int.gcd m (2 ^ w) : ℤ) = 2 ^ e := by exact_mod_cast power
  have divides := Int.gcd_dvd_left m (2 ^ w)
  rw [cast] at divides ⊢
  have small : e ≤ i := by
    by_contra large
    exact other ((pow_dvd_pow 2 (by omega)).trans divides)
  exact pow_dvd_pow 2 small

/-! ## Masking by a homomorphism -/

/-- Two constants have equally many masks for every value exactly when they
differ by a mask. -/
theorem card_masks_eq_iff {G H : Type*} [AddCommGroup G] [AddCommGroup H] [Finite G] (f : G →+ H)
    (c c' : H) : (∀ v, Nat.card {x // c + f x = v} = Nat.card {x // c' + f x = v}) ↔
      ∃ x, f x = c - c' := by
  constructor
  · intro equal
    -- The value `c` itself has the mask zero.
    have inhabited : Nonempty {x // c + f x = c} := ⟨0, by rw [map_zero, add_zero]⟩
    have positive : 0 < Nat.card {x // c' + f x = c} := by
      rw [← equal c]
      exact Nat.card_pos
    obtain ⟨⟨x, reached⟩⟩ := (Nat.card_pos_iff.mp positive).1
    exact ⟨x, by rw [← reached, add_sub_cancel_left]⟩
  · rintro ⟨x0, shift⟩ v
    refine Nat.card_congr ((Equiv.addRight x0).subtypeEquiv fun x => ?_)
    rw [Equiv.coe_addRight, map_add, shift]
    constructor
    · intro reached
      rw [← reached]
      abel
    · intro reached
      rw [← reached]
      abel

end SimpleOprf.Basis
