import Mathlib.RingTheory.AdjoinRoot
import Mathlib.RingTheory.PowerBasis

/-!
# Polynomials modulo X ^ n + 1

The ring that lattice schemes compute in, with its elements listed by their
coefficients.

Reading off coefficients is a bijection that respects addition, and the product
of residues is the negacyclic convolution of their coefficient vectors.
-/

namespace SimpleOprf.Basis

open Polynomial

variable {A : Type} [CommRing A] {n : Nat}

/-- The product by coefficients: a power of `n` and more wraps around with the other sign. -/
def negacyclicMul (a b : Fin n → A) : Fin n → A := fun k =>
  ∑ i : Fin n, ∑ j : Fin n,
    if i.val + j.val = k then a i * b j else if i.val + j.val = k + n then -(a i * b j) else 0

variable (A n)

/-- Polynomials modulo `X ^ n + 1`. -/
abbrev Negacyclic := AdjoinRoot (X ^ n + 1 : A[X])

namespace Negacyclic

/-- The modulus is monic. -/
theorem monic [NeZero n] : (X ^ n + 1 : A[X]).Monic := monic_X_pow_add_C 1 (NeZero.ne n)

/-- Its degree is `n`. -/
theorem natDegree [Nontrivial A] : (X ^ n + 1 : A[X]).natDegree = n := natDegree_X_pow_add_C

variable [NeZero n] [Nontrivial A]

/-- The `n` coefficients of an element. -/
noncomputable def coeffs : Negacyclic A n ≃ₗ[A] (Fin n → A) :=
  ((AdjoinRoot.powerBasis' (monic A n)).basis.reindex
    (finCongr ((AdjoinRoot.powerBasis'_dim (monic A n)).trans (natDegree A n)))).equivFun

variable {A n}

/-- The element with some coefficients. -/
noncomputable def ofCoeffs : (Fin n → A) ≃ₗ[A] Negacyclic A n := (coeffs A n).symm

/-- A residue is the sum of its coefficients times the powers of the root. -/
theorem ofCoeffs_eq_sum (a : Fin n → A) :
    ofCoeffs a = ∑ i, a i • (AdjoinRoot.root (X ^ n + 1 : A[X])) ^ i.val := by
  rw [ofCoeffs, coeffs, Module.Basis.equivFun_symm_apply]
  refine Finset.sum_congr rfl fun i _ => ?_
  rw [Module.Basis.reindex_apply, PowerBasis.basis_eq_pow, AdjoinRoot.powerBasis'_gen]
  rfl

omit [NeZero n] [Nontrivial A] in
/-- The `n`-th power of the root is minus one. -/
theorem root_pow : (AdjoinRoot.root (X ^ n + 1 : A[X])) ^ n = -1 := by
  have zero := AdjoinRoot.eval₂_root (X ^ n + 1 : A[X])
  simp only [eval₂_add, eval₂_X_pow, eval₂_one] at zero
  exact eq_neg_of_add_eq_zero_left zero

omit [NeZero n] [Nontrivial A] in
/-- The only coefficient that two powers of the root contribute to. -/
theorem sum_wrapped (i j : Fin n) (x : A) :
    ∑ k : Fin n, (if i.val + j.val = k then x else if i.val + j.val = k + n then -x else 0) •
      (AdjoinRoot.root (X ^ n + 1 : A[X])) ^ k.val =
    x • (AdjoinRoot.root (X ^ n + 1 : A[X])) ^ (i.val + j.val) := by
  rcases Nat.lt_or_ge (i.val + j.val) n with inside | beyond
  · rw [Finset.sum_eq_single ⟨i.val + j.val, inside⟩]
    · rw [if_pos rfl]
    · intro k _ other
      rw [if_neg fun same => other (Fin.ext same.symm), if_neg (by omega), zero_smul]
    · exact fun absent => absurd (Finset.mem_univ _) absent
  · have wrapped : i.val + j.val - n < n := by omega
    rw [Finset.sum_eq_single ⟨i.val + j.val - n, wrapped⟩]
    · have split : i.val + j.val = (i.val + j.val - n) + n := by omega
      rw [if_neg (by simp only; omega), if_pos split]
      conv_rhs => rw [split, pow_add, root_pow, mul_neg, mul_one]
      rw [neg_smul, smul_neg]
    · intro k _ other
      have apart : k.val ≠ i.val + j.val - n := fun same => other (Fin.ext same)
      rw [if_neg (by omega), if_neg (by omega), zero_smul]
    · exact fun absent => absurd (Finset.mem_univ _) absent

/-- The product by coefficients is that of the ring. -/
theorem ofCoeffs_mul (a b : Fin n → A) : ofCoeffs (negacyclicMul a b) = ofCoeffs a * ofCoeffs b := by
  simp only [ofCoeffs_eq_sum, negacyclicMul, Finset.sum_smul, Finset.sum_mul_sum]
  rw [Finset.sum_comm]
  refine Finset.sum_congr rfl fun i _ => ?_
  rw [Finset.sum_comm]
  refine Finset.sum_congr rfl fun j _ => ?_
  rw [sum_wrapped, smul_mul_smul_comm, pow_add]

end Negacyclic

end SimpleOprf.Basis
