import Mathlib.Algebra.BigOperators.Fin
import Mathlib.Algebra.BigOperators.Pi
import Mathlib.Algebra.Ring.Prod
import Mathlib.Data.List.GetD
import SimpleOprf.Basis.Words

/-!
# The sharing loop of the evaluator

`YaoEvaluator::run` shares a random double word among the servers before it
evaluates. The weight of coefficient `i` in share `j` is `points[j]^i`, which in
C++ is an exclusive or, so the shares are not values of a polynomial.
-/

namespace SimpleOprf.Yao

open SimpleOprf.Basis

/-- An `__m128i` in arithmetic, which acts on its two 64-bit lanes. -/
abbrev M128i := BitVec 64 × BitVec 64

/-- A vector times an `int`, which is broadcast to the lanes. -/
def M128i.scale (x : M128i) (k : Nat) : M128i := (x.1 * BitVec.ofNat 64 k, x.2 * BitVec.ofNat 64 k)

/-- The horizontal coordinates: zero, then those of the servers. -/
def points (n : Nat) : List Nat := 0 :: (List.range n).map fun j => j + 1

/-- The inner loop, for one point. -/
def share {t : Nat} (coef : Fin (t + 1) → M128i) (point : Nat) : M128i :=
  (List.finRange (t + 1)).foldl (fun acc i => acc + M128i.scale (coef i) (point ^^^ i)) 0

/-- The secret is `coef[0]`. -/
def secretOf {t : Nat} (coef : Fin (t + 1) → M128i) : M128i := coef 0

/-- The secret, then the shares of the `n` servers. -/
def shares (n : Nat) {t : Nat} (coef : Fin (t + 1) → M128i) : List M128i :=
  secretOf coef :: (points n).tail.map (share coef)

/-! ## Lanes -/

/-- The weight of coefficient `i` in the share of a point. -/
def weight (point i : Nat) : ℤ := (point ^^^ i : ℕ)

/-- A share of one lane. -/
def laneShare {t : Nat} (x : Fin t → BitVec 64) (weights : Fin t → ℤ) : BitVec 64 :=
  ∑ i, x i * (weights i : BitVec 64)

variable {n t : Nat}

/-- Point `j` is the number `j`. -/
theorem getElem?_points {j : Nat} (inside : j ≤ n) : (points n)[j]? = some j := by
  cases j with
  | zero => rfl
  | succ j =>
    rw [points, List.getElem?_cons_succ, List.getElem?_map, List.getElem?_range (by omega)]
    rfl

/-- Server `j` holds the share of point `j`. -/
theorem getElem?_shares (coef : Fin (t + 1) → M128i) {j : Nat} (positive : 1 ≤ j)
    (inside : j ≤ n) : (shares n coef)[j]? = some (share coef j) := by
  cases j with
  | zero => omega
  | succ j =>
    rw [shares, List.getElem?_cons_succ, List.getElem?_map, List.getElem?_tail,
      getElem?_points inside]
    rfl

/-- A share is the sum of the scaled coefficients. -/
theorem share_eq_sum (coef : Fin (t + 1) → M128i) (point : Nat) :
    share coef point = ∑ i, M128i.scale (coef i) (point ^^^ i) := by
  rw [Fin.sum_univ_def, List.sum_eq_foldl, List.foldl_map]
  rfl

/-- The lanes are shared independently. -/
theorem share_lanes (coef : Fin (t + 1) → M128i) (point : Nat) :
    share coef point = (laneShare (fun i => (coef i).1) fun i => weight point i,
      laneShare (fun i => (coef i).2) fun i => weight point i) := by
  rw [share_eq_sum]
  ext
  · rw [Prod.fst_sum]
    simp [laneShare, weight, M128i.scale]
  · rw [Prod.snd_sum]
    simp [laneShare, weight, M128i.scale]

/-- Shares are linear in the coefficients. -/
theorem laneShare_add (x y : Fin t → BitVec 64) (weights : Fin t → ℤ) :
    laneShare (fun i => x i + y i) weights = laneShare x weights + laneShare y weights := by
  simp only [laneShare, add_mul, Finset.sum_add_distrib]

/-- Shares of a difference. -/
theorem laneShare_sub (x y : Fin t → BitVec 64) (weights : Fin t → ℤ) :
    laneShare (fun i => x i - y i) weights = laneShare x weights - laneShare y weights := by
  simp only [laneShare, sub_mul, Finset.sum_sub_distrib]

/-- The first coefficient apart from the others. -/
theorem laneShare_succ (x : Fin (t + 1) → BitVec 64) (weights : Fin (t + 1) → ℤ) :
    laneShare x weights = x 0 * (weights 0 : BitVec 64) +
      laneShare (fun i => x i.succ) fun i => weights i.succ :=
  Fin.sum_univ_succ _

@[simp] theorem laneShare_zero (x : Fin 0 → BitVec 64) (weights : Fin 0 → ℤ) :
    laneShare x weights = 0 := rfl

/-- Listed coefficients with zeros behind them. -/
def listed (front : List (BitVec 64)) (t : Nat) : Fin t → BitVec 64 := fun i => front.getD i 0

/-- Only the listed coefficients contribute. -/
theorem laneShare_listed {front : List (BitVec 64)} (fits : front.length ≤ t) (weights : Nat → ℤ) :
    laneShare (listed front t) (fun i => weights i) =
      ∑ i ∈ Finset.range front.length, front.getD i 0 * (weights i : BitVec 64) := by
  unfold laneShare listed
  rw [Fin.sum_univ_eq_sum_range (fun i => front.getD i 0 * (weights i : BitVec 64)) t]
  symm
  refine Finset.sum_subset (Finset.range_mono fits) fun i _ beyond => ?_
  rw [Finset.mem_range, not_lt] at beyond
  rw [List.getD_eq_default _ _ beyond, zero_mul]

/-! ## The weights -/

/-- Exclusive or with a small number changes the last two bits only. -/
theorem xor_small (j : Nat) {i : Nat} (small : i < 4) :
    j ^^^ i = 4 * (j / 4) + (j % 4 ^^^ i) := by
  have high : (j ^^^ i) / 4 = j / 4 := by
    have split : (j ^^^ i) / 4 = j / 4 ^^^ i / 4 := Nat.xor_div_two_pow (n := 2)
    rwa [Nat.div_eq_of_lt small, Nat.xor_zero] at split
  have low : (j ^^^ i) % 4 = j % 4 ^^^ i := by
    have split : (j ^^^ i) % 4 = j % 4 ^^^ i % 4 := Nat.xor_mod_two_pow (n := 2)
    rwa [Nat.mod_eq_of_lt small] at split
  rw [← Nat.div_add_mod (j ^^^ i) 4, high, low]

/-- The four cases of the last two bits of a point. -/
theorem weight_cases (j : Nat) : ∃ q : ℤ,
    (j : ℤ) = 4 * q ∧ weight j 1 = 4 * q + 1 ∧ weight j 2 = 4 * q + 2 ∧ weight j 3 = 4 * q + 3 ∨
    (j : ℤ) = 4 * q + 1 ∧ weight j 1 = 4 * q ∧ weight j 2 = 4 * q + 3 ∧ weight j 3 = 4 * q + 2 ∨
    (j : ℤ) = 4 * q + 2 ∧ weight j 1 = 4 * q + 3 ∧ weight j 2 = 4 * q ∧ weight j 3 = 4 * q + 1 ∨
    (j : ℤ) = 4 * q + 3 ∧ weight j 1 = 4 * q + 2 ∧ weight j 2 = 4 * q + 1 ∧ weight j 3 = 4 * q := by
  refine ⟨(j / 4 : ℕ), ?_⟩
  have split := Nat.div_add_mod j 4
  simp only [weight, xor_small j (show 1 < 4 by decide), xor_small j (show 2 < 4 by decide),
    xor_small j (show 3 < 4 by decide)]
  have below := Nat.mod_lt j (show 0 < 4 by decide)
  have bits : j % 4 = 0 ∨ j % 4 = 1 ∨ j % 4 = 2 ∨ j % 4 = 3 := by omega
  rcases bits with bits | bits | bits | bits <;> rw [bits] at split ⊢ <;> simp <;> omega

theorem weight_zero (j : Nat) : weight j 0 = j := by
  rw [weight, Nat.xor_zero]

/-- Weight one of a point by its parity. -/
theorem weight_one (j : Nat) :
    Even j ∧ weight j 1 = j + 1 ∨ Odd j ∧ weight j 1 = j - 1 := by
  obtain ⟨q, cases⟩ := weight_cases j
  rw [Nat.even_iff, Nat.odd_iff]
  omega

end SimpleOprf.Yao
