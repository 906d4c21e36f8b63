import SimpleOprf.Yao.SecretSharing

/-!
# Which shares determine the secret

With the exclusive or in place of a power, `t + 1` shares determine the secret
for no threshold above one, and below that only for some indices.

The conditions are exact for every number of servers, threshold and set of
indices, on both lanes of a share.
-/

namespace SimpleOprf.Yao

open SimpleOprf.Basis

/-- Two sharings that agree at the indices have the same secret. -/
def Determines (n t : Nat) (indices : Finset Nat) : Prop :=
  ∀ coef coef' : Fin (t + 1) → M128i,
    (∀ j ∈ indices, (shares n coef)[j]? = (shares n coef')[j]?) → secretOf coef = secretOf coef'

/-- The index sets that determine the secret. -/
def Determining (t : Nat) (indices : Finset Nat) : Prop :=
  (t = 0 ∧ ∀ j ∈ indices, Odd j) ∨
    (t = 1 ∧ ∀ j ∈ indices, ∀ k ∈ indices, j < k →
      Odd (j + k) ∨ Odd j ∧ Nat.gcd (k - j) (2 ^ 64) ∣ j - 1)

variable {n t : Nat} {indices : Finset Nat}

/-- Determination is a statement about coefficients with vanishing shares in one
lane. -/
theorem determines_iff_lane (inside : ∀ j ∈ indices, 1 ≤ j ∧ j ≤ n) :
    Determines n t indices ↔ ∀ x : Fin (t + 1) → BitVec 64,
      (∀ j ∈ indices, laneShare x (fun i => weight j i) = 0) → x 0 = 0 := by
  have lanes : ∀ (coef : Fin (t + 1) → M128i) (j : Nat), j ∈ indices → (shares n coef)[j]? =
      some (laneShare (fun i => (coef i).1) fun i => weight j i,
        laneShare (fun i => (coef i).2) fun i => weight j i) := by
    intro coef j member
    rw [getElem?_shares coef (inside j member).1 (inside j member).2, share_lanes]
  constructor
  · intro determines x vanishes
    have same := determines (fun i => (x i, 0)) (fun _ => (0, 0)) fun j member => by
      rw [lanes _ j member, lanes _ j member, vanishes j member]
      simp [laneShare]
    exact congrArg Prod.fst same
  · intro injective coef coef' agree
    have equal : ∀ j ∈ indices, _ := fun j member => Prod.mk.inj
      (Option.some.inj ((lanes coef j member).symm.trans ((agree j member).trans
        (lanes coef' j member))))
    have first := injective (fun i => (coef i).1 - (coef' i).1) fun j member => by
      rw [laneShare_sub, (equal j member).1, sub_self]
    have second := injective (fun i => (coef i).2 - (coef' i).2) fun j member => by
      rw [laneShare_sub, (equal j member).2, sub_self]
    exact Prod.ext (sub_eq_zero.mp first) (sub_eq_zero.mp second)

/-! ## Thresholds above one -/

/-- From degree three on the shares of (1, -1, -1, 1) vanish everywhere. -/
theorem vanishing_of_three (j : Nat) (large : 3 ≤ t) :
    laneShare (listed [1, -1, -1, 1] (t + 1)) (fun i => weight j i) = 0 := by
  have zero : weight j 0 - weight j 1 - weight j 2 + weight j 3 = 0 := by
    rw [weight_zero]
    obtain ⟨q, cases⟩ := weight_cases j
    omega
  have cast := congrArg (Int.cast : ℤ → BitVec 64) zero
  rw [Int.cast_add, Int.cast_sub, Int.cast_sub, Int.cast_zero] at cast
  rw [laneShare_listed (show 4 ≤ t + 1 by omega) fun i => weight j i]
  simp only [List.length_cons, List.length_nil, Finset.sum_range_succ, Finset.sum_range_zero,
    List.getD_cons_zero, List.getD_cons_succ, one_mul, neg_mul, zero_add]
  rw [← sub_eq_add_neg, ← sub_eq_add_neg, cast]

/-- At degree two the shares of (c, 2c, c) vanish when c is a quarter of the
modulus. -/
theorem vanishing_of_two (j : Nat) {c : BitVec 64} (quarter : c * 4 = 0) :
    laneShare (listed [c, 2 * c, c] 3) (fun i => weight j i) = 0 := by
  obtain ⟨m, multiple⟩ : ∃ m, weight j 0 + 2 * weight j 1 + weight j 2 = 4 * m := by
    rw [weight_zero]
    obtain ⟨q, cases⟩ := weight_cases j
    rcases cases with ⟨first, second, third, -⟩ | ⟨first, second, third, -⟩ |
      ⟨first, second, third, -⟩ | ⟨first, second, third, -⟩
    · exact ⟨4 * q + 1, by omega⟩
    · exact ⟨4 * q + 1, by omega⟩
    · exact ⟨4 * q + 2, by omega⟩
    · exact ⟨4 * q + 2, by omega⟩
  have cast := congrArg (Int.cast : ℤ → BitVec 64) multiple
  rw [Int.cast_add, Int.cast_add, Int.cast_mul, Int.cast_mul, Int.cast_ofNat, Int.cast_ofNat] at cast
  rw [laneShare_listed (show 3 ≤ 3 by omega) fun i => weight j i]
  simp only [List.length_cons, List.length_nil, Finset.sum_range_succ, Finset.sum_range_zero,
    List.getD_cons_zero, List.getD_cons_succ]
  calc 0 + c * (weight j 0 : BitVec 64) + 2 * c * (weight j 1 : BitVec 64) +
        c * (weight j 2 : BitVec 64)
      = c * ((weight j 0 : BitVec 64) + 2 * (weight j 1 : BitVec 64) +
        (weight j 2 : BitVec 64)) := by ring
    _ = c * 4 * (m : BitVec 64) := by rw [cast, mul_assoc]
    _ = 0 := by rw [quarter, zero_mul]

/-- With a threshold of at least two, no shares determine the secret. -/
theorem not_determines_of_two (inside : ∀ j ∈ indices, 1 ≤ j ∧ j ≤ n) (large : 2 ≤ t) :
    ¬ Determines n t indices := by
  rw [determines_iff_lane inside]
  intro injective
  rcases Nat.eq_or_lt_of_le large with rfl | larger
  · have zero : (0x4000000000000000 : BitVec 64) = 0 :=
      injective _ fun j _ => vanishing_of_two j (by decide)
    exact absurd zero (by decide)
  · have zero : (1 : BitVec 64) = 0 := injective _ fun j _ => vanishing_of_three j larger
    exact absurd zero (by decide)

/-! ## Thresholds zero and one -/

/-- With threshold zero a share determines it exactly when its number is odd. -/
theorem determines_zero_iff (inside : ∀ j ∈ indices, 1 ≤ j ∧ j ≤ n) (one : indices.card = 1) :
    Determines n 0 indices ↔ ∀ j ∈ indices, Odd j := by
  obtain ⟨j, rfl⟩ := Finset.card_eq_one.mp one
  simp only [determines_iff_lane inside, Finset.mem_singleton, forall_eq, laneShare_succ,
    laneShare_zero, add_zero, Fin.val_zero, weight_zero]
  rw [← Int.odd_coe_nat, ← forall_mul_eq_zero_iff_odd (w := 64) (by omega)]
  exact ⟨fun injective u => injective fun _ => u, fun injective x => injective (x 0)⟩

/-- Two shares at degree one, as equations between two words. -/
theorem determines_pair_iff {j k : Nat} (inside : ∀ i ∈ ({j, k} : Finset Nat), 1 ≤ i ∧ i ≤ n) :
    Determines n 1 {j, k} ↔ ∀ a b : BitVec 64,
      a * ((j : ℤ) : BitVec 64) + b * (weight j 1 : BitVec 64) = 0 →
      a * ((k : ℤ) : BitVec 64) + b * (weight k 1 : BitVec 64) = 0 → a = 0 := by
  have expand : ∀ (x : Fin 2 → BitVec 64) (i : Nat), laneShare x (fun l => weight i l) =
      x 0 * ((i : ℤ) : BitVec 64) + x 1 * (weight i 1 : BitVec 64) := by
    intro x i
    rw [laneShare, Fin.sum_univ_two, Fin.val_zero, weight_zero]
    rfl
  simp only [determines_iff_lane inside, Finset.mem_insert, Finset.mem_singleton,
    forall_eq_or_imp, forall_eq, expand]
  constructor
  · intro injective a b first second
    exact injective ![a, b] ⟨first, second⟩
  · rintro injective x ⟨first, second⟩
    exact injective (x 0) (x 1) first second

section Equations

variable {R : Type*} [CommRing R] {j k : R}

/-- A share at an odd point beside one at an even point. -/
theorem eq_zero_of_mixed (cancel : ∀ u : R, u * (j + k) = 0 → u = 0) {a b : R}
    (first : a * j + b * (j - 1) = 0) (second : a * k + b * (k + 1) = 0) : a = 0 := by
  have sum : (a + b) * (j + k) = 0 := by
    calc (a + b) * (j + k) = (a * j + b * (j - 1)) + (a * k + b * (k + 1)) := by ring
      _ = 0 := by rw [first, second, add_zero]
  calc a = (a * j + b * (j - 1)) - (a + b) * (j - 1) := by ring
    _ = 0 := by rw [first, cancel _ sum, zero_mul, sub_zero]

/-- Shares at two odd points. -/
theorem forall_odd_pair_iff :
    (∀ a b : R, a * j + b * (j - 1) = 0 → a * k + b * (k - 1) = 0 → a = 0) ↔
      ∀ u : R, u * (k - j) = 0 → u * (j - 1) = 0 := by
  constructor
  · -- With sum `u` of the coefficients the first share vanishes for `b = u * j`.
    intro injective u apart
    have second : (u - u * j) * k + u * j * (k - 1) = 0 := by
      calc (u - u * j) * k + u * j * (k - 1) = u * (k - j) := by ring
        _ = 0 := apart
    have zero := injective (u - u * j) (u * j) (by ring) second
    calc u * (j - 1) = -(u - u * j) := by ring
      _ = 0 := by rw [zero, neg_zero]
  · intro annihilates a b first second
    have apart : (a + b) * (k - j) = 0 := by
      calc (a + b) * (k - j) = (a * k + b * (k - 1)) - (a * j + b * (j - 1)) := by ring
        _ = 0 := by rw [first, second, sub_zero]
    calc a = (a * j + b * (j - 1)) - (a + b) * (j - 1) := by ring
      _ = 0 := by rw [first, annihilates _ apart, sub_zero]

end Equations

/-- Half of the modulus times an even point is zero. -/
theorem half_mul_even {j : Nat} (even : Even j) :
    (0x8000000000000000 : BitVec 64) * ((j : ℤ) : BitVec 64) = 0 := by
  obtain ⟨m, rfl⟩ := even
  have half : (0x8000000000000000 : BitVec 64) * 2 = 0 := by decide
  rw [Nat.cast_add, Int.cast_add, ← two_mul, ← mul_assoc, half, zero_mul]

/-- Which two words make a pair of shares vanish. -/
theorem pair_determines_iff {j k : Nat} (positive : 1 ≤ j) (less : j < k) :
    (∀ a b : BitVec 64,
      a * ((j : ℤ) : BitVec 64) + b * (weight j 1 : BitVec 64) = 0 →
      a * ((k : ℤ) : BitVec 64) + b * (weight k 1 : BitVec 64) = 0 → a = 0) ↔
    Odd (j + k) ∨ Odd j ∧ Nat.gcd (k - j) (2 ^ 64) ∣ j - 1 := by
  have cancel : Odd (j + k) → ∀ u : BitVec 64,
      u * (((j : ℤ) : BitVec 64) + ((k : ℤ) : BitVec 64)) = 0 → u = 0 := by
    intro mixed u
    rw [← Int.cast_add]
    exact (forall_mul_eq_zero_iff_odd (by omega) _).mpr (by exact_mod_cast mixed) u
  rcases weight_one j with ⟨parityJ, wj⟩ | ⟨parityJ, wj⟩
  · rcases weight_one k with ⟨parityK, wk⟩ | ⟨parityK, wk⟩
    · have neither : ¬(Odd (j + k) ∨ Odd j ∧ Nat.gcd (k - j) (2 ^ 64) ∣ j - 1) := by
        rintro (sum | ⟨odd, -⟩)
        · exact Nat.not_odd_iff_even.mpr (parityJ.add parityK) sum
        · exact Nat.not_odd_iff_even.mpr parityJ odd
      refine iff_of_false (fun injective => ?_) neither
      have zero := injective 0x8000000000000000 0
        (by rw [half_mul_even parityJ, zero_mul, add_zero])
        (by rw [half_mul_even parityK, zero_mul, add_zero])
      exact absurd zero (by decide)
    · have mixed : Odd (j + k) := parityJ.add_odd parityK
      refine iff_of_true (fun a b first second => ?_) (.inl mixed)
      rw [wj, Int.cast_add, Int.cast_one] at first
      rw [wk, Int.cast_sub, Int.cast_one] at second
      exact eq_zero_of_mixed (by simpa only [add_comm] using cancel mixed) second first
  · rcases weight_one k with ⟨parityK, wk⟩ | ⟨parityK, wk⟩
    · have mixed : Odd (j + k) := parityJ.add_even parityK
      refine iff_of_true (fun a b first second => ?_) (.inl mixed)
      rw [wj, Int.cast_sub, Int.cast_one] at first
      rw [wk, Int.cast_add, Int.cast_one] at second
      exact eq_zero_of_mixed (cancel mixed) first second
    · have same : ¬Odd (j + k) := Nat.not_odd_iff_even.mpr (parityJ.add_odd parityK)
      have divisor : (Int.gcd ((k : ℤ) - j) (2 ^ 64) : ℤ) ∣ (j : ℤ) - 1 ↔
          Nat.gcd (k - j) (2 ^ 64) ∣ j - 1 := by
        rw [← Nat.cast_sub less.le, ← Nat.cast_one, ← Nat.cast_sub positive,
          Int.natCast_dvd_natCast]
        rfl
      rw [wj, wk, Int.cast_sub, Int.cast_sub, Int.cast_one, forall_odd_pair_iff, ← divisor,
        ← forall_mul_intCast_iff]
      simp only [Int.cast_sub, Int.cast_one, same, parityJ, false_or, true_and]

/-- The condition on two shares with threshold one. -/
theorem determines_one_iff (inside : ∀ j ∈ indices, 1 ≤ j ∧ j ≤ n) (two : indices.card = 2) :
    Determines n 1 indices ↔ ∀ j ∈ indices, ∀ k ∈ indices, j < k →
      Odd (j + k) ∨ Odd j ∧ Nat.gcd (k - j) (2 ^ 64) ∣ j - 1 := by
  obtain ⟨j, k, apart, rfl⟩ := Finset.card_eq_two.mp two
  wlog less : j < k generalizing j k
  · rw [Finset.pair_comm] at inside two ⊢
    exact this k j apart.symm inside two (by omega)
  have positive := (inside j (Finset.mem_insert_self j {k})).1
  rw [determines_pair_iff inside, pair_determines_iff positive less]
  simp only [Finset.mem_insert, Finset.mem_singleton, forall_eq_or_imp, forall_eq, Nat.lt_irrefl,
    less, Nat.not_lt_of_lt less, false_implies, true_implies, true_and, and_true]

/-- Any `t + 1` shares determine the secret exactly when their indices are as
`Determining` says; from threshold two on no indices are. -/
theorem determines_iff (inside : ∀ j ∈ indices, 1 ≤ j ∧ j ≤ n) (size : indices.card = t + 1) :
    Determines n t indices ↔ Determining t indices := by
  match t, size with
  | 0, one => simp [Determining, determines_zero_iff inside one]
  | 1, two => simp [Determining, determines_one_iff inside two]
  | t + 2, _ =>
    refine iff_of_false (not_determines_of_two inside (by omega)) ?_
    rintro (⟨impossible, -⟩ | ⟨impossible, -⟩)
    · omega
    · omega

/-- The equivalence for the first two of ten shares. -/
theorem first_two_determine_iff : Determines 10 1 {1, 2} ↔ Determining 1 {1, 2} :=
  determines_iff (by decide) (by decide)

/-- Four of the ten shares at threshold three leave the secret open. -/
theorem four_shares_may_not_determine : ¬ ∀ (n t : Nat) (indices : Finset Nat), t < n →
    (∀ j ∈ indices, 1 ≤ j ∧ j ≤ n) → indices.card = t + 1 → Determines n t indices := by
  intro all
  have inside : ∀ j ∈ ({1, 2, 3, 4} : Finset Nat), 1 ≤ j ∧ j ≤ 10 := by decide
  exact not_determines_of_two inside (show 2 ≤ 3 by decide)
    (all 10 3 {1, 2, 3, 4} (by decide) inside (by decide))

end SimpleOprf.Yao
