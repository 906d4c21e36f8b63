import Mathlib.Data.Nat.ModEq
import Mathlib.Tactic.LinearCombination
import SimpleOprf.Yao.SecretSharing

/-!
# What fewer shares hide

The shares of `t` servers have equally many explanations for two secrets exactly
when the other coefficients can make up for the difference of the secrets. From
threshold two on they always can; at threshold one a server with an odd index
sees its secret modulo a power of two.
-/

namespace SimpleOprf.Yao

open SimpleOprf.Basis

/-- How many choices of `coef[1..t]` give the servers in `indices` the shares `v`. -/
noncomputable def explanations (n : Nat) {t : Nat} (indices : Finset Nat) (secret : M128i)
    (v : indices → M128i) : Nat :=
  Nat.card {c : Fin t → M128i //
    ∀ j : indices, (shares n (Fin.cons secret c : Fin (t + 1) → M128i))[j.val]? = some (v j)}

/-- Other coefficients make up for the difference `d` of two secrets in one lane. -/
def Absorbs (t : Nat) (indices : Finset Nat) (d : BitVec 64) : Prop :=
  ∃ x : Fin t → BitVec 64, ∀ j ∈ indices,
    laneShare x (fun i => weight j (i + 1)) = d * ((j : ℤ) : BitVec 64)

variable {n t : Nat} {indices : Finset Nat}

/-- The contribution of the random coefficients to the shares. -/
def maskShares (t : Nat) (indices : Finset Nat) : (Fin t → M128i) →+ (indices → M128i) where
  toFun c j := (laneShare (fun i => (c i).1) fun i => weight j (i + 1),
    laneShare (fun i => (c i).2) fun i => weight j (i + 1))
  map_zero' := by
    funext j
    simp [laneShare]
  map_add' c c' := by
    funext j
    exact Prod.ext (laneShare_add _ _ _) (laneShare_add _ _ _)

/-- The contribution of the secret to the shares. -/
def secretShares (indices : Finset Nat) (secret : M128i) : indices → M128i := fun j =>
  (secret.1 * ((j.val : ℤ) : BitVec 64), secret.2 * ((j.val : ℤ) : BitVec 64))

theorem share_cons (secret : M128i) (c : Fin t → M128i) (j : indices) :
    share (Fin.cons secret c : Fin (t + 1) → M128i) j =
      (secretShares indices secret + maskShares t indices c) j := by
  rw [share_lanes, laneShare_succ, laneShare_succ]
  simp only [Fin.cons_zero, Fin.cons_succ, Fin.val_zero, weight_zero, Fin.val_succ]
  rfl

instance instFiniteM128i : Finite M128i :=
  Finite.of_equiv (Fin (2 ^ 64) × Fin (2 ^ 64))
    (BitVec.equivFin.toEquiv.symm.prodCongr BitVec.equivFin.toEquiv.symm)

/-- Equally many explanations for all shares mean that the difference of the
secrets is absorbed in both lanes. -/
theorem explanations_eq_iff_absorbs (inside : ∀ j ∈ indices, 1 ≤ j ∧ j ≤ n) (s s' : M128i) :
    (∀ v, explanations (t := t) n indices s v = explanations (t := t) n indices s' v) ↔
      Absorbs t indices (s.1 - s'.1) ∧ Absorbs t indices (s.2 - s'.2) := by
  have count : ∀ secret v, explanations (t := t) n indices secret v =
      Nat.card {c // secretShares indices secret + maskShares t indices c = v} := by
    intro secret v
    refine Nat.card_congr (Equiv.subtypeEquivRight fun c => ?_)
    rw [funext_iff]
    refine forall_congr' fun j => ?_
    rw [getElem?_shares _ (inside j j.2).1 (inside j j.2).2, share_cons, Option.some_inj]
  simp only [count]
  rw [card_masks_eq_iff]
  constructor
  · rintro ⟨c, reached⟩
    refine ⟨⟨fun i => (c i).1, fun j member => ?_⟩, fun i => (c i).2, fun j member => ?_⟩
    · rw [sub_mul]
      exact congrArg Prod.fst (congrFun reached ⟨j, member⟩)
    · rw [sub_mul]
      exact congrArg Prod.snd (congrFun reached ⟨j, member⟩)
  · rintro ⟨⟨x, first⟩, y, second⟩
    refine ⟨fun i => (x i, y i), funext fun j => Prod.ext ?_ ?_⟩
    · exact (first j j.2).trans (sub_mul _ _ _)
    · exact (second j j.2).trans (sub_mul _ _ _)

/-! ## Thresholds above one -/

/-- The weights one, two and three make up for the point itself. -/
theorem absorbs_of_three (large : 3 ≤ t) (d : BitVec 64) : Absorbs t indices d := by
  refine ⟨listed [d, d, -d] t, fun j _ => ?_⟩
  have sum : (j : ℤ) = weight j 1 + weight j 2 - weight j 3 := by
    obtain ⟨q, cases⟩ := weight_cases j
    omega
  rw [laneShare_listed (show 3 ≤ t from large) fun i => weight j (i + 1), sum, Int.cast_sub,
    Int.cast_add]
  simp only [List.length_cons, List.length_nil, Finset.sum_range_succ, Finset.sum_range_zero,
    List.getD_cons_zero, List.getD_cons_succ]
  ring

/-- A point is a combination of its two weights, with coefficients that depend on
whether its last two bits agree. -/
theorem point_of_weights (j : Nat) :
    (j : ℤ) = 2 * weight j 1 - weight j 2 ∨ 3 * (j : ℤ) = 2 * weight j 1 + weight j 2 := by
  obtain ⟨q, cases⟩ := weight_cases j
  omega

/-- Between a point of the first kind and one of the second the determinant of the
weights has at most one factor two. -/
theorem not_four_dvd_determinant {j k : Nat} (first : (j : ℤ) = 2 * weight j 1 - weight j 2)
    (second : 3 * (k : ℤ) = 2 * weight k 1 + weight k 2) :
    ¬(2 ^ 2 : ℤ) ∣ weight j 2 * weight k 1 - weight j 1 * weight k 2 := by
  rintro ⟨z, determinant⟩
  have residueJ : weight j 1 % 4 = 1 ∧ weight j 2 % 4 = 2 ∨
      weight j 1 % 4 = 2 ∧ weight j 2 % 4 = 1 := by
    obtain ⟨q, cases⟩ := weight_cases j
    omega
  have residueK : weight k 1 % 4 = 0 ∧ weight k 2 % 4 = 3 ∨
      weight k 1 % 4 = 3 ∧ weight k 2 % 4 = 0 := by
    obtain ⟨q, cases⟩ := weight_cases k
    omega
  have residue : (weight j 2 * weight k 1 - weight j 1 * weight k 2) % 4 = 0 := by
    rw [determinant]
    exact Int.mul_emod_right 4 z
  rw [Int.sub_emod, Int.mul_emod, Int.mul_emod (weight j 1)] at residue
  rcases residueJ with ⟨j1, j2⟩ | ⟨j1, j2⟩
  · rcases residueK with ⟨k1, k2⟩ | ⟨k1, k2⟩
    · rw [j1, j2, k1, k2] at residue
      omega
    · rw [j1, j2, k1, k2] at residue
      omega
  · rcases residueK with ⟨k1, k2⟩ | ⟨k1, k2⟩
    · rw [j1, j2, k1, k2] at residue
      omega
    · rw [j1, j2, k1, k2] at residue
      omega

section Equations

variable {R : Type*} [CommRing R] {d u third j j1 j2 k k1 k2 : R}

/-- Two coefficients that reach a point of each kind. -/
theorem solves_mixed (first : j = 2 * j1 - j2) (second : 3 * k = 2 * k1 + k2)
    (scaled : u * (j2 * k1 - j1 * k2) = 4 * (d * (k - k1))) :
    (2 * d + u * j2) * j1 + (-d - u * j1) * j2 = d * j ∧
      (2 * d + u * j2) * k1 + (-d - u * j1) * k2 = d * k := by
  constructor
  · rw [first]
    ring
  · linear_combination scaled + d * second

/-- Coefficients that solve the equation of a point of the first kind. -/
theorem solves_first (first : j = 2 * j1 - j2) : 2 * d * j1 + -d * j2 = d * j := by
  rw [first]
  ring

/-- Coefficients that solve the equation of a point of the second kind. -/
theorem solves_second (inverse : third * 3 = 1) (second : 3 * j = 2 * j1 + j2) :
    2 * (d * third) * j1 + d * third * j2 = d * j := by
  linear_combination (d * j) * inverse - d * third * second

end Equations

/-- Two coefficients for the two points. -/
theorem absorbs_pair_iff {j k : Nat} (d : BitVec 64) :
    Absorbs 2 {j, k} d ↔ ∃ a b : BitVec 64,
      a * (weight j 1 : BitVec 64) + b * (weight j 2 : BitVec 64) = d * ((j : ℤ) : BitVec 64) ∧
      a * (weight k 1 : BitVec 64) + b * (weight k 2 : BitVec 64) = d * ((k : ℤ) : BitVec 64) := by
  have expand : ∀ (x : Fin 2 → BitVec 64) (i : Nat), laneShare x (fun l => weight i (l + 1)) =
      x 0 * (weight i 1 : BitVec 64) + x 1 * (weight i 2 : BitVec 64) := by
    intro x i
    rw [laneShare, Fin.sum_univ_two]
    rfl
  simp only [Absorbs, Finset.mem_insert, Finset.mem_singleton, forall_eq_or_imp, forall_eq, expand]
  constructor
  · rintro ⟨x, solved⟩
    exact ⟨x 0, x 1, solved⟩
  · rintro ⟨a, b, solved⟩
    exact ⟨![a, b], solved⟩

/-- A pair of shares of these two kinds is absorbed. -/
theorem absorbs_pair_mixed {j k : Nat} (first : (j : ℤ) = 2 * weight j 1 - weight j 2)
    (second : 3 * (k : ℤ) = 2 * weight k 1 + weight k 2) (d : BitVec 64) :
    Absorbs 2 {j, k} d := by
  have divides := gcd_dvd_of_not_dvd (w := 64) (not_four_dvd_determinant first second)
  obtain ⟨u, reached⟩ := (exists_mul_intCast_eq_iff (w := 64) _ _).mpr divides
  have castFirst := congrArg (Int.cast : ℤ → BitVec 64) first
  have castSecond := congrArg (Int.cast : ℤ → BitVec 64) second
  rw [Int.cast_sub, Int.cast_mul, Int.cast_ofNat] at castFirst
  rw [Int.cast_mul, Int.cast_add, Int.cast_mul, Int.cast_ofNat, Int.cast_ofNat] at castSecond
  rw [Int.cast_sub, Int.cast_mul, Int.cast_mul, Int.cast_pow, Int.cast_ofNat] at reached
  rw [absorbs_pair_iff]
  refine ⟨_, _, solves_mixed (u := u * (d * (((k : ℤ) : BitVec 64) - (weight k 1 : BitVec 64))))
    castFirst castSecond ?_⟩
  linear_combination (d * (((k : ℤ) : BitVec 64) - (weight k 1 : BitVec 64))) * reached

/-- Two shares are absorbed with threshold two. -/
theorem absorbs_of_two (two : indices.card = 2) (d : BitVec 64) : Absorbs 2 indices d := by
  obtain ⟨j, k, -, rfl⟩ := Finset.card_eq_two.mp two
  have inverse : (0xaaaaaaaaaaaaaaab : BitVec 64) * 3 = 1 := by decide
  have first : ∀ {i : Nat}, (i : ℤ) = 2 * weight i 1 - weight i 2 → ((i : ℤ) : BitVec 64) =
      2 * (weight i 1 : BitVec 64) - (weight i 2 : BitVec 64) := by
    intro i equation
    have cast := congrArg (Int.cast : ℤ → BitVec 64) equation
    rwa [Int.cast_sub, Int.cast_mul, Int.cast_ofNat] at cast
  have second : ∀ {i : Nat}, 3 * (i : ℤ) = 2 * weight i 1 + weight i 2 →
      3 * ((i : ℤ) : BitVec 64) = 2 * (weight i 1 : BitVec 64) + (weight i 2 : BitVec 64) := by
    intro i equation
    have cast := congrArg (Int.cast : ℤ → BitVec 64) equation
    rwa [Int.cast_mul, Int.cast_add, Int.cast_mul, Int.cast_ofNat, Int.cast_ofNat] at cast
  rcases point_of_weights j with kindJ | kindJ
  · rcases point_of_weights k with kindK | kindK
    · exact (absorbs_pair_iff d).mpr
        ⟨_, _, solves_first (first kindJ), solves_first (first kindK)⟩
    · exact absorbs_pair_mixed kindJ kindK d
  · rcases point_of_weights k with kindK | kindK
    · rw [Finset.pair_comm]
      exact absorbs_pair_mixed kindK kindJ d
    · exact (absorbs_pair_iff d).mpr
        ⟨_, _, solves_second inverse (second kindJ), solves_second inverse (second kindK)⟩

/-! ## Threshold one -/

/-- One random coefficient hides the secret from an even point, and from an odd
point only up to the divisor of its weight. -/
theorem absorbs_one_iff {j : Nat} (positive : 1 ≤ j) (s s' : BitVec 64) :
    Absorbs 1 {j} (s - s') ↔
      Even j ∨ s.toNat ≡ s'.toNat [MOD Nat.gcd (j - 1) (2 ^ 64)] := by
  have expand : Absorbs 1 {j} (s - s') ↔ ∃ x : BitVec 64, x * (weight j 1 : BitVec 64) =
      (((s.toNat - s'.toNat) * j : ℤ) : BitVec 64) := by
    rw [Int.cast_mul, Int.cast_sub, intCast_toNat, intCast_toNat]
    simp only [Absorbs, Finset.mem_singleton, forall_eq, laneShare, Fin.sum_univ_one]
    exact ⟨fun ⟨x, solved⟩ => ⟨x 0, solved⟩, fun ⟨a, solved⟩ => ⟨fun _ => a, solved⟩⟩
  rw [expand, exists_mul_intCast_eq_iff]
  rcases weight_one j with ⟨even, weightJ⟩ | ⟨odd, weightJ⟩
  · have odd : Odd (weight j 1) := by
      rw [weightJ]
      exact (by exact_mod_cast even : Even (j : ℤ)).add_one
    rw [gcd_of_odd odd]
    exact iff_of_true (one_dvd _) (.inl even)
  · have notEven : ¬Even j := Nat.not_even_iff_odd.mpr odd
    have divisor : (Int.gcd (weight j 1) (2 ^ 64) : ℤ) = (Nat.gcd (j - 1) (2 ^ 64) : ℕ) := by
      rw [weightJ, ← Nat.cast_one, ← Nat.cast_sub positive]
      rfl
    have coprime : IsCoprime ((Nat.gcd (j - 1) (2 ^ 64) : ℕ) : ℤ) (j : ℤ) := by
      have power : IsCoprime (2 ^ 64 : ℤ) (j : ℤ) :=
        (Int.isCoprime_two_left.mpr (by exact_mod_cast odd)).pow_left
      exact power.of_isCoprime_of_dvd_left (by exact_mod_cast Nat.gcd_dvd_right (j - 1) (2 ^ 64))
    rw [divisor, Nat.modEq_iff_dvd, dvd_sub_comm]
    simp only [notEven, false_or]
    exact ⟨coprime.dvd_of_dvd_mul_right, fun divides => divides.mul_right _⟩

/-- The shares of `t` servers say equally much about two secrets exactly when the
threshold is above one, the index is even, or the secrets agree in both lanes
modulo the divisor of the index minus one. -/
theorem explanations_eq_iff (positive : 1 ≤ t) (inside : ∀ j ∈ indices, 1 ≤ j ∧ j ≤ n)
    (size : indices.card = t) (s s' : M128i) :
    (∀ v, explanations (t := t) n indices s v = explanations (t := t) n indices s' v) ↔
      2 ≤ t ∨ ∀ j ∈ indices, Even j ∨
        s.1.toNat ≡ s'.1.toNat [MOD Nat.gcd (j - 1) (2 ^ 64)] ∧
        s.2.toNat ≡ s'.2.toNat [MOD Nat.gcd (j - 1) (2 ^ 64)] := by
  rw [explanations_eq_iff_absorbs inside]
  match t, size with
  | 0, _ => omega
  | 1, one =>
    obtain ⟨j, rfl⟩ := Finset.card_eq_one.mp one
    have first := (inside j (Finset.mem_singleton_self j)).1
    rw [absorbs_one_iff first, absorbs_one_iff first, ← or_and_left]
    simp only [Nat.reduceLeDiff, false_or, Finset.mem_singleton, forall_eq]
  | 2, two => exact iff_of_true ⟨absorbs_of_two two _, absorbs_of_two two _⟩ (.inl le_rfl)
  | t + 3, _ =>
    exact iff_of_true ⟨absorbs_of_three (by omega) _, absorbs_of_three (by omega) _⟩
      (.inl (by omega))

/-- The condition for the default parameters. -/
theorem default_shares_hide_secret :
    (∀ v, explanations (t := 3) 10 {1, 2, 3} (0, 0) v =
      explanations (t := 3) 10 {1, 2, 3} (1, 0) v) ↔
    2 ≤ 3 ∨ ∀ j ∈ ({1, 2, 3} : Finset Nat), Even j ∨
      (0 : BitVec 64).toNat ≡ (1 : BitVec 64).toNat [MOD Nat.gcd (j - 1) (2 ^ 64)] ∧
      (0 : BitVec 64).toNat ≡ (0 : BitVec 64).toNat [MOD Nat.gcd (j - 1) (2 ^ 64)] :=
  explanations_eq_iff (by decide) (by decide) (by decide) (0, 0) (1, 0)

/-- At threshold one the first share is the secret. -/
theorem first_share_may_tell_secret : ¬ ∀ (n t : Nat) (indices : Finset Nat), 1 ≤ t → t < n →
    (∀ j ∈ indices, 1 ≤ j ∧ j ≤ n) → indices.card = t → ∀ (s s' : M128i) v,
      explanations (t := t) n indices s v = explanations (t := t) n indices s' v := by
  intro all
  have absorbed := ((explanations_eq_iff_absorbs (t := 1) (n := 2) (by decide) (1, 0) (0, 0)).mp
    (all 2 1 {1} (by decide) (by decide) (by decide) (by decide) _ _)).1
  rcases (absorbs_one_iff le_rfl 1 0).mp absorbed with even | same
  · exact absurd even (by decide)
  · exact absurd same (by decide)

end SimpleOprf.Yao
