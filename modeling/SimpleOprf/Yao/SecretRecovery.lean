import Mathlib.LinearAlgebra.Lagrange
import Mathlib.Tactic.FieldSimp
import Mathlib.Tactic.LinearCombination
import SimpleOprf.Basis.Loops
import SimpleOprf.Yao.SecretSharing

/-!
# Reconstruction by the evaluator

The evaluator masks its shares, unmasks them and interpolates them at zero and at
the servers beyond `t + 1`. A basis polynomial is computed as a product of
quotients of `int`s, each rounded towards zero, in the low lane of a vector whose
high lane is zero.
-/

namespace SimpleOprf.Yao

open SimpleOprf.Basis

/-- A vector times an `int`. -/
def M128i.scaleInt (x : M128i) (k : ℤ) : M128i := (x.1 * BitVec.ofInt 64 k, x.2 * BitVec.ofInt 64 k)

/-- `_mm_xor_si128`. -/
def M128i.xor (x y : M128i) : M128i := (x.1 ^^^ y.1, x.2 ^^^ y.2)

/-- The targets that are interpolated: the secret and the servers beyond `t + 1`. -/
def interpolated (t target : Nat) : Bool := target == 0 || decide (t + 1 < target)

/-- `(points[j] - target) / (points[j] - points[i])` of `int`s. -/
def quotient (n target i j : Nat) : ℤ :=
  (((points n).getD j 0 : ℤ) - target).tdiv (((points n).getD j 0 : ℤ) - (points n).getD i 0)

/-- `res[i][target]`, which starts as `_mm_setr_epi32(1, 0, 0, 0)`. -/
def res (n t i target : Nat) : M128i :=
  (List.range (t + 1)).foldl (fun acc j =>
    if j + 1 ≠ i then
      if interpolated t target then acc.scaleInt (quotient n target i (j + 1)) else acc
    else acc) (1, 0)

/-- The loop over the oblivious evaluations: `e_i`, and the share again. -/
def unmasked (shares rou : List M128i) : List M128i :=
  List.zipWith (fun share rou => (share.xor rou).xor rou) shares rou

/-- The sum for one target, which reads the first `t + 1` shares. -/
def interpolate (n t : Nat) (shares : List M128i) (target : Nat) : List M128i :=
  (List.range (t + 1)).foldl (fun shares i =>
    shares.modify target (· + shares.getD (i + 1) 0 * res n t (i + 1) target)) shares

/-- The shares after the reconstruction. -/
def reconstruct (n t : Nat) (shares : List M128i) : List M128i :=
  let cleared := shares.mapIdx fun target share => if interpolated t target then 0 else share
  ((List.range (n + 1)).filter (interpolated t)).foldl (interpolate n t) cleared

/-- The secret that a run shares and recovers, with the masks of its shares. -/
def recovered (n : Nat) {t : Nat} (coef : Fin (t + 1) → M128i) (rou : List M128i) : M128i :=
  (reconstruct n t (secretOf coef :: unmasked (shares n coef).tail rou)).getD 0 0

variable {n t : Nat}

@[simp] theorem M128i.xor_xor (x y : M128i) : (x.xor y).xor y = x := by
  simp only [M128i.xor, BitVec.xor_assoc, BitVec.xor_self, BitVec.xor_zero]

/-- The masks cancel out. -/
theorem unmasked_eq {shares rou : List M128i} (all : rou.length = shares.length) :
    unmasked shares rou = shares := by
  refine List.ext_getElem (by simp [unmasked, all]) fun i left right => ?_
  simp [unmasked]

/-! ## The basis -/

/-- The low lane of `res[i][target]` over the integers. -/
def basis (t i target : Nat) : ℤ :=
  ∏ j ∈ Finset.range (t + 1), if j + 1 = i then 1
    else ((j + 1 : ℤ) - target).tdiv ((j + 1 : ℤ) - i)

/-- One factor of a coefficient. -/
theorem quotient_eq {target i j : Nat} (fits : t < n) (own : i ≤ t + 1) (other : j ≤ t) :
    quotient n target i (j + 1) = ((j + 1 : ℤ) - target).tdiv ((j + 1 : ℤ) - i) := by
  have points : ∀ k ≤ t + 1, (points n).getD k 0 = k := fun k small => by
    rw [List.getD_eq_getElem?_getD, getElem?_points (by omega), Option.getD_some]
  rw [quotient, points _ (by omega), points _ own, Nat.cast_succ]

/-- The product of the factors, as the loop computes it. -/
theorem res_eq {i target : Nat} (fits : t < n) (own : i ≤ t + 1)
    (needed : interpolated t target = true) :
    res n t i target = ((basis t i target : BitVec 64), 0) := by
  have step : ∀ m ≤ t + 1, (List.range m).foldl (fun acc j =>
      if j + 1 ≠ i then
        if interpolated t target then M128i.scaleInt acc (quotient n target i (j + 1)) else acc
      else acc) (1, 0) =
      (((∏ j ∈ Finset.range m, if j + 1 = i then 1
        else ((j + 1 : ℤ) - target).tdiv ((j + 1 : ℤ) - i) : ℤ) : BitVec 64), (0 : BitVec 64)) := by
    intro m
    induction m with
    | zero => exact fun _ => by simp
    | succ m ih =>
      intro small
      rw [List.range_succ, List.foldl_append, ih (by omega), Finset.prod_range_succ]
      by_cases same : m + 1 = i
      · simp [same]
      · have other := @quotient_eq n t target i m fits own (by omega)
        rw [List.foldl_cons, List.foldl_nil, if_pos same, if_pos needed, if_neg same, Int.cast_mul,
          M128i.scaleInt, other, zero_mul]
        rfl
  exact step (t + 1) le_rfl

/-! ## The sums -/

/-- Only the target changes. -/
theorem getD_interpolate_of_ne {target k : Nat} (other : k ≠ target) (shares : List M128i) :
    (interpolate n t shares target).getD k 0 = shares.getD k 0 := by
  refine @foldl_untouched _ _ _ _ _ (fun shares k => List.getD shares k 0) (fun _ => target)
    (fun shares i k other => ?_) _ _ (fun _ _ => other) shares
  simp [List.getD_eq_getElem?_getD, Ne.symm other]

/-- No target is one of the shares that its sum reads. -/
theorem ne_of_interpolated {target i : Nat} (needed : interpolated t target = true)
    (small : i ≤ t) : i + 1 ≠ target := by
  simp only [interpolated, Bool.or_eq_true, beq_iff_eq, decide_eq_true_eq] at needed
  omega

theorem length_interpolate (shares : List M128i) (target : Nat) :
    (interpolate n t shares target).length = shares.length := by
  unfold interpolate
  induction List.range (t + 1) generalizing shares with
  | nil => rfl
  | cons i rest ih => rw [List.foldl_cons, ih, List.length_modify]

/-- The target becomes a sum of weighted shares. -/
theorem getD_interpolate {target : Nat} (needed : interpolated t target = true)
    {shares : List M128i} (inside : target < shares.length) :
    (interpolate n t shares target).getD target 0 = shares.getD target 0 +
      ∑ i ∈ Finset.range (t + 1), shares.getD (i + 1) 0 * res n t (i + 1) target := by
  have step : ∀ m ≤ t + 1, (List.range m).foldl (fun shares i =>
      shares.modify target (· + shares.getD (i + 1) 0 * res n t (i + 1) target)) shares =
      shares.modify target
        (· + ∑ i ∈ Finset.range m, shares.getD (i + 1) 0 * res n t (i + 1) target) := by
    intro m
    induction m with
    | zero => exact fun _ => List.ext_getElem? fun k => by simp [List.getElem?_modify]
    | succ m ih =>
      intro small
      have apart := ne_of_interpolated needed (show m ≤ t by omega)
      rw [List.range_succ, List.foldl_append, ih (by omega), Finset.sum_range_succ]
      refine List.ext_getElem? fun k => ?_
      by_cases same : target = k
      · subst same
        simp [List.getD_eq_getElem?_getD, Ne.symm apart, add_assoc, Function.comp_def]
      · simp [List.getElem?_modify, same]
  rw [interpolate, step (t + 1) le_rfl]
  simp [List.getD_eq_getElem?_getD, inside]

/-- An interpolated share is the sum of the first `t + 1` with the basis as weights. -/
theorem getD_reconstruct {target : Nat} (needed : interpolated t target = true) (small : target ≤ n)
    {shares : List M128i} (sized : shares.length = n + 1) :
    (reconstruct n t shares).getD target 0 =
      ∑ i ∈ Finset.range (t + 1), shares.getD (i + 1) 0 * res n t (i + 1) target := by
  have member : target ∈ (List.range (n + 1)).filter (interpolated t) :=
    List.mem_filter.mpr ⟨List.mem_range.mpr (by omega), needed⟩
  obtain ⟨before, after, split⟩ := List.append_of_mem member
  have once : (before ++ target :: after).Nodup := split ▸ List.nodup_range.filter _
  obtain ⟨absent, -⟩ := List.nodup_cons.mp (List.nodup_middle.mp once)
  have targets : ∀ k ∈ before, interpolated t k = true := fun k found =>
    (List.mem_filter.mp (split ▸ List.mem_append_left _ found)).2
  set cleared := shares.mapIdx fun target share => if interpolated t target then 0 else share
    with clearing
  have frame : ∀ (shares : List M128i) (target k : Nat), k ≠ target →
      (interpolate n t shares target).getD k 0 = shares.getD k 0 :=
    fun shares _ _ other => getD_interpolate_of_ne other shares
  have earlier : ∀ k, k ∉ before →
      (before.foldl (interpolate n t) cleared).getD k 0 = cleared.getD k 0 := fun k outside =>
    @foldl_untouched _ _ _ _ _ (fun shares k => List.getD shares k 0) id frame _ _
      (fun target found same => outside (by rwa [same])) cleared
  have kept : ∀ shares, (before.foldl (interpolate n t) shares).length = shares.length := by
    intro shares
    clear absent targets once earlier split
    induction before generalizing shares with
    | nil => rfl
    | cons first rest ih => rw [List.foldl_cons, ih, length_interpolate]
  have final : ((before ++ target :: after).foldl (interpolate n t) cleared).getD target 0 =
      (interpolate n t (before.foldl (interpolate n t) cleared) target).getD target 0 :=
    @foldl_written _ _ _ _ _ (fun shares k => List.getD shares k 0) id frame _ _ _
      (fun other found same => absent (List.mem_append_right _ (by rwa [show target = other from same]))) cleared
  have lookup : ∀ k, cleared.getD k 0 = if interpolated t k then 0 else shares.getD k 0 := by
    intro k
    rcases Nat.lt_or_ge k shares.length with inside | beyond
    · simp [clearing, List.getD_eq_getElem?_getD, inside]
    · simp [clearing, List.getD_eq_getElem?_getD, beyond]
  rw [reconstruct, ← clearing, split]
  refine final.trans ?_
  rw [getD_interpolate needed (by rw [kept, clearing, List.length_mapIdx, sized]; omega),
    earlier _ (fun found => absent (List.mem_append_left _ found)), lookup, if_pos needed, zero_add]
  refine Finset.sum_congr rfl fun i read => ?_
  have below : i ≤ t := by rw [Finset.mem_range] at read; omega
  have plain : interpolated t (i + 1) = false := by simp [interpolated]; omega
  rw [earlier _ (fun found => by rw [targets _ found] at plain; cases plain), lookup, plain]
  rfl

/-! ## At zero -/

/-- The weight of the second share. -/
def secondWeight (t : Nat) : ℤ := if t = 1 then -1 else if t = 2 then -3 else -6

/-- The weight of the first share at zero. -/
theorem basis_one (positive : 1 ≤ t) : basis t 1 0 = 2 := by
  rw [basis, Finset.prod_eq_single 1]
  · rfl
  · intro j _ other
    rcases Nat.eq_zero_or_pos j with rfl | later
    · rfl
    · rw [if_neg (by omega)]
      have quotient : ((j : ℤ) + 1 - (0 : ℕ)).tdiv ((j : ℤ) + 1 - (1 : ℕ)) =
          (((j + 1) / j : ℕ) : ℤ) := by
        rw [Int.natCast_div, Int.tdiv_eq_ediv_of_nonneg (by omega)]
        push_cast
        ring_nf
      rw [quotient, Nat.div_eq_of_lt_le (k := 1) (by omega) (by omega)]
      rfl
  · intro absent
    exact absurd (Finset.mem_range.mpr (by omega)) absent

/-- The weight of the second share at zero. -/
theorem basis_two (positive : 1 ≤ t) : basis t 2 0 = secondWeight t := by
  have later : ∀ j : Nat, 4 ≤ j → ((j : ℤ) + 1 - (0 : ℕ)).tdiv ((j : ℤ) + 1 - (2 : ℕ)) = 1 := by
    intro j large
    have quotient : ((j : ℤ) + 1 - (0 : ℕ)).tdiv ((j : ℤ) + 1 - (2 : ℕ)) =
        (((j + 1) / (j - 1) : ℕ) : ℤ) := by
      rw [Int.natCast_div, Int.tdiv_eq_ediv_of_nonneg (by omega), Nat.cast_sub (by omega)]
      push_cast
      ring_nf
    rw [quotient, Nat.div_eq_of_lt_le (k := 1) (by omega) (by omega)]
    rfl
  match t, positive with
  | 1, _ => rfl
  | 2, _ => rfl
  | t + 3, _ =>
    have first : Finset.range 4 ⊆ Finset.range (t + 3 + 1) := Finset.range_mono (by omega)
    rw [basis, ← Finset.prod_subset first fun j _ outside => ?_]
    · rfl
    · have large : 4 ≤ j := by rw [Finset.mem_range] at outside; omega
      rw [if_neg (by omega), later j large]

/-- The quotient at the first share is zero from the third share on. -/
theorem basis_of_three {i : Nat} (large : 3 ≤ i) : basis t i 0 = 0 := by
  refine Finset.prod_eq_zero (Finset.mem_range.mpr (Nat.succ_pos t)) ?_
  rw [if_neg (by omega)]
  have quotient : ((0 : ℕ) + 1 - (0 : ℕ) : ℤ).tdiv ((0 : ℕ) + 1 - i) =
      -(1 : ℤ).tdiv (i - 1) := by
    rw [← Int.tdiv_neg]
    congr 1
    omega
  rw [quotient, Int.tdiv_eq_zero_of_lt (by omega) (by omega), neg_zero]

/-- The secret is interpolated from the low lanes of two shares. -/
theorem reconstruct_zero (fits : t < n) (positive : 1 ≤ t) {shares : List M128i}
    (sized : shares.length = n + 1) : (reconstruct n t shares).getD 0 0 =
      ((shares.getD 1 0).1 * ((2 : ℤ) : BitVec 64) +
        (shares.getD 2 0).1 * (secondWeight t : BitVec 64), 0) := by
  have two : Finset.range 2 ⊆ Finset.range (t + 1) := Finset.range_mono (by omega)
  rw [getD_reconstruct rfl (Nat.zero_le n) sized, ← Finset.sum_subset two fun i read outside => ?_,
    Finset.sum_range_succ, Finset.sum_range_one, res_eq fits (by omega) rfl,
    res_eq fits (by omega) rfl, zero_add, basis_one positive, basis_two positive]
  · ext
    · rfl
    · simp
  · rw [Finset.mem_range] at read outside
    rw [res_eq fits (by omega) rfl, basis_of_three (by omega)]
    ext <;> simp

/-! ## Against the basis polynomials -/

/-- The polynomial of `l_i` through the first `t + 1` servers, at a target. -/
noncomputable def lagrange (t i target : Nat) : ℚ :=
  (Lagrange.basis (Finset.Icc 1 (t + 1)) (fun j => (j : ℚ)) i).eval (target : ℚ)

/-- The Lagrange coefficient as a product over all points. -/
theorem lagrange_eq (t i target : Nat) : lagrange t i target =
    ∏ j ∈ Finset.range (t + 1), if j + 1 = i then 1
      else ((j + 1 : ℚ) - target) / ((j + 1 : ℚ) - i) := by
  have shifted : (Finset.Icc 1 (t + 1)).erase i =
      ((Finset.range (t + 1)).filter fun j => j + 1 ≠ i).image (· + 1) := by
    ext j
    simp only [Finset.mem_erase, Finset.mem_Icc, Finset.mem_image, Finset.mem_filter,
      Finset.mem_range]
    constructor
    · rintro ⟨other, positive, small⟩
      exact ⟨j - 1, ⟨by omega, by omega⟩, by omega⟩
    · rintro ⟨k, ⟨small, other⟩, rfl⟩
      exact ⟨other, by omega, by omega⟩
  rw [lagrange, Lagrange.basis, Polynomial.eval_prod, shifted,
    Finset.prod_image fun _ _ _ _ same => Nat.succ.inj same, Finset.prod_filter]
  refine Finset.prod_congr rfl fun j _ => ?_
  by_cases same : j + 1 = i
  · simp [same]
  · rw [if_pos same, if_neg same]
    simp only [Lagrange.basisDivisor, Polynomial.eval_mul, Polynomial.eval_C, Polynomial.eval_sub,
      Polynomial.eval_X]
    rw [Nat.cast_succ, ← neg_sub ((j : ℚ) + 1), ← neg_sub ((j : ℚ) + 1) (target : ℚ), inv_neg,
      neg_mul_neg, div_eq_inv_mul]

/-- At zero the first polynomial is `t + 1`. -/
theorem lagrange_one_zero (t : Nat) : lagrange t 1 0 = t + 1 := by
  rw [lagrange_eq]
  induction t with
  | zero => simp
  | succ t ih =>
    rw [Finset.prod_range_succ, ih, if_neg (by omega)]
    push_cast
    field_simp
    ring

/-- The rounded quotients give the basis polynomials for thresholds up to one. -/
theorem basis_exact_iff : (∀ i ∈ Finset.Icc 1 (t + 1), ∀ target, interpolated t target = true →
    (basis t i target : ℚ) = lagrange t i target) ↔ t ≤ 1 := by
  constructor
  · intro exact
    by_contra large
    have first := exact 1 (Finset.mem_Icc.mpr ⟨le_rfl, by omega⟩) 0 rfl
    rw [basis_one (by omega), lagrange_one_zero] at first
    have equal : (2 : ℤ) = t + 1 := by exact_mod_cast first
    omega
  · intro small i member target _
    rw [Finset.mem_Icc] at member
    rw [lagrange_eq, basis]
    match t, small with
    | 0, _ =>
      obtain rfl : i = 1 := by omega
      simp
    | 1, _ =>
      obtain rfl | rfl : i = 1 ∨ i = 2 := by omega
      · norm_num [Finset.prod_range_succ]
      · norm_num [Finset.prod_range_succ]
        ring

/-! ## What a run recovers -/

theorem length_shares (coef : Fin (t + 1) → M128i) : (shares n coef).length = n + 1 := by
  simp [shares, points]

/-- What the reconstruction returns. -/
theorem recovered_eq (fits : t < n) (positive : 1 ≤ t) (coef : Fin (t + 1) → M128i)
    {rou : List M128i} (all : rou.length = n) : recovered n coef rou =
      ((share coef 1).1 * ((2 : ℤ) : BitVec 64) + (share coef 2).1 * (secondWeight t : BitVec 64), 0) := by
  have rest : (shares n coef).tail.length = n := by
    rw [List.length_tail, length_shares, Nat.add_sub_cancel]
  have whole : secretOf coef :: (shares n coef).tail = shares n coef := rfl
  have held : ∀ j, 1 ≤ j → j ≤ n → (shares n coef).getD j 0 = share coef j := fun j positive inside => by
    rw [List.getD_eq_getElem?_getD, getElem?_shares coef positive inside, Option.getD_some]
  rw [recovered, unmasked_eq (all.trans rest.symm), whole,
    reconstruct_zero fits positive (length_shares coef), held 1 le_rfl (by omega),
    held 2 (by omega) (by omega)]

/-- One minus the weights of the two shares is odd, so it can be divided out. -/
theorem odd_secondWeight (t : Nat) : Odd (1 - (2 + 2 * secondWeight t)) :=
  ⟨-(1 + secondWeight t), by ring⟩

/-- The two shares meet in the secret when it solves one equation. -/
theorem two_shares_meet_iff {R : Type*} [CommRing R] (s a b : R) (w : ℤ) :
    (s * (((1 : ℕ) : ℤ) : R) + a) * ((2 : ℤ) : R) + (s * (((2 : ℕ) : ℤ) : R) + b) * (w : R) = s ↔
      s * ((1 - (2 + 2 * w) : ℤ) : R) = a * ((2 : ℤ) : R) + b * (w : R) := by
  push_cast
  constructor
  · intro meet
    linear_combination -meet
  · intro solves
    linear_combination -solves

/-- Whatever the other coefficients and the masks are, a run recovers one secret
and no other. -/
theorem one_secret_recovered (fits : t < n) (positive : 1 ≤ t) (rest : Fin t → M128i)
    (rou : List M128i) (all : rou.length = n) :
    ∃! secret : M128i, recovered n (Fin.cons secret rest : Fin (t + 1) → M128i) rou = secret := by
  -- A share in its low lane: the point times the secret, and the other coefficients.
  let other (point : Nat) : BitVec 64 :=
    laneShare (fun i => (rest i).1) fun i => weight point i.succ
  have low : ∀ (secret : M128i) (point : Nat),
      (share (Fin.cons secret rest : Fin (t + 1) → M128i) point).1 =
        secret.1 * ((point : ℤ) : BitVec 64) + other point := by
    intro secret point
    rw [share_lanes, laneShare_succ, Fin.val_zero, weight_zero]
    rfl
  set c : BitVec 64 := other 1 * ((2 : ℤ) : BitVec 64) + other 2 * (secondWeight t : BitVec 64)
  have recovers : ∀ secret : M128i,
      recovered n (Fin.cons secret rest : Fin (t + 1) → M128i) rou = secret ↔
        secret.1 * ((1 - (2 + 2 * secondWeight t) : ℤ) : BitVec 64) = c ∧ secret.2 = 0 := by
    intro secret
    rw [recovered_eq fits positive _ all, low, low, Prod.ext_iff]
    exact and_congr (two_shares_meet_iff _ _ _ _) eq_comm
  obtain ⟨u, solves, only⟩ := existsUnique_mul_intCast (w := 64) (by omega)
    (odd_secondWeight t) c.toNat
  rw [intCast_toNat] at solves only
  refine ⟨(u, 0), (recovers _).mpr ⟨solves, rfl⟩, fun secret recovered => ?_⟩
  obtain ⟨first, second⟩ := (recovers secret).mp recovered
  exact Prod.ext (only _ first) second

/-- Three of five servers with a threshold of three. -/
theorem default_run_recovers_one : ∃! secret : M128i,
    recovered 5 (Fin.cons secret fun _ => (1, 1) : Fin 4 → M128i) (List.replicate 5 (7, 9)) = secret :=
  one_secret_recovered (by decide) (by decide) _ _ rfl

end SimpleOprf.Yao
