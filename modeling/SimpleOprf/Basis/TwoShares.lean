import Mathlib.Algebra.Group.Units.Equiv
import Mathlib.SetTheory.Cardinal.Finite
import Mathlib.Tactic.Abel

/-!
# Two additive shares

Each secret of a family is split into a random element and what is missing to
the secret. Whoever probes at most one share of every secret sees the same
distribution for all families: shifting the random elements at the probed second
shares turns one family into another.
-/

namespace SimpleOprf.Basis

variable {ι G : Type} [AddCommGroup G]

/-- The two shares of the secrets `b` under the random elements `r`. -/
def twoShares (b r : ι → G) : ι × Bool → G
  | (i, false) => r i
  | (i, true) => b i - r i

/-- Probes that touch at most one share of every secret. -/
def Apart (probes : Set (ι × Bool)) : Prop :=
  ∀ i, ¬ ((i, false) ∈ probes ∧ (i, true) ∈ probes)

open Classical in
/-- The shift that lets the probed shares of `b` pass for shares of `b'`. -/
noncomputable def absorb (probes : Set (ι × Bool)) (b b' : ι → G) : ι → G := fun i =>
  if (i, true) ∈ probes then b' i - b i else 0

/-- Under the shifted random elements the probed shares stay as they are. -/
theorem twoShares_absorb {probes : Set (ι × Bool)} (apart : Apart probes) (b b' r : ι → G)
    {t : ι × Bool} (probed : t ∈ probes) :
    twoShares b' (r + absorb probes b b') t = twoShares b r t := by
  obtain ⟨i, second⟩ := t
  cases second with
  | false =>
    have other : (i, true) ∉ probes := fun both => apart i ⟨probed, both⟩
    simp only [twoShares, Pi.add_apply, absorb, if_neg other, add_zero]
  | true =>
    simp only [twoShares, Pi.add_apply, absorb, if_pos probed]
    abel

/-- Whatever is required of the probed shares, as many random elements meet it
for one family of secrets as for another. -/
theorem card_twoShares {probes : Set (ι × Bool)} (apart : Apart probes) (b b' : ι → G)
    (shows : ι × Bool → G → Prop) :
    Nat.card {r : ι → G // ∀ t ∈ probes, shows t (twoShares b r t)} =
      Nat.card {r : ι → G // ∀ t ∈ probes, shows t (twoShares b' r t)} := by
  refine Nat.card_congr ((Equiv.addRight (absorb probes b b')).subtypeEquiv fun r => ?_)
  refine forall₂_congr fun t probed => ?_
  rw [Equiv.coe_addRight, twoShares_absorb apart b b' r probed]

end SimpleOprf.Basis
