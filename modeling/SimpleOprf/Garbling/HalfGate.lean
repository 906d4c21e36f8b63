import Mathlib.Algebra.Module.LinearMap.Defs
import Mathlib.Algebra.Field.ZMod
import Mathlib.Data.ZMod.Basic
import Mathlib.Tactic.Module

/-!
# Free-XOR labels and half gates

Labels form a vector space over the two-element field: adding is XOR, and the
label of bit `x` on a wire with zero label `z` is `z + x • δ` for one global
offset `δ`. The select bit of a label is a linear functional with value one at
`δ`. A half-gate table is the pair of ciphertexts a garbler publishes for one
AND gate; `evaluate_table` computes what an evaluator gets from any pair of
active labels, for whatever permute bit went into the generator half.
-/

namespace SimpleOprf.Garbling

variable {L : Type} [AddCommGroup L] [Module (ZMod 2) L]

/-- The active label of a bit. -/
def active (zero delta : L) (bit : ZMod 2) : L := zero + bit • delta

@[simp] theorem active_zero (zero delta : L) : active zero delta 0 = zero := by
  simp [active]

@[simp] theorem active_one (zero delta : L) : active zero delta 1 = zero + delta := by
  simp [active]

/-- Free XOR: adding active labels adds zero labels and bits. -/
theorem active_add (left right delta : L) (x y : ZMod 2) :
    active left delta x + active right delta y = active (left + right) delta (x + y) := by
  unfold active
  module

/-- Shifting the zero label by the offset negates the bit. -/
theorem active_shift (zero delta : L) (x : ZMod 2) :
    active (zero + delta) delta (x + 1) = active zero delta x := by
  have double : ∀ bit : ZMod 2, (1 + (bit + 1)) = bit := by decide
  calc active (zero + delta) delta (x + 1) = zero + (1 + (x + 1)) • delta := by
        unfold active
        module
    _ = active zero delta x := by rw [double, active]

/-- With a nonzero offset the two labels of a wire differ. -/
theorem active_injective {delta : L} (nonzero : delta ≠ 0) (zero : L) :
    Function.Injective (active zero delta) := by
  intro x y same
  have scaled : x • delta = y • delta := add_left_cancel same
  rw [← sub_eq_zero, ← sub_smul] at scaled
  have distinct : ∀ bit : ZMod 2, bit = 0 ∨ bit = 1 := by decide
  rcases distinct (x - y) with equal | different
  · exact sub_eq_zero.mp equal
  · rw [different, one_smul] at scaled
    exact absurd scaled nonzero

/-- A label whose select bit is set is not zero. -/
theorem ne_zero_of_select {select : L →ₗ[ZMod 2] ZMod 2} {delta : L} (odd : select delta = 1) :
    delta ≠ 0 := by
  intro zero
  rw [zero, map_zero] at odd
  exact absurd odd (by decide)

/-- Such a label moves every label. -/
theorem add_ne_of_select {select : L →ₗ[ZMod 2] ZMod 2} {delta : L} (odd : select delta = 1)
    (label : L) : label + delta ≠ label :=
  mt add_eq_left.mp (ne_zero_of_select odd)

/-- The two ciphertexts of one AND gate. -/
structure Table (L : Type) where
  generator : L
  evaluator : L

/-- The gate hashes and the select functional of a garbling scheme with its
global offset; the offset's own select bit is one. -/
structure Scheme (L : Type) [AddCommGroup L] [Module (ZMod 2) L] where
  generatorHash : Nat → L → L
  evaluatorHash : Nat → L → L
  select : L →ₗ[ZMod 2] ZMod 2
  delta : L
  select_delta : select delta = 1

namespace Scheme

variable (scheme : Scheme L)

theorem delta_ne_zero : scheme.delta ≠ 0 := ne_zero_of_select scheme.select_delta

/-- Ciphertexts for zero labels `a` and `b` of gate `gate`, the generator half
correcting for the permute bit `permute`. -/
def table (gate : Nat) (permute : ZMod 2) (a b : L) : Table L where
  generator := scheme.generatorHash gate a + scheme.generatorHash gate (a + scheme.delta) +
    permute • scheme.delta
  evaluator := scheme.evaluatorHash gate b + scheme.evaluatorHash gate (b + scheme.delta) + a

/-- The evaluator's rule for one AND gate. -/
def evaluate (gate : Nat) (cipher : Table L) (left right : L) : L :=
  (scheme.generatorHash gate left + scheme.select left • cipher.generator) +
    (scheme.evaluatorHash gate right + scheme.select right • (cipher.evaluator + left))

/-- The zero label the evaluator reaches from two zero labels. -/
def outputZero (gate : Nat) (cipher : Table L) (a b : L) : L := scheme.evaluate gate cipher a b

/-- The select bit of a label is that of the zero label plus the bit. -/
private theorem select_active (zero : L) (bit : ZMod 2) :
    scheme.select (active zero scheme.delta bit) = scheme.select zero + bit := by
  simp [active, scheme.select_delta]

/-- The generator half yields the gate's share of the output label, off by the
left bit times the permute bit. -/
private theorem generator_half (gate : Nat) (permute : ZMod 2) (a b : L) (x : ZMod 2) :
    scheme.generatorHash gate (active a scheme.delta x) +
        (scheme.select a + x) • (scheme.table gate permute a b).generator =
      scheme.generatorHash gate a + scheme.select a • (scheme.table gate permute a b).generator +
        (x * permute) • scheme.delta := by
  have bits : x = 0 ∨ x = 1 := by revert x; decide
  have cancel : (2 : ZMod 2) = 0 := by decide
  rcases bits with rfl | rfl
  · simp
  · rw [active_one]
    simp only [table]
    match_scalars <;> ring_nf
    simp [cancel]

/-- The evaluator half yields its share of the output label, off by the left
bit times the right select bit. -/
private theorem evaluator_half (gate : Nat) (permute : ZMod 2) (a b : L) (x y : ZMod 2) :
    scheme.evaluatorHash gate (active b scheme.delta y) + (scheme.select b + y) •
        ((scheme.table gate permute a b).evaluator + active a scheme.delta x) =
      scheme.evaluatorHash gate b +
          scheme.select b • ((scheme.table gate permute a b).evaluator + a) +
        (x * (scheme.select b + y)) • scheme.delta := by
  have bits : y = 0 ∨ y = 1 := by revert y; decide
  have cancel : (2 : ZMod 2) = 0 := by decide
  rcases bits with rfl | rfl
  · rw [active_zero]
    simp only [table, active]
    match_scalars <;> ring_nf
  · rw [active_one]
    simp only [table, active]
    match_scalars <;> ring_nf <;> simp [cancel]

/-- What the evaluator computes from any two active labels: the label of
`x ∧ y`, shifted by `x` when the permute bit used by the garbler is not the
select bit of `b`. -/
theorem evaluate_table (gate : Nat) (permute : ZMod 2) (a b : L) (x y : ZMod 2) :
    scheme.evaluate gate (scheme.table gate permute a b)
        (active a scheme.delta x) (active b scheme.delta y) =
      active (scheme.outputZero gate (scheme.table gate permute a b) a b) scheme.delta
        (x * y + x * (permute + scheme.select b)) := by
  unfold outputZero evaluate
  rw [scheme.select_active, scheme.select_active, scheme.generator_half, scheme.evaluator_half]
  unfold active
  module

/-- With the select bit of `b` as permute bit a table evaluates to AND. -/
theorem evaluate_select (gate : Nat) (a b : L) (x y : ZMod 2) :
    scheme.evaluate gate (scheme.table gate (scheme.select b) a b)
        (active a scheme.delta x) (active b scheme.delta y) =
      active (scheme.outputZero gate (scheme.table gate (scheme.select b) a b) a b) scheme.delta
        (x * y) := by
  have double : ∀ bit : ZMod 2, bit + bit = 0 := by decide
  rw [scheme.evaluate_table, double, mul_zero, add_zero]

/-- A table computes AND for some output label exactly when its permute bit is
the select bit of `b`. -/
theorem computes_and_iff (gate : Nat) (permute : ZMod 2) (a b : L) :
    (∃ zero, ∀ x y, scheme.evaluate gate (scheme.table gate permute a b)
        (active a scheme.delta x) (active b scheme.delta y) = active zero scheme.delta (x * y)) ↔
      permute = scheme.select b := by
  constructor
  · rintro ⟨zero, computes⟩
    -- The inputs (0, 0) fix the output label; (1, 0) then exposes the permute bit.
    have origin := computes 0 0
    have probe := computes 1 0
    rw [scheme.evaluate_table] at origin probe
    simp only [mul_zero, zero_mul, zero_add, one_mul, active_zero] at origin probe
    rw [← origin] at probe
    have vanished := active_injective scheme.delta_ne_zero _ (probe.trans (active_zero _ _).symm)
    have decided : ∀ p q : ZMod 2, p + q = 0 → p = q := by decide
    exact decided _ _ vanished
  · rintro rfl
    exact ⟨_, scheme.evaluate_select gate a b⟩

end Scheme

end SimpleOprf.Garbling
