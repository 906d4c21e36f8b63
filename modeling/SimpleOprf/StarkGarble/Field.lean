import Mathlib.Algebra.Field.ZMod
import Mathlib.NumberTheory.LucasPrimality
import Mathlib.Tactic.NormNum.Prime

/-!
# The base field

Winterfell's `f64::BaseElement`, the integers modulo the Goldilocks prime. Its
primality rests on Lucas's test with generator 7; the powers are evaluated by
square-and-multiply over the binary digits of the exponent.

Bytes embed injectively, so that the columns of a trace can be read back as
bits.
-/

namespace SimpleOprf.StarkGarble

/-- 2^64 - 2^32 + 1. -/
abbrev modulus : Nat := 18446744069414584321

/-- A base field element. -/
abbrev E := ZMod modulus

/-! ## Modular powers -/

/-- The number with the given binary digits, the highest first. -/
def ofDigits (digits : List Bool) : Nat :=
  digits.foldl (fun value digit => 2 * value + digit.toNat) 0

/-- A power modulo `m`, by the binary digits of the exponent. -/
def powMod (m base : Nat) (digits : List Bool) : Nat :=
  digits.foldl (fun power digit => power * power % m * base ^ digit.toNat % m) 1

/-- Square and multiply, one binary digit at a time. -/
private theorem powMod_step (m base : Nat) (digits : List Bool) (power value : Nat)
    (holds : (power : ZMod m) = (base : ZMod m) ^ value) :
    ((digits.foldl (fun power digit => power * power % m * base ^ digit.toNat % m) power : Nat) :
        ZMod m) =
      (base : ZMod m) ^ digits.foldl (fun value digit => 2 * value + digit.toNat) value := by
  induction digits generalizing power value with
  | nil => exact holds
  | cons digit digits ih =>
    apply ih
    rw [ZMod.natCast_mod, Nat.cast_mul, ZMod.natCast_mod, Nat.cast_mul, holds, Nat.cast_pow,
      ← pow_add, ← pow_add, ← Nat.two_mul]

/-- The computed power is the power. -/
theorem powMod_cast (m base : Nat) (digits : List Bool) :
    (powMod m base digits : ZMod m) = (base : ZMod m) ^ ofDigits digits :=
  powMod_step m base digits 1 0 (by simp)

/-- The low 64 digits of an exponent. -/
def digits64 (exponent : Nat) : List Bool := (List.range 64).reverse.map exponent.testBit

/-! ## Primality -/

/-- A power of seven, computed. -/
private theorem seven_pow {exponent residue : Nat} (digits : ofDigits (digits64 exponent) = exponent)
    (computed : powMod modulus 7 (digits64 exponent) = residue) :
    (7 : E) ^ exponent = (residue : E) := by
  have power := powMod_cast modulus 7 (digits64 exponent)
  rw [digits, computed] at power
  rw [power]
  rfl

/-- A power of seven that is not one, computed. -/
private theorem seven_pow_ne_one {exponent : Nat}
    (digits : ofDigits (digits64 exponent) = exponent)
    (computed : powMod modulus 7 (digits64 exponent) % modulus ≠ 1 % modulus) :
    (7 : E) ^ exponent ≠ 1 := by
  rw [seven_pow digits rfl, ← Nat.cast_one, Ne, ZMod.natCast_eq_natCast_iff']
  exact computed

/-- The prime factors of the order of the multiplicative group. -/
private theorem order_factor {q : Nat} (prime : q.Prime) (divides : q ∣ modulus - 1) :
    q = 2 ∨ q = 3 ∨ q = 5 ∨ q = 17 ∨ q = 257 ∨ q = 65537 := by
  have factored : modulus - 1 = 2 ^ 32 * (3 * (5 * (17 * (257 * 65537)))) := by norm_num
  rw [factored] at divides
  simp only [prime.dvd_mul] at divides
  have same : ∀ r : Nat, r.Prime → q ∣ r → q = r := fun r other =>
    (Nat.prime_dvd_prime_iff_eq prime other).mp
  rcases divides with two | three | five | seventeen | fermat3 | fermat4
  · exact .inl (same 2 Nat.prime_two (prime.dvd_of_dvd_pow two))
  · exact .inr (.inl (same 3 Nat.prime_three three))
  · exact .inr (.inr (.inl (same 5 Nat.prime_five five)))
  · exact .inr (.inr (.inr (.inl (same 17 (by norm_num) seventeen))))
  · exact .inr (.inr (.inr (.inr (.inl (same 257 (by norm_num) fermat3)))))
  · exact .inr (.inr (.inr (.inr (.inr (same 65537 (by norm_num) fermat4)))))

/-- The modulus is prime: seven has the order of a generator. -/
theorem modulus_prime : modulus.Prime := by
  apply lucas_primality modulus 7
  · rw [seven_pow (by decide +kernel) rfl]
    have one : powMod modulus 7 (digits64 (modulus - 1)) = 1 := by decide +kernel
    rw [one, Nat.cast_one]
  · intro q prime divides
    rcases order_factor prime divides with rfl | rfl | rfl | rfl | rfl | rfl <;>
      exact seven_pow_ne_one (by decide +kernel) (by decide +kernel)

instance : Fact modulus.Prime := ⟨modulus_prime⟩

end SimpleOprf.StarkGarble
