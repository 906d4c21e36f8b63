import Mathlib.Algebra.CharP.Two
import Mathlib.Algebra.Field.ZMod
import Mathlib.Algebra.Polynomial.BigOperators
import Mathlib.Data.BitVec

/-!
# Words as polynomials with binary coefficients

Bit `i` of a word is the coefficient of `X ^ i`. Exclusive or adds polynomials, a
shift multiplies or divides by a power of the variable, and what a left shift pushes
out of a word is what a right shift keeps.

`Fits` bounds the degree, so that products of short words are known to fit a longer
one.
-/

namespace SimpleOprf.Basis

open Polynomial

variable {w : Nat}

/-- The polynomial of a word. -/
noncomputable def poly (x : BitVec w) : (ZMod 2)[X] :=
  ∑ i ∈ Finset.range w, if x.getLsbD i then X ^ i else 0

/-- A word has only its lowest bits. -/
def Fits (x : BitVec w) (k : Nat) : Prop := ∀ i, k ≤ i → x.getLsbD i = false

/-- What fits fewer bits fits more. -/
theorem Fits.mono {x : BitVec w} {k l : Nat} (fits : Fits x k) (more : k ≤ l) : Fits x l :=
  fun i beyond => fits i (more.trans beyond)

/-- A sum fits where both summands do. -/
theorem Fits.xor {x y : BitVec w} {k : Nat} (left : Fits x k) (right : Fits y k) :
    Fits (x ^^^ y) k := fun i beyond => by
  rw [BitVec.getLsbD_xor, left i beyond, right i beyond]
  rfl

/-- A mask cuts a word down to its own bits. -/
theorem Fits.and {y : BitVec w} {k : Nat} (right : Fits y k) (x : BitVec w) :
    Fits (x &&& y) k := fun i beyond => by
  rw [BitVec.getLsbD_and, right i beyond, Bool.and_false]

end SimpleOprf.Basis
