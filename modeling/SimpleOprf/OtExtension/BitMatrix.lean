import Mathlib.Data.BitVec
import Mathlib.Data.List.FinRange
import Mathlib.Data.List.GetD
import Mathlib.Logic.Function.Basic

/-!
# Bit matrices of the OT extension

`BitMatrix` is a vector of squares of 128 rows with 128 bits each. Before the
transposition the rows are the base OTs and a square takes 128 transfers, one a
column; afterwards the rows are the transfers.

`Transposes` is all that is used of the transposition of a square. Both resizes
of the source are here, the one that keeps the old contents and the one that
clears.
-/

namespace SimpleOprf.OtExtension

/-- `square128` by its rows. -/
abbrev Square := Fin 128 → BitVec 128

/-- `BitMatrix::operator[]`. -/
def rowAt (squares : List Square) (i : Nat) : BitVec 128 :=
  squares.getD (i / 128) (fun _ => 0) ⟨i % 128, Nat.mod_lt _ (by decide)⟩

/-- `resize_vertical`: new squares are zero. -/
def resizeVertical (squares : List Square) (length : Nat) : List Square :=
  let n := (length + 127) / 128
  squares.take n ++ List.replicate (n - squares.length) fun _ => 0

/-- Entry `c` of row `r` of the transposed square is entry `r` of row `c`. -/
def Transposes (transpose : Square → Square) : Prop :=
  ∀ (square : Square) (r c : Fin 128), (transpose square r).getLsbD c = (square c).getLsbD r

/-- The transposition bit by bit. -/
def transposed (square : Square) : Square := fun r =>
  (BitVec.ofBoolListLE ((List.finRange 128).map fun c => (square c).getLsbD r)).setWidth 128

/-- The plain transpose transposes. -/
theorem transposes_transposed : Transposes transposed := by
  intro square r c
  rw [transposed, BitVec.getLsbD_setWidth, BitVec.getLsbD_ofBoolListLE, decide_eq_true c.isLt,
    Bool.true_and]
  simp

theorem length_resizeVertical (squares : List Square) (length : Nat) :
    (resizeVertical squares length).length = (length + 127) / 128 := by
  simp only [resizeVertical, List.length_append, List.length_take, List.length_replicate]
  omega

/-- Making a matrix smaller keeps the rows that remain. -/
theorem rowAt_resizeVertical {squares : List Square} {length i : Nat}
    (smaller : (length + 127) / 128 ≤ squares.length) (inside : i < length) :
    rowAt (resizeVertical squares length) i = rowAt squares i := by
  have kept : i / 128 < (length + 127) / 128 := by omega
  have front : resizeVertical squares length = squares.take ((length + 127) / 128) := by
    simp [resizeVertical, Nat.sub_eq_zero_of_le smaller]
  rw [rowAt, rowAt, front, List.getD_eq_getElem?_getD, List.getElem?_take_of_lt kept,
    ← List.getD_eq_getElem?_getD]

/-- A row lies in the square of its number. -/
theorem rowAt_of_getElem? {squares : List Square} {square : Square} {i : Nat}
    (found : squares[i / 128]? = some square) :
    rowAt squares i = square ⟨i % 128, Nat.mod_lt _ (by decide)⟩ := by
  rw [rowAt, List.getD_eq_getElem?_getD, found, Option.getD_some]

/-! ## Bit vectors -/

/-- `BitVector::resize_zero`. -/
def resizeZero (bits : List Bool) (n : Nat) : List Bool :=
  bits.take n ++ List.replicate (n - bits.length) false

/-- `BitVector::set_word`: the bits of a 64-bit word. -/
def setWord (bits : List Bool) (i : Nat) (w : BitVec 64) : List Bool :=
  bits.mapIdx fun j bit => if 64 * i ≤ j ∧ j < 64 * i + 64 then w.getLsbD (j - 64 * i) else bit

/-- Sixteen bytes from `get_ptr_to_byte(i, 16)` on. -/
def portion (bits : List Bool) (i : Nat) : BitVec 128 :=
  (BitVec.ofBoolListLE ((bits.drop (128 * i)).take 128)).setWidth 128

/-- A bit vector that grows keeps its bits. -/
theorem getElem?_resizeZero {bits : List Bool} {n i : Nat} {bit : Bool} (larger : bits.length ≤ n)
    (found : bits[i]? = some bit) : (resizeZero bits n)[i]? = some bit := by
  have inside := (List.getElem?_eq_some_iff.mp found).1
  rw [resizeZero, List.take_of_length_le larger, List.getElem?_append_left inside, found]

/-- A word above a bit does not touch it. -/
theorem getElem?_setWord {bits : List Bool} {j i : Nat} {bit : Bool} (below : i < 64 * j)
    (found : bits[i]? = some bit) (w : BitVec 64) : (setWord bits j w)[i]? = some bit := by
  have outside : ¬(64 * j ≤ i ∧ i < 64 * j + 64) := fun both => absurd below (Nat.not_lt.mpr both.1)
  rw [setWord, List.getElem?_mapIdx, found, Option.map_some, if_neg outside]

/-- Bit `i` of a vector is in portion `i / 128`. -/
theorem getLsbD_portion {bits : List Bool} {i : Nat} {bit : Bool} (found : bits[i]? = some bit) :
    (portion bits (i / 128)).getLsbD (i % 128) = bit := by
  have inside : i % 128 < 128 := Nat.mod_lt _ (by decide)
  have place : 128 * (i / 128) + i % 128 = i := Nat.div_add_mod i 128
  rw [portion, BitVec.getLsbD_setWidth, BitVec.getLsbD_ofBoolListLE, List.getD_eq_getElem?_getD,
    List.getElem?_take_of_lt inside, List.getElem?_drop, place, found, Option.getD_some,
    decide_eq_true inside, Bool.true_and]

/-! ## Generators -/

/-- `PRNG`: what is drawn from a state, with the state afterwards. -/
structure Prng (σ : Type) where
  getDoubleword : σ → BitVec 128 × σ
  getWord : σ → BitVec 64 × σ

variable {σ : Type} (prng : Prng σ)

namespace Prng

/-- The state after some doublewords. -/
def after (g : σ) : Nat → σ
  | 0 => g
  | n + 1 => after (prng.getDoubleword g).2 n

/-- A doubleword by how many are drawn before it. -/
def drawn (g : σ) (n : Nat) : BitVec 128 := (prng.getDoubleword (prng.after g n)).1

/-- `Slice::randomize`: a row of every square, one square after the other. -/
def randomize (row : Fin 128) : List Square → σ → List Square × σ
  | [], g => ([], g)
  | square :: rest, g =>
    let (word, g) := prng.getDoubleword g
    let (rest, g) := randomize row rest g
    (Function.update square row word :: rest, g)

/-- A row of every square becomes the next draw. -/
theorem randomize_eq (row : Fin 128) (squares : List Square) (g : σ) :
    prng.randomize row squares g =
      (squares.mapIdx fun k square => Function.update square row (prng.drawn g k),
        prng.after g squares.length) := by
  induction squares generalizing g with
  | nil => rfl
  | cons square rest ih =>
    rw [List.mapIdx_cons]
    simp only [randomize, ih]
    rfl

end Prng

/-- A matrix with the generators of its rows. -/
structure Expansion (σ : Type) where
  squares : List Square
  generators : Fin 128 → σ

namespace Expansion

/-- Draws one row of a whole expansion from the generator of that row. -/
def randomize (m : Expansion σ) (row : Fin 128) : Expansion σ :=
  let (squares, g) := prng.randomize row m.squares (m.generators row)
  ⟨squares, Function.update m.generators row g⟩

/-- Every row drawn from its generator. -/
def expanded (m : Expansion σ) : Expansion σ :=
  ⟨m.squares.mapIdx fun k _ row => prng.drawn (m.generators row) k,
    fun row => prng.after (m.generators row) m.squares.length⟩

/-- After some rows, each once, these are drawn and the others are unchanged. -/
theorem foldl_randomize {rows : List (Fin 128)} (once : rows.Nodup) (m : Expansion σ) :
    rows.foldl (randomize prng) m =
      ⟨m.squares.mapIdx fun k square row =>
          if row ∈ rows then prng.drawn (m.generators row) k else square row,
        fun row => if row ∈ rows then prng.after (m.generators row) m.squares.length
          else m.generators row⟩ := by
  induction rows generalizing m with
  | nil =>
    have same : m.squares.mapIdx (fun _ square => square) = m.squares :=
      List.ext_getElem? fun k => by simp
    simp only [List.foldl_nil, List.not_mem_nil, if_false]
    exact congrArg (mk · m.generators) same.symm
  | cons first rows ih =>
    obtain ⟨fresh, once⟩ := List.nodup_cons.mp once
    rw [List.foldl_cons, ih once, randomize, Prng.randomize_eq]
    simp only [List.mapIdx_mapIdx, List.length_mapIdx, mk.injEq]
    constructor
    · refine congrArg (List.mapIdx · m.squares) (funext₂ fun k square => funext fun row => ?_)
      by_cases same : row = first
      · subst same
        simp [fresh]
      · simp [same]
    · funext row
      by_cases same : row = first
      · subst same
        simp [fresh]
      · simp [same]

/-- Drawing row by row expands the matrix. -/
theorem foldl_finRange (m : Expansion σ) :
    (List.finRange 128).foldl (randomize prng) m = m.expanded prng := by
  rw [foldl_randomize prng (List.nodup_finRange 128)]
  simp [expanded]

end Expansion

end SimpleOprf.OtExtension
