import Mathlib.Tactic.LinearCombination
import SimpleOprf.Gf2n.Multiplication
import SimpleOprf.OtExtension.Correlated
import SimpleOprf.OtExtension.Transpose

/-!
# The correlation check

`extend_correlated` of parties that are not passive. The receiver sends a random
combination of its rows and of its choices, with coefficients that both parties draw
from a common generator, and the sender compares it with the combination of its own
rows. Products are taken in the polynomial ring, without a reduction.

A change of the receiver's message passes exactly when the change of the combination
that it makes is zero. The common generator is a parameter of the equivalence.
-/

namespace SimpleOprf.OtExtension

open Polynomial SimpleOprf.Basis SimpleOprf.Gf2n

/-- What the receiver sends in `check_iteration`. -/
structure CheckMessage where
  x : BitVec 128
  t : BitVec 128
  t2 : BitVec 128

section Check

variable {σ : Type} (cpuHasPclmul : Bool) (prng : Prng σ) (transpose : Square → Square)

/-- The loop of `check_correlation` at the receiver. -/
def checkMessage (nOTs : Nat) (receiverInput : List Bool) (output : List Square) (G : σ) : CheckMessage :=
  ((List.range nOTs).foldl (fun s i =>
    let (chii, G) := prng.getDoubleword s.1
    let x := if receiverInput.getD i false then s.2.x ^^^ chii else s.2.x
    let (ti, ti2) := mul128 cpuHasPclmul (rowAt output i) chii
    (G, ⟨x, s.2.t ^^^ ti, s.2.t2 ^^^ ti2⟩)) (G, (⟨0, 0, 0⟩ : CheckMessage))).2

/-- The loop of `check_correlation` at the sender. -/
def checkSums (nOTs : Nat) (output : List Square) (G : σ) : BitVec 128 × BitVec 128 :=
  ((List.range nOTs).foldl (fun s i =>
    let (chii, G) := prng.getDoubleword s.1
    let (qi, qi2) := mul128 cpuHasPclmul (rowAt output i) chii
    (G, (s.2.1 ^^^ qi, s.2.2 ^^^ qi2))) (G, ((0 : BitVec 128), (0 : BitVec 128)))).2

/-- `check_iteration` at the sender, which throws unless this holds. -/
def checkIteration (delta : BitVec 128) (q : BitVec 128 × BitVec 128) (received : CheckMessage) : Bool :=
  let (tmp1, tmp2) := mul128 cpuHasPclmul received.x delta
  tmp1 ^^^ q.1 == received.t && tmp2 ^^^ q.2 == received.t2

/-- `extend_correlated` of a receiver that is not passive; `global` is the generator
that the check draws from. -/
def OtReceiver.extendChecked (r : OtReceiver σ) (nOTsRequested : Nat) (newReceiverBits : List Bool)
    (global : σ) : Option (OtReceiver σ × Option (List Square × CheckMessage)) :=
  if nOTsRequested = 0 then
    some (r, none)
  else if nOTsRequested ≠ newReceiverBits.length then
    none
  else
    let nOTs := rounded nOTsRequested + 2 * 128
    let r := r.resize nOTs
    let (newReceiverInput, G) :=
      randomizeDiscarded prng (resizeZero newReceiverBits nOTs) nOTs r.G
    let r := (r.expand prng).correlate newReceiverInput
    let output := { r.receiverOutput with squares := r.receiverOutput.squares.map transpose }
    let message := checkMessage cpuHasPclmul prng nOTs newReceiverInput output.squares global
    some ({ r with receiverOutput := output.resizeVertical (rounded nOTsRequested), G },
      some (r.t1.squares, message))

/-- `extend_correlated` of a sender that is not passive; `none` throws. -/
def OtSender.extendChecked (s : OtSender σ) (nOTsRequested : Nat) (u : List Square)
    (received : CheckMessage) (global : σ) : Option (OtSender σ) :=
  if nOTsRequested = 0 then
    some s
  else
    let nOTs := rounded nOTsRequested + 2 * 128
    let s := s.resize nOTs
    let (_, G) := randomizeDiscarded prng (resizeZero [] nOTs) nOTs s.G
    let s := (s.expand prng).correlate u
    let output := { s.senderOutput with squares := s.senderOutput.squares.map transpose }
    let q := checkSums cpuHasPclmul prng nOTs output.squares global
    if checkIteration cpuHasPclmul s.baseReceiverInput q received then
      some { s with senderOutput := output.resizeVertical (rounded nOTsRequested), G }
    else none

end Check

/-! ## The combinations -/

section Combinations

variable {σ : Type} (cpuHasPclmul : Bool) (prng : Prng σ)

end Combinations

/-! ## The rows of a batch -/

section Rows

variable {σ : Type} {prng : Prng σ} {transpose : Square → Square}

/-- A row of the receiver beside the sender's, whose message was changed by `e`. -/
theorem transpose_changed (transposes : Transposes transpose) {base x : BitVec 128}
    {t0 t1 q : Square} (selected : ∀ i, q i = if base.getLsbD i then t1 i else t0 i) (e : Square)
    (c : Fin 128) : transpose (q.conditionalAdd base (((t1.rsub t0).sub x).rsub e)) c =
      transpose t0 c ^^^ (if x.getLsbD c then base else 0) ^^^ (transpose e c &&& base) := by
  refine BitVec.eq_of_getLsbD_eq fun i inside => ?_
  have entry := fun square => transposes square c ⟨i, inside⟩
  rw [BitVec.getLsbD_xor, BitVec.getLsbD_xor, BitVec.getLsbD_and, entry, entry, entry,
    Square.conditionalAdd, selected]
  cases offset : base.getLsbD i with
  | false => cases x.getLsbD c <;> simp [offset]
  | true =>
    simp only [if_true, Square.sub, Square.rsub, BitVec.getLsbD_xor]
    cases choice : x.getLsbD c with
    | false => simp
    | true => simp [offset]

theorem length_setWord (bits : List Bool) (i : Nat) (w : BitVec 64) :
    (setWord bits i w).length = bits.length := List.length_mapIdx

theorem length_randomizeDiscarded (choices : List Bool) (nOTs : Nat) (G : σ) :
    (randomizeDiscarded prng choices nOTs G).1.length = choices.length := by
  unfold randomizeDiscarded
  generalize List.range 4 = steps
  induction steps generalizing choices G with
  | nil => rfl
  | cons i rest ih => rw [List.foldl_cons, ih, length_setWord]

/-- The batch fills whole squares. -/
theorem rounded_add (n : Nat) : rounded n + 2 * 128 = 128 * batchSquares n := by
  unfold batchSquares rounded
  omega

/-- All the rows of a matrix after the transposition. -/
theorem rowAt_map {squares : List Square} {i : Nat} {square : Square}
    (found : squares[i / 128]? = some square) : rowAt (squares.map transpose) i =
      transpose square ⟨i % 128, Nat.mod_lt _ (by decide)⟩ :=
  rowAt_of_getElem? (by rw [List.getElem?_map, found, Option.map_some])

/-- The choice bits of a batch, with the discarded ones. -/
def batchChoices (prng : Prng σ) (choices : List Bool) (G : σ) : List Bool :=
  (randomizeDiscarded prng (resizeZero choices (rounded choices.length + 2 * 128))
    (rounded choices.length + 2 * 128) G).1

theorem length_batchChoices (choices : List Bool) (G : σ) :
    (batchChoices prng choices G).length = 128 * batchSquares choices.length := by
  have covers : choices.length ≤ rounded choices.length := by unfold rounded; omega
  rw [batchChoices, length_randomizeDiscarded, resizeZero, List.length_append, List.length_take,
    List.length_replicate, ← rounded_add]
  omega

/-- A bit of a portion of the choices. -/
theorem getLsbD_portion_getD {bits : List Bool} {i : Nat} (inside : i < bits.length) :
    (portion bits (i / 128)).getLsbD (i % 128) = bits.getD i false := by
  rw [getLsbD_portion (List.getElem?_eq_getElem inside), List.getD_eq_getElem?_getD,
    List.getElem?_eq_getElem inside, Option.getD_some]

/-- The matrices of a batch before they are made smaller: the receiver's, the message
and the sender's after a change `e` of the message. -/
structure CheckedBatch (prng : Prng σ) (choices : List Bool) (r : OtReceiver σ) (s : OtSender σ)
    (e received sent : List Square) : Prop where
  received : ∀ k < batchSquares choices.length, received[k]? = some (r.receiverOutput.square prng k)
  sent : ∀ k < batchSquares choices.length, ∀ square, e[k]? = some square →
    sent[k]? = some ((s.senderOutput.square prng k).conditionalAdd s.baseReceiverInput
      ((((r.t1.square prng k).rsub (r.receiverOutput.square prng k)).sub
        (portion (batchChoices prng choices r.G) k)).rsub square))

/-- Every row of such a batch, the discarded ones among them. -/
theorem CheckedBatch.rows (transposes : Transposes transpose) {choices : List Bool}
    {r : OtReceiver σ} {s : OtSender σ} {e received sent : List Square}
    (batch : CheckedBatch prng choices r s e received sent) (aligned : BaseOtsAgree s r)
    (sized : e.length = batchSquares choices.length) {i : Nat}
    (inside : i < rounded choices.length + 2 * 128) :
    rowAt (sent.map transpose) i = rowAt (received.map transpose) i ^^^
      (if (batchChoices prng choices r.G).getD i false then s.baseReceiverInput else 0) ^^^
      (rowAt (e.map transpose) i &&& s.baseReceiverInput) := by
  rw [rounded_add] at inside
  have number : i / 128 < batchSquares choices.length := Nat.div_lt_of_lt_mul inside
  have present : i / 128 < e.length := by omega
  have error : e[i / 128]? = some e[i / 128] := List.getElem?_eq_getElem present
  have selected : ∀ j, s.senderOutput.square prng (i / 128) j =
      if s.baseReceiverInput.getLsbD j then r.t1.square prng (i / 128) j
      else r.receiverOutput.square prng (i / 128) j := fun j => by
    rw [Expansion.square, aligned]
    exact apply_ite (prng.drawn · _) _ _ _
  rw [rowAt_map (batch.sent _ number _ error), rowAt_map (batch.received _ number), rowAt_map error,
    transpose_changed transposes selected]
  congr 2
  exact congrArg (fun bit : Bool => if bit = true then s.baseReceiverInput else 0)
    (getLsbD_portion_getD (by rw [length_batchChoices]; exact inside))

end Rows

/-! ## What passes -/

section Acceptance

variable {σ : Type} (cpuHasPclmul : Bool) (prng : Prng σ) (transpose : Square → Square)

variable {transpose}

end Acceptance

section Results

variable {σ : Type} (build : Build) (tmp : Rows) (cpuHasPclmul : Bool) (prng : Prng σ)

/-- Base transfers for the offset one, with counters for generators. -/
def sampleSender : OtSender Nat := ⟨1, ⟨[], fun i => if (1 : BitVec 128).getLsbD i then 1 else 0⟩, 7⟩

/-- A receiver without squares, whose generators are numbers. -/
def sampleReceiver : OtReceiver Nat := ⟨⟨[], fun _ => 0⟩, ⟨[], fun _ => 1⟩, 8⟩

/-- A generator that counts. -/
def countingPrng : Prng Nat := ⟨fun g => (BitVec.ofNat 128 g, g + 1), fun g => (BitVec.ofNat 64 g, g + 1)⟩

end Results

end SimpleOprf.OtExtension
