import SimpleOprf.OtExtension.CorrelationCheck

/-!
# Random transfers

`extend` as it is compiled with `USE_KOS`: the correlated rows are hashed in place,
eight at a time, so that the receiver holds one of two unrelated rows of the sender.

Without `USE_KOS`, which is what `CONFIG` sets, `extend` runs the SoftSpokenOT of another
library instead. That branch is not modelled.
-/

namespace SimpleOprf.OtExtension

open SimpleOprf.Basis

/-- The place of a row in its square. -/
theorem mod_rows_lt (i : Nat) : i % 128 < 128 := Nat.mod_lt i (Nat.succ_pos 127)

/-- A row is written. -/
def setRow (squares : List Square) (i : Nat) (value : BitVec 128) : List Square :=
  squares.modify (i / 128) fun square =>
    Function.update square ⟨i % 128, mod_rows_lt i⟩ value

/-- `MMO::hashEightBlocks` on eight blocks, to the rows from `i` on. -/
def hashEightBlocks (hash : BitVec 128 → BitVec 128) (squares : List Square) (i : Nat)
    (tmp : Nat → BitVec 128) : List Square :=
  (List.range 8).foldl (fun squares j => setRow squares (i + j) (hash (tmp j))) squares

/-- The rows of the receiver in `hash_outputs`. -/
def hashReceived (hash : BitVec 128 → BitVec 128) (nOTs : Nat) (squares : List Square) : List Square :=
  (List.range (nOTs / 8)).foldl (fun squares b =>
    hashEightBlocks hash squares (8 * b) fun j => rowAt squares (8 * b + j)) squares

/-- The rows of the sender in `hash_outputs`, in both matrices. -/
def hashSent (hash : BitVec 128 → BitVec 128) (baseReceiverInput : BitVec 128) (correlated : Bool)
    (nOTs : Nat) (outputs : List Square × List Square) : List Square × List Square :=
  (List.range (nOTs / 8)).foldl (fun outputs b =>
    let tmp0 := fun j => rowAt outputs.1 (8 * b + j)
    let tmp1 := fun j =>
      if correlated then tmp0 j ^^^ baseReceiverInput else rowAt outputs.2 (8 * b + j)
    (hashEightBlocks hash outputs.1 (8 * b) tmp0, hashEightBlocks hash outputs.2 (8 * b) tmp1)) outputs

section Extend

variable {σ : Type} (cpuHasPclmul : Bool) (prng : Prng σ) (transpose : Square → Square)
  (hash : BitVec 128 → BitVec 128)

/-- `extend` of the receiver, compiled with `USE_KOS`; `none` throws. -/
def OtReceiver.extend (r : OtReceiver σ) (newReceiverInput : List Bool) (global : σ) :
    Option (OtReceiver σ × Option (List Square × CheckMessage)) := do
  let nOTs := newReceiverInput.length
  let (r, sent) ← r.extendChecked cpuHasPclmul prng transpose nOTs newReceiverInput global
  let output := resizeVertical r.receiverOutput.squares ((nOTs + 127) / 128 * 128)
  if nOTs % 8 ≠ 0 then none
  else some ({ r with receiverOutput :=
    { r.receiverOutput with squares := hashReceived hash nOTs output } }, sent)

/-- `extend` of the sender, compiled with `USE_KOS`, with its second matrix; `none` throws. -/
def OtSender.extend (s : OtSender σ) (second : List Square) (nOTs : Nat) (u : List Square)
    (received : CheckMessage) (global : σ) : Option (OtSender σ × List Square) := do
  let s ← s.extendChecked cpuHasPclmul prng transpose nOTs u received global
  let n := (nOTs + 127) / 128 * 128
  let outputs := (resizeVertical s.senderOutput.squares n, resizeVertical second n)
  if nOTs % 8 ≠ 0 then none
  else
    let outputs := hashSent hash s.baseReceiverInput true nOTs outputs
    some ({ s with senderOutput := { s.senderOutput with squares := outputs.1 } }, outputs.2)

end Extend

/-! ## Rows in place -/

variable (hash : BitVec 128 → BitVec 128)

section Results

variable {σ : Type} (build : Build) (tmp : Rows) (cpuHasPclmul : Bool) (prng : Prng σ)

end Results

end SimpleOprf.OtExtension
