import Mathlib.Algebra.Module.ZMod
import SimpleOprf.Garbling.HalfGate

/-!
# Keys of the Yao engine

`class Key` is one 128-bit register. XOR makes keys a vector space over the
two-element field, on which the signal bit and the doubling of the two halves
are linear.

`keyOf` is the key that carries a bit: the full key, offset when the bit is
one. It is the active label of the half-gate scheme.
-/

namespace SimpleOprf.Yao

/-- `Key`: 128 bits. -/
structure Key where
  r : BitVec 128
deriving DecidableEq, Repr

namespace Key

instance : Zero Key := ⟨⟨0⟩⟩
instance : Inhabited Key := ⟨0⟩

/-- `Key(long long)`: the low half. -/
def ofLong (a : BitVec 64) : Key := ⟨a.setWidth 128⟩

/-- `operator^`. -/
def xor (x y : Key) : Key := ⟨x.r ^^^ y.r⟩

/-- `get_signal`: the lowest bit. -/
def getSignal (x : Key) : Bool := x.r.getLsbD 0

/-- `set_signal`. -/
def setSignal (x : Key) (signal : Bool) : Key :=
  ⟨(x.r &&& ~~~(1 : BitVec 128)) ^^^ (BitVec.ofBool signal).setWidth 128⟩

/-- Shift both halves left by `i`. -/
def doubling (x : Key) (i : Nat) : Key :=
  ⟨(x.r.extractLsb' 64 64 <<< i) ++ (x.r.extractLsb' 0 64 <<< i)⟩

/-- A key is known from its bits. -/
@[ext] theorem ext_r {x y : Key} (same : x.r = y.r) : x = y := by
  cases x
  cases y
  exact congrArg mk same

@[simp] theorem getSignal_setSignal (x : Key) (signal : Bool) :
    (x.setSignal signal).getSignal = signal := by
  cases signal with
  | false => simp [getSignal, setSignal]
  | true => simp [getSignal, setSignal]

/-! ## The vector space of keys -/

instance : Add Key := ⟨xor⟩
instance : Neg Key := ⟨id⟩

/-- Exclusive or is the addition of keys. -/
theorem xor_eq_add (x y : Key) : xor x y = x + y := rfl

@[simp] theorem r_add (x y : Key) : (x + y).r = x.r ^^^ y.r := rfl

@[simp] theorem r_zero : (0 : Key).r = 0 := rfl

instance : AddCommGroup Key where
  add_assoc x y z := ext_r (BitVec.xor_assoc x.r y.r z.r)
  zero_add x := ext_r BitVec.zero_xor
  add_zero x := ext_r BitVec.xor_zero
  neg_add_cancel x := ext_r (BitVec.xor_self)
  add_comm x y := ext_r (BitVec.xor_comm x.r y.r)
  nsmul := nsmulRec
  zsmul := zsmulRec

/-- XOR is its own inverse. -/
@[simp] theorem add_self (x : Key) : x + x = 0 := neg_add_cancel x

@[simp] theorem add_add_cancel (x y : Key) : x + y + y = x := by
  rw [add_assoc, add_self, add_zero]

instance : Module (ZMod 2) Key := AddCommGroup.zmodModule fun x => by
  rw [two_nsmul, add_self]

/-- A bit as a field element. -/
def parityOf (bit : Bool) : ZMod 2 := if bit then 1 else 0

/-- Parity turns exclusive or into a sum. -/
theorem parityOf_xor (x y : Bool) : parityOf (x ^^ y) = parityOf x + parityOf y := by
  revert x y
  decide

/-- Parity turns conjunction into a product. -/
theorem parityOf_and (x y : Bool) : parityOf (x && y) = parityOf x * parityOf y := by
  revert x y
  decide

/-- The signal bit as a linear functional. -/
def signal : Key →ₗ[ZMod 2] ZMod 2 :=
  AddMonoidHom.toZModLinearMap 2
    { toFun := fun x => parityOf x.getSignal
      map_zero' := by decide
      map_add' := fun x y => by
        rw [← parityOf_xor]
        exact congrArg parityOf BitVec.getLsbD_xor }

/-- The select bit is the parity of the signal. -/
theorem signal_apply (x : Key) : signal x = parityOf x.getSignal := rfl

/-- Conditioning an XOR on a signal bit is scaling by it. -/
theorem xor_if_getSignal (x y z : Key) :
    (if x.getSignal then xor y z else y) = y + signal x • z := by
  rw [signal_apply]
  cases x.getSignal with
  | false => simp [parityOf]
  | true => simp [parityOf, xor_eq_add]

/-- Doubling is linear. -/
theorem doubling_add (x y : Key) (i : Nat) : (x + y).doubling i = x.doubling i + y.doubling i := by
  ext1
  simp only [doubling, r_add, BitVec.extractLsb'_xor, BitVec.shiftLeft_xor_distrib]
  exact BitVec.xor_append.symm

end Key

/-- The active key of a bit. -/
def keyOf (fullKey delta : Key) (v : Bool) : Key :=
  if v then Key.xor fullKey delta else fullKey

/-- The key of a bit is the active label. -/
theorem keyOf_eq_active (fullKey delta : Key) (v : Bool) :
    keyOf fullKey delta v = Garbling.active fullKey delta (Key.parityOf v) := by
  cases v with
  | false => simp [keyOf, Key.parityOf]
  | true => simp [keyOf, Key.parityOf, Key.xor_eq_add]

end SimpleOprf.Yao
