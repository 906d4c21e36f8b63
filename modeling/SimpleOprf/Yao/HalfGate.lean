import SimpleOprf.Yao.Key

/-!
# Half gates of the Yao engine

`YaoHalfGate` with the fixed-key hash as a parameter. The gate number enters the
hash inputs as a tweak of the doubled keys.

Garbling and evaluation are those of the half-gate scheme over the key's vector
space, so the correctness of a gate is taken from there.
-/

namespace SimpleOprf.Yao

/-- `YaoHalfGate`: the garbler's and the evaluator's half. -/
structure YaoHalfGate where
  TG : Key
  TE : Key
deriving DecidableEq, Repr, Inhabited

namespace YaoHalfGate

/-- The tweak of the left input, `T << 1`; that of the right input is one more. -/
def tweak (T : BitVec 64) : BitVec 64 := T <<< 1

/-- The four hash inputs of the garbler. -/
def eInputs (left right leftDelta : Key) (T : BitVec 64) : Key × Key × Key × Key :=
  let l := left.doubling 1
  let r := right.doubling 1
  let j := tweak T
  let output0 := Key.xor l (Key.ofLong j)
  let output2 := Key.xor r (Key.ofLong (j + 1))
  (output0, Key.xor output0 leftDelta, output2, Key.xor output2 leftDelta)

/-- The gate and the full key of its output. -/
def andGarble (hashes : Key × Key × Key × Key) (left right delta : Key) : YaoHalfGate × Key :=
  let (h0, h1, h2, h3) := hashes
  let pa := left.getSignal
  let pb := right.getSignal
  let TG := Key.xor h0 h1
  let TG := if pb then Key.xor TG delta else TG
  let WG := if pa then Key.xor h0 TG else h0
  let TE := Key.xor (Key.xor h2 h3) left
  let WE := if pb then Key.xor h2 (Key.xor TE left) else h2
  (⟨TG, TE⟩, Key.xor WG WE)

/-- The two hash inputs of the evaluator. -/
def evalInputs (left right : Key) (T : BitVec 64) : Key × Key :=
  let j := tweak T
  (Key.xor (left.doubling 1) (Key.ofLong j), Key.xor (right.doubling 1) (Key.ofLong (j + 1)))

/-- `eval`, on the hashes of the two keys. -/
def eval (gate : YaoHalfGate) (hashes : Key × Key) (left right : Key) : Key :=
  let (h0, h1) := hashes
  let sa := left.getSignal
  let sb := right.getSignal
  let WG := if sa then Key.xor h0 gate.TG else h0
  let WE := if sb then Key.xor h1 (Key.xor gate.TE left) else h1
  Key.xor WG WE

end YaoHalfGate

/-- Garble gate `T` on two full keys. -/
def garbleGate (hash : Key → Key) (delta left right : Key) (T : BitVec 64) : YaoHalfGate × Key :=
  let (l0, l1, r0, r1) := YaoHalfGate.eInputs left right (delta.doubling 1) T
  YaoHalfGate.andGarble (hash l0, hash l1, hash r0, hash r1) left right delta

/-- Evaluate gate `T` on two keys. -/
def evalGate (hash : Key → Key) (gate : YaoHalfGate) (left right : Key) (T : BitVec 64) : Key :=
  let (l, r) := YaoHalfGate.evalInputs left right T
  gate.eval (hash l, hash r) left right

/-! ## As a garbling scheme -/

/-- The scheme whose gate numbers are the tweaks' 64-bit gate ids. -/
def scheme (hash : Key → Key) (delta : Key) (odd : Key.signal delta = 1) : Garbling.Scheme Key where
  generatorHash T x := hash (x.doubling 1 + Key.ofLong (YaoHalfGate.tweak (BitVec.ofNat 64 T)))
  evaluatorHash T x := hash (x.doubling 1 + Key.ofLong (YaoHalfGate.tweak (BitVec.ofNat 64 T) + 1))
  select := Key.signal
  delta := delta
  select_delta := odd

/-- The two rows of a half-gate. -/
def YaoHalfGate.abstract (gate : YaoHalfGate) : Garbling.Table Key := ⟨gate.TG, gate.TE⟩

variable (hash : Key → Key) {delta : Key} (odd : Key.signal delta = 1)

/-- A garbled gate is a table of the scheme, and its output the scheme's. -/
theorem garbleGate_eq (left right : Key) (T : BitVec 64) :
    (garbleGate hash delta left right T).1.abstract =
        (scheme hash delta odd).table T.toNat (Key.signal right) left right ∧
      (garbleGate hash delta left right T).2 = (scheme hash delta odd).outputZero T.toNat
        ((scheme hash delta odd).table T.toNat (Key.signal right) left right) left right := by
  have shifted : ∀ x tweak : Key, (x.doubling 1 + tweak) + delta.doubling 1 =
      (x + delta).doubling 1 + tweak := by
    intro x tweak
    rw [Key.doubling_add, add_right_comm]
  constructor
  · simp only [garbleGate, YaoHalfGate.eInputs, YaoHalfGate.andGarble, YaoHalfGate.abstract,
      Garbling.Scheme.table, scheme, Key.xor_if_getSignal, BitVec.ofNat_toNat, BitVec.setWidth_eq]
    simp only [Key.xor_eq_add, shifted]
  · simp only [garbleGate, YaoHalfGate.eInputs, YaoHalfGate.andGarble, Garbling.Scheme.table,
      Garbling.Scheme.outputZero, Garbling.Scheme.evaluate, scheme, Key.xor_if_getSignal,
      BitVec.ofNat_toNat, BitVec.setWidth_eq]
    simp only [Key.xor_eq_add, shifted]

/-- The evaluator computes the evaluation of the scheme. -/
theorem evalGate_eq (gate : YaoHalfGate) (left right : Key) (T : BitVec 64) :
    evalGate hash gate left right T =
      (scheme hash delta odd).evaluate T.toNat gate.abstract left right := by
  simp only [evalGate, YaoHalfGate.evalInputs, YaoHalfGate.eval, YaoHalfGate.abstract,
    Garbling.Scheme.evaluate, scheme, Key.xor_if_getSignal, BitVec.ofNat_toNat, BitVec.setWidth_eq]
  simp only [Key.xor_eq_add]

/-- With the same gate id an evaluated gate carries the AND of its inputs. -/
theorem evalGate_garbleGate {offset : Key} (odd : Key.signal offset = 1) (left right : Key)
    (x y : Bool) (T : BitVec 64) :
    evalGate hash (garbleGate hash offset left right T).1 (keyOf left offset x)
        (keyOf right offset y) T =
      keyOf (garbleGate hash offset left right T).2 offset (x && y) := by
  obtain ⟨table, out⟩ := garbleGate_eq hash odd left right T
  rw [evalGate_eq hash odd, table, out, keyOf_eq_active, keyOf_eq_active, keyOf_eq_active,
    Key.parityOf_and]
  exact (scheme hash offset odd).evaluate_select T.toNat left right _ _

end SimpleOprf.Yao
