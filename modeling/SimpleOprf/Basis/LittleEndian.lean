import Mathlib.Data.UInt
import Mathlib.Tactic.Ring
import SimpleOprf.Basis.Outcome

/-!
# Little-endian integers and fixed-size byte arrays

`ofLe` reads back what `leBytes` wrote. A fixed-size array of the source is a
`Vector UInt8 n`; `ofBytes` fills one from a byte string.

Both directions are recursive on bytes, least significant first, so that a
length and a value determine each other wherever the value fits the width.
-/

namespace SimpleOprf.Basis

/-- The `width` low bytes of a number, least significant first. -/
def leBytes : Nat → Nat → List UInt8
  | 0, _ => []
  | width + 1, value => UInt8.ofNat value :: leBytes width (value / 256)

/-- The number whose little-endian bytes are given. -/
def ofLe : List UInt8 → Nat
  | [] => 0
  | byte :: rest => byte.toNat + 256 * ofLe rest

@[simp] theorem length_leBytes (width value : Nat) : (leBytes width value).length = width := by
  induction width generalizing value with
  | zero => rfl
  | succ width ih => simp [leBytes, ih]

/-- The bytes of a number keep its remainder. -/
theorem ofLe_leBytes_mod (width value : Nat) :
    ofLe (leBytes width value) = value % 256 ^ width := by
  induction width generalizing value with
  | zero => rw [pow_zero, Nat.mod_one]; rfl
  | succ width ih =>
    rw [leBytes, ofLe, ih, UInt8.toNat_ofNat', pow_succ' 256 width,
      @Nat.mod_mul 256 (256 ^ width) value]

/-- Reading back the bytes of a number that fits in them gives the number. -/
theorem ofLe_leBytes {width value : Nat} (fits : value < 256 ^ width) :
    ofLe (leBytes width value) = value := by
  rw [ofLe_leBytes_mod, Nat.mod_eq_of_lt fits]

theorem ofLe_append (low high : List UInt8) :
    ofLe (low ++ high) = ofLe low + 256 ^ low.length * ofLe high := by
  induction low with
  | nil => simp [ofLe]
  | cons byte low ih =>
    simp only [List.cons_append, ofLe, ih, List.length_cons, pow_succ]
    ring

/-- `n` bytes hold a number below `256 ^ n`. -/
theorem ofLe_lt (bytes : List UInt8) : ofLe bytes < 256 ^ bytes.length := by
  induction bytes with
  | nil => simp [ofLe]
  | cons byte rest ih =>
    have small := byte.toNat_lt
    simp only [ofLe, List.length_cons, pow_succ]
    omega

/-- Strings of one length stand for different numbers. -/
theorem ofLe_inj {left right : List UInt8} (sized : left.length = right.length)
    (same : ofLe left = ofLe right) : left = right := by
  induction left generalizing right with
  | nil => exact (List.length_eq_zero_iff.mp sized.symm).symm
  | cons byte left ih =>
    cases right with
    | nil => cases sized
    | cons other right =>
      have small := byte.toNat_lt
      have smallOther := other.toNat_lt
      simp only [ofLe] at same
      rw [UInt8.toNat_inj.mp (show byte.toNat = other.toNat by omega),
        ih (Nat.succ.inj sized) (by omega)]

/-- The bytes of a 64-bit word, as `push_u64` and `to_le_bytes` lay them out. -/
def le64 (value : UInt64) : List UInt8 := leBytes 8 value.toNat

/-- The 64-bit word of eight little-endian bytes. -/
def ofLe64 (bytes : List UInt8) : UInt64 := UInt64.ofNat (ofLe bytes)

@[simp] theorem length_le64 (value : UInt64) : (le64 value).length = 8 := length_leBytes 8 _

@[simp] theorem ofLe64_le64 (value : UInt64) : ofLe64 (le64 value) = value := by
  have fits : value.toNat < 256 ^ 8 := by simpa using value.toNat_lt
  rw [ofLe64, le64, ofLe_leBytes fits, UInt64.ofNat_toNat]

/-- Fill a fixed-size byte array; a short string leaves its tail zero. -/
def ofBytes (size : Nat) (bytes : List UInt8) : Vector UInt8 size :=
  Vector.ofFn fun index => bytes.getD index.val 0

@[simp] theorem ofBytes_toList {size : Nat} (array : Vector UInt8 size) :
    ofBytes size array.toList = array := by
  ext index bound
  simp [ofBytes]

/-- An array read from exactly enough bytes lists those bytes. -/
theorem toList_ofBytes {size : Nat} {bytes : List UInt8} (sized : bytes.length = size) :
    (ofBytes size bytes).toList = bytes := by
  subst sized
  apply List.ext_getElem
  · simp
  · intro i _ _
    simp [ofBytes]

end SimpleOprf.Basis
