import Mathlib.Algebra.Module.ZMod
import Mathlib.Data.FinEnum
import Mathlib.Data.Nat.Bitwise
import Mathlib.Data.Stream.Init
import SimpleOprf.Basis.LittleEndian
import SimpleOprf.Garbling.HalfGate

/-!
# Sixteen-byte blocks

`Block` and the helpers at the top of `gc_mmo.hpp`. XOR makes blocks a vector
space over the two-element field and `lsb` is a linear functional on it, which
is all that the garbling theory needs of a label.

The portable cipher is here too, with its table and its loops as they are
written; that it is AES-128 is proved elsewhere.
-/

namespace SimpleOprf.GcMmo

open SimpleOprf.Basis

/-- Sixteen bytes; the source aligns them for vector loads. -/
structure Block where
  b : Vector UInt8 16
deriving DecidableEq, Repr

/-- The outputs a `std::mt19937_64` has yet to produce. -/
abbrev Rng := Stream' UInt64

instance : Zero Block := ⟨⟨Vector.replicate 16 0⟩⟩
instance : Inhabited Block := ⟨0⟩

/-- The bytes of a block in memory order. -/
def Block.bytes (x : Block) : List UInt8 := x.b.toList

/-- The block with the given bytes. -/
def Block.ofBytes (bytes : List UInt8) : Block := ⟨Basis.ofBytes 16 bytes⟩

/-- `xor_block`. -/
def xorBlock (x y : Block) : Block := ⟨Vector.ofFn fun i => x.b[i] ^^^ y.b[i]⟩

/-- `lsb`: the select bit of a label. -/
def lsb (x : Block) : Bool := x.b[0] &&& 1 != 0

/-- Sixteen bytes, each the low byte of one draw. -/
def randomBlock (rng : Rng) : Block × Rng :=
  (⟨Vector.ofFn fun i => (rng.get i &&& 0xff).toUInt8⟩, rng.drop 16)

/-- A random block with its lowest bit set. -/
def makeDelta (rng : Rng) : Block × Rng :=
  let (d, rng) := randomBlock rng
  (⟨d.b.set 0 (d.b[0] ||| 1)⟩, rng)

/-- Davies-Meyer over a block function. -/
def mmoHash (aes : Block → Block) (x : Block) : Block := xorBlock (aes x) x

/-- Mix a gate number and a half index into a label. -/
def tweak (x : Block) (gid : Nat) (t : UInt8) : Block :=
  let y := x.b
  let y := y.set 8 (y[8] ^^^ UInt8.ofNat gid)
  let y := y.set 9 (y[9] ^^^ UInt8.ofNat (gid >>> 8))
  let y := y.set 10 (y[10] ^^^ UInt8.ofNat (gid >>> 16))
  let y := y.set 11 (y[11] ^^^ UInt8.ofNat (gid >>> 24))
  let y := y.set 12 (y[12] ^^^ t)
  ⟨y⟩

/-- `label_for_bit`. -/
def labelForBit (wire0 delta : Block) (bit : UInt8) : Block :=
  if bit ≠ 0 then xorBlock wire0 delta else wire0

/-! ## The portable fixed-key AES

`FixedKeyAES` as it is built without the AES instructions: the round keys of the
constructor and the `encrypt` member. -/

/-- The substitution table. -/
def sbox : List UInt8 := [
  0x63,0x7c,0x77,0x7b,0xf2,0x6b,0x6f,0xc5,0x30,0x01,0x67,0x2b,0xfe,0xd7,0xab,0x76,
  0xca,0x82,0xc9,0x7d,0xfa,0x59,0x47,0xf0,0xad,0xd4,0xa2,0xaf,0x9c,0xa4,0x72,0xc0,
  0xb7,0xfd,0x93,0x26,0x36,0x3f,0xf7,0xcc,0x34,0xa5,0xe5,0xf1,0x71,0xd8,0x31,0x15,
  0x04,0xc7,0x23,0xc3,0x18,0x96,0x05,0x9a,0x07,0x12,0x80,0xe2,0xeb,0x27,0xb2,0x75,
  0x09,0x83,0x2c,0x1a,0x1b,0x6e,0x5a,0xa0,0x52,0x3b,0xd6,0xb3,0x29,0xe3,0x2f,0x84,
  0x53,0xd1,0x00,0xed,0x20,0xfc,0xb1,0x5b,0x6a,0xcb,0xbe,0x39,0x4a,0x4c,0x58,0xcf,
  0xd0,0xef,0xaa,0xfb,0x43,0x4d,0x33,0x85,0x45,0xf9,0x02,0x7f,0x50,0x3c,0x9f,0xa8,
  0x51,0xa3,0x40,0x8f,0x92,0x9d,0x38,0xf5,0xbc,0xb6,0xda,0x21,0x10,0xff,0xf3,0xd2,
  0xcd,0x0c,0x13,0xec,0x5f,0x97,0x44,0x17,0xc4,0xa7,0x7e,0x3d,0x64,0x5d,0x19,0x73,
  0x60,0x81,0x4f,0xdc,0x22,0x2a,0x90,0x88,0x46,0xee,0xb8,0x14,0xde,0x5e,0x0b,0xdb,
  0xe0,0x32,0x3a,0x0a,0x49,0x06,0x24,0x5c,0xc2,0xd3,0xac,0x62,0x91,0x95,0xe4,0x79,
  0xe7,0xc8,0x37,0x6d,0x8d,0xd5,0x4e,0xa9,0x6c,0x56,0xf4,0xea,0x65,0x7a,0xae,0x08,
  0xba,0x78,0x25,0x2e,0x1c,0xa6,0xb4,0xc6,0xe8,0xdd,0x74,0x1f,0x4b,0xbd,0x8b,0x8a,
  0x70,0x3e,0xb5,0x66,0x48,0x03,0xf6,0x0e,0x61,0x35,0x57,0xb9,0x86,0xc1,0x1d,0x9e,
  0xe1,0xf8,0x98,0x11,0x69,0xd9,0x8e,0x94,0x9b,0x1e,0x87,0xe9,0xce,0x55,0x28,0xdf,
  0x8c,0xa1,0x89,0x0d,0xbf,0xe6,0x42,0x68,0x41,0x99,0x2d,0x0f,0xb0,0x54,0xbb,0x16]

/-- The round constants. -/
def rcon : List UInt8 := [0x01, 0x02, 0x04, 0x08, 0x10, 0x20, 0x40, 0x80, 0x1B, 0x36]

/-- The S-box from its table. -/
def subByte (x : UInt8) : UInt8 := sbox.getD x.toNat 0

/-- The cipher state, `u8 s[16]`. -/
abbrev State := Vector UInt8 16

/-- One iteration of the key schedule. -/
def nextRoundKey (prev : State) (rc : UInt8) : State :=
  let t0 := subByte prev[13] ^^^ rc
  let t1 := subByte prev[14]
  let t2 := subByte prev[15]
  let t3 := subByte prev[12]
  let head := prev.set 0 (prev[0] ^^^ t0)
  let head := head.set 1 (prev[1] ^^^ t1)
  let head := head.set 2 (prev[2] ^^^ t2)
  let head := head.set 3 (prev[3] ^^^ t3)
  (List.finRange 12).foldl
    (fun key k => key.set (k.val + 4) (prev[k.val + 4] ^^^ key[k.val])) head

/-- The eleven round keys. -/
def roundKeys (key : Block) : List State := rcon.scanl nextRoundKey key.b

/-- `add_round_key`. -/
def addRoundKey (s key : State) : State := Vector.ofFn fun i => s[i] ^^^ key[i]

/-- `sub_bytes`. -/
def subBytes (s : State) : State := s.map subByte

/-- The row rotations, by the swaps of the source. -/
def shiftRows (st : State) : State :=
  let t := st[1]
  let st := st.set 1 st[5]
  let st := st.set 5 st[9]
  let st := st.set 9 st[13]
  let st := st.set 13 t
  let t := st[2]
  let st := st.set 2 st[10]
  let st := st.set 10 t
  let t := st[6]
  let st := st.set 6 st[14]
  let st := st.set 14 t
  let t := st[15]
  let st := st.set 15 st[11]
  let st := st.set 11 st[7]
  let st := st.set 7 st[3]
  st.set 3 t

/-- `xtime`: twice a byte in the field. -/
def xtime (x : UInt8) : UInt8 := (x <<< 1) ^^^ (if x &&& 0x80 != 0 then 0x1b else 0)

/-- `mix_columns`, column by column. -/
def mixColumns (st : State) : State :=
  (List.finRange 4).foldl (fun st c =>
    let a0 := st[4 * c.val]
    let a1 := st[4 * c.val + 1]
    let a2 := st[4 * c.val + 2]
    let a3 := st[4 * c.val + 3]
    let t := a0 ^^^ a1 ^^^ a2 ^^^ a3
    let st := st.set (4 * c.val) (a0 ^^^ (t ^^^ xtime (a0 ^^^ a1)))
    let st := st.set (4 * c.val + 1) (a1 ^^^ (t ^^^ xtime (a1 ^^^ a2)))
    let st := st.set (4 * c.val + 2) (a2 ^^^ (t ^^^ xtime (a2 ^^^ a3)))
    st.set (4 * c.val + 3) (a3 ^^^ (t ^^^ xtime (a3 ^^^ a0)))) st

/-- `FixedKeyAES(key).encrypt(in)`. -/
def fixedKeyAes (key input : Block) : Block :=
  match roundKeys key with
  | [] => input
  | whitening :: rounds =>
    let s := addRoundKey input.b whitening
    let s := rounds.dropLast.foldl
      (fun s rk => addRoundKey (mixColumns (shiftRows (subBytes s))) rk) s
    ⟨addRoundKey (shiftRows (subBytes s)) (rounds.getLastD whitening)⟩

/-! ## Blocks as byte strings -/

@[simp] theorem Block.length_bytes (x : Block) : x.bytes.length = 16 := Vector.length_toList

@[simp] theorem Block.ofBytes_bytes (x : Block) : Block.ofBytes x.bytes = x := by
  simp [Block.ofBytes, Block.bytes]

/-- Blocks are equal exactly when their sixteen bytes are. -/
theorem Block.ext_bytes {x y : Block}
    (same : ∀ (i : Nat) (inside : i < 16), x.b[i] = y.b[i]) : x = y := by
  cases x
  cases y
  congr
  exact Vector.ext same

/-! ## The vector space of blocks -/

instance : Add Block := ⟨xorBlock⟩
instance : Neg Block := ⟨id⟩

/-- Exclusive or is the addition of blocks. -/
theorem xorBlock_eq_add (x y : Block) : xorBlock x y = x + y := rfl

/-- Blocks add byte by byte. -/
theorem Block.getElem_add (x y : Block) (i : Nat) (inside : i < 16) :
    (x + y).b[i] = x.b[i] ^^^ y.b[i] := by
  change (xorBlock x y).b[i] = _
  simp [xorBlock]

theorem Block.getElem_zero (i : Nat) (inside : i < 16) : (0 : Block).b[i] = 0 := by
  change (Vector.replicate 16 (0 : UInt8))[i] = 0
  simp

instance : AddCommGroup Block where
  add_assoc x y z := Block.ext_bytes fun i inside => by
    simp only [Block.getElem_add, UInt8.xor_assoc]
  zero_add x := Block.ext_bytes fun i inside => by
    simp only [Block.getElem_add, Block.getElem_zero, UInt8.zero_xor]
  add_zero x := Block.ext_bytes fun i inside => by
    simp only [Block.getElem_add, Block.getElem_zero, UInt8.xor_zero]
  neg_add_cancel x := Block.ext_bytes fun i inside => by
    change (x + x).b[i] = (0 : Block).b[i]
    rw [Block.getElem_add, UInt8.xor_self, Block.getElem_zero]
  add_comm x y := Block.ext_bytes fun i inside => by
    simp only [Block.getElem_add, UInt8.xor_comm]
  nsmul := nsmulRec
  zsmul := zsmulRec

/-- XOR is its own inverse. -/
@[simp] theorem Block.add_self (x : Block) : x + x = 0 := neg_add_cancel x

/-- XOR with the same block twice restores the first block. -/
@[simp] theorem Block.add_add_cancel (x y : Block) : x + y + y = x := by
  rw [add_assoc, Block.add_self, add_zero]

instance : Module (ZMod 2) Block := AddCommGroup.zmodModule fun x => by
  rw [two_nsmul, Block.add_self]

/-- The lowest bit of a byte as a field element. -/
def parity (byte : UInt8) : ZMod 2 := (byte.toNat : ZMod 2)

/-- The low bit of a sum. -/
theorem parity_xor (x y : UInt8) : parity (x ^^^ y) = parity x + parity y := by
  unfold parity
  rw [UInt8.toNat_xor, ← Nat.cast_add, ZMod.natCast_eq_natCast_iff']
  exact Nat.xor_mod_two_eq

/-- The low bit of a conjunction. -/
theorem parity_and (x y : UInt8) : parity (x &&& y) = parity x * parity y := by
  unfold parity
  rw [UInt8.toNat_and, ← Nat.cast_mul, ZMod.natCast_eq_natCast_iff']
  have both := @Nat.and_mod_two_eq_one x.toNat y.toNat
  have product := @Nat.odd_mul x.toNat y.toNat
  simp only [Nat.odd_iff] at product
  rw [← both] at product
  omega

/-- The select bit of a label. -/
def select : Block →ₗ[ZMod 2] ZMod 2 :=
  AddMonoidHom.toZModLinearMap 2
    { toFun := fun x => parity x.b[0]
      map_zero' := by
        rw [Block.getElem_zero]
        rfl
      map_add' := fun x y => by
        rw [Block.getElem_add, parity_xor] }

/-- The select bit is the low bit of the first byte. -/
theorem select_apply (x : Block) : select x = parity x.b[0] := rfl

/-- The low bit as the code tests it. -/
private theorem parity_low_bit (byte : UInt8) :
    parity byte = if byte &&& 1 != 0 then 1 else 0 := by
  revert byte
  decide +kernel

/-- The select functional is the lowest bit. -/
theorem select_eq_lsb (x : Block) : select x = if lsb x then 1 else 0 :=
  parity_low_bit x.b[0]

/-- `lsb` reads the select bit. -/
theorem lsb_eq_decide (x : Block) : lsb x = decide (select x = 1) := by
  rw [select_eq_lsb]
  cases lsb x <;> rfl

/-- Conditioning an XOR on a select bit is scaling by it. -/
theorem xorBlock_if_lsb (x y z : Block) :
    (if lsb x then xorBlock y z else y) = y + select x • z := by
  rw [select_eq_lsb]
  cases lsb x <;> simp [xorBlock_eq_add]

/-- The label of a bit is the active label. -/
theorem labelForBit_eq_active (wire0 delta : Block) {bit : UInt8} (isBit : bit = 0 ∨ bit = 1) :
    labelForBit wire0 delta bit = Garbling.active wire0 delta (parity bit) := by
  rcases isBit with rfl | rfl
  · simp [labelForBit, Garbling.active, parity]
  · simp [labelForBit, Garbling.active, parity, xorBlock_eq_add]

/-- Every global offset has select bit one. -/
theorem select_makeDelta (rng : Rng) : select (makeDelta rng).1 = 1 := by
  have set_bit : ∀ byte : UInt8, parity (byte ||| 1) = 1 := by decide +kernel
  rw [select_apply]
  simp only [makeDelta, Vector.getElem_set_self]
  exact set_bit _

end SimpleOprf.GcMmo
