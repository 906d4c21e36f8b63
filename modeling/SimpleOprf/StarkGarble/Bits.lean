import SimpleOprf.GcMmo.Bits
import SimpleOprf.StarkGarble.Witness

/-!
# Blocks as bit columns

The prover numbers the bits of a block from the lowest bit of its first byte.
A block is determined by its 128 bits, any bits make a block, and XOR of blocks
is XOR of bits, so the half-gate check is two equations between blocks.

Packing is one equation for each of the eight places of a byte, checked over
all bytes.
-/

namespace SimpleOprf.StarkGarble

open SimpleOprf.Basis SimpleOprf.GcMmo

/-- The block with the given bits. -/
def blockOfBits (bit : Nat → UInt8) : Block :=
  ⟨Vector.ofFn fun j => packByte fun t => bit (8 * j.val + (7 - t))⟩

/-- `get_bit` gives a zero or a one. -/
theorem isBit_getBit (x : Block) (i : Nat) : getBit x i = 0 ∨ getBit x i = 1 := by
  have lowest : ∀ y : UInt8, y &&& 1 = 0 ∨ y &&& 1 = 1 := by decide +kernel
  exact lowest _

/-- Bit `i` is in byte `i / 8`, the lowest first. -/
theorem getBit_eq (x : Block) {i : Nat} (inside : i < 128) :
    getBit x i = (x.b[i / 8] >>> UInt8.ofNat (i % 8)) &&& 1 := by
  have byte : i / 8 < 16 := by omega
  simp [getBit, Block.bytes, List.getD_eq_getElem?_getD, byte]

/-- A byte holds the bits that it is packed from. -/
private theorem packByte_bools : ∀ b0 b1 b2 b3 b4 b5 b6 b7 : Bool, ∀ k : Fin 8,
    (packByte (fun t => ([b0, b1, b2, b3, b4, b5, b6, b7].getD t false).toUInt8) >>>
      UInt8.ofNat (7 - k.val)) &&& 1 = ([b0, b1, b2, b3, b4, b5, b6, b7].getD k.val false).toUInt8 := by
  decide +kernel

/-- A packed byte has the bits it was packed from, the highest first. -/
theorem bit_packByte {bit : Nat → UInt8} (isBit : ∀ t, bit t = 0 ∨ bit t = 1) {k : Nat}
    (inside : k < 8) : (packByte bit >>> UInt8.ofNat (7 - k)) &&& 1 = bit k := by
  let digit := fun t => decide (bit t = 1)
  let digits := [digit 0, digit 1, digit 2, digit 3, digit 4, digit 5, digit 6, digit 7]
  have restored : ∀ t, t < 8 → (digits.getD t false).toUInt8 = bit t := by
    intro t bound
    have listed : digits.getD t false = digit t := by
      interval_cases t <;> rfl
    have value : (digit t).toUInt8 = bit t := by
      dsimp only [digit]
      rcases isBit t with zero | one
      · rw [zero]; rfl
      · rw [one]; rfl
    rw [listed, value]
  rw [packByte_congr fun t bound => (restored t bound).symm, ← restored k inside]
  exact packByte_bools _ _ _ _ _ _ _ _ ⟨k, inside⟩

/-- A block made from bits has those bits. -/
theorem getBit_blockOfBits {bit : Nat → UInt8} (isBit : ∀ i, bit i = 0 ∨ bit i = 1) {i : Nat}
    (inside : i < 128) : getBit (blockOfBits bit) i = bit i := by
  have digit := bit_packByte (fun t => isBit (8 * (i / 8) + (7 - t)))
    (show 7 - i % 8 < 8 by omega)
  have shift : 7 - (7 - i % 8) = i % 8 := by omega
  have position : 8 * (i / 8) + i % 8 = i := by omega
  rw [shift, position] at digit
  rw [getBit_eq _ inside, blockOfBits, Vector.getElem_ofFn]
  exact digit

/-- The bits of a block make that block. -/
theorem blockOfBits_getBit (x : Block) : blockOfBits (getBit x) = x := by
  have byte : ∀ y : UInt8, packByte (fun t => (y >>> UInt8.ofNat (7 - t)) &&& 1) = y := by
    decide +kernel
  apply Block.ext_bytes
  intro j inside
  rw [blockOfBits, Vector.getElem_ofFn, ← byte x.b[j]]
  apply packByte_congr
  intro t bound
  have bounded : 8 * j + (7 - t) < 128 := by omega
  have quotient : (8 * j + (7 - t)) / 8 = j := by omega
  have remainder : (8 * j + (7 - t)) % 8 = 7 - t := by omega
  simp only [getBit_eq x bounded, quotient, remainder]

/-- Packing looks at the 128 bits of the block only. -/
theorem blockOfBits_congr {bit other : Nat → UInt8} (same : ∀ i, i < 128 → bit i = other i) :
    blockOfBits bit = blockOfBits other := by
  apply Block.ext_bytes
  intro j inside
  rw [blockOfBits, blockOfBits, Vector.getElem_ofFn, Vector.getElem_ofFn]
  apply packByte_congr
  intro t bound
  exact same _ (by omega)

/-- Blocks are equal exactly when their bits are. -/
theorem ext_getBit {x y : Block} (same : ∀ i, i < 128 → getBit x i = getBit y i) : x = y := by
  rw [← blockOfBits_getBit x, ← blockOfBits_getBit y]
  exact blockOfBits_congr same

/-- The bits of a sum. -/
theorem getBit_add (x y : Block) {i : Nat} (inside : i < 128) :
    getBit (x + y) i = getBit x i ^^^ getBit y i := by
  have low : ∀ a b : UInt8, (a ^^^ b) &&& 1 = (a &&& 1) ^^^ (b &&& 1) := by
    intro a b
    apply UInt8.toBitVec_inj.mp
    ext i
    simp [Bool.and_xor_distrib_right]
  rw [getBit_eq _ inside, getBit_eq _ inside, getBit_eq _ inside, Block.getElem_add,
    UInt8.shiftRight_xor, low]

/-- Masking every bit of a block by one bit keeps or clears the block. -/
theorem getBit_smul {pb : UInt8} (isBit : pb = 0 ∨ pb = 1) (x : Block) {i : Nat}
    (inside : i < 128) : getBit (parity pb • x) i = pb &&& getBit x i := by
  rcases isBit with rfl | rfl
  · have zero : parity 0 = 0 := rfl
    rw [zero, zero_smul, getBit_eq _ inside, Block.getElem_zero, UInt8.zero_and]
    simp
  · have one : parity 1 = 1 := rfl
    rw [one, one_smul]
    rcases isBit_getBit x i with low | low <;> rw [low] <;> decide

end SimpleOprf.StarkGarble
