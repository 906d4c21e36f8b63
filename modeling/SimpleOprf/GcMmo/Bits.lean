import SimpleOprf.GcMmo.Block

/-!
# Blocks as circuit inputs

The Bristol bit order: wire 0 is the lowest bit of the last byte of a block.

`blockToBits128` and `bits128ToBlock` are inverse to each other on lists of 128
bits, so a key or an input is known from the wires that carry it.
-/

namespace SimpleOprf.GcMmo

open SimpleOprf.Basis

/-- Bit `i` of a block in big-endian order. -/
def beBit (bl : Block) (i : Nat) : UInt8 :=
  (bl.bytes.getD (i / 8) 0 >>> UInt8.ofNat (7 - i % 8)) &&& 1

/-- `block_to_bits128`: bit 127 first. -/
def blockToBits128 (bl : Block) : List UInt8 :=
  (List.range 128).map fun i => beBit bl (127 - i)

/-- One byte from eight bits, the highest first. -/
def packByte (bit : Nat → UInt8) : UInt8 :=
  (List.range 8).foldl
    (fun byte t => if bit t &&& 1 ≠ 0 then byte ||| (1 <<< UInt8.ofNat (7 - t)) else byte) 0

/-- Read 128 bits; the pointer the source takes says nothing about their number. -/
def bits128ToBlock (bits : List UInt8) : Outcome Block := do
  let bits ← slice .outOfBounds bits 0 128
  .ok ⟨Vector.ofFn fun j => packByte fun t => bits.getD (127 - (8 * j.val + t)) 0⟩

/-- Entries of a bit vector are bits, the default included. -/
theorem isBit_getD {bits : List UInt8} (isBit : ∀ x ∈ bits, x = 0 ∨ x = 1) (i : Nat) :
    bits.getD i 0 = 0 ∨ bits.getD i 0 = 1 := by
  rw [List.getD_eq_getElem?_getD]
  cases found : bits[i]? with
  | none => exact .inl rfl
  | some x => exact isBit x (List.mem_of_getElem? found)

@[simp] theorem length_blockToBits128 (bl : Block) : (blockToBits128 bl).length = 128 := by
  simp [blockToBits128]

/-- Each of them is a zero or a one. -/
theorem isBit_blockToBits128 (bl : Block) : ∀ x ∈ blockToBits128 bl, x = 0 ∨ x = 1 := by
  have lowest : ∀ y : UInt8, y &&& 1 = 0 ∨ y &&& 1 = 1 := by decide +kernel
  intro x member
  obtain ⟨i, -, rfl⟩ := List.mem_map.mp member
  exact lowest _

/-- A byte is packed from its own bits. -/
private theorem packByte_bits :
    ∀ y : UInt8, packByte (fun t => (y >>> UInt8.ofNat (7 - t)) &&& 1) = y := by
  decide +kernel

/-- Packing looks at eight bits only. -/
theorem packByte_congr {bit other : Nat → UInt8} (same : ∀ t, t < 8 → bit t = other t) :
    packByte bit = packByte other := by
  unfold packByte
  apply List.foldl_ext
  intro byte t member
  rw [same t (List.mem_range.mp member)]

/-- A block survives the conversion to circuit inputs and back. -/
theorem bits128ToBlock_blockToBits128 (bl : Block) :
    bits128ToBlock (blockToBits128 bl) = .ok bl := by
  rw [bits128ToBlock, slice_whole (length_blockToBits128 bl), Outcome.ok_bind]
  congr 1
  apply Block.ext_bytes
  intro j inside
  rw [Vector.getElem_ofFn]
  refine Eq.trans (packByte_congr fun t bound => ?_) (packByte_bits bl.b[j])
  -- Wire 127 - (8j + t) carries bit t of byte j.
  have wire : 127 - (8 * j + t) < (blockToBits128 bl).length := by
    rw [length_blockToBits128]
    omega
  have position : 127 - (127 - (8 * j + t)) = 8 * j + t := by omega
  have byte : (8 * j + t) / 8 = j := by omega
  have shift : (8 * j + t) % 8 = t := by omega
  rw [List.getD_eq_getElem _ _ wire]
  simp only [blockToBits128, List.getElem_map, List.getElem_range, position, beBit, byte, shift]
  simp [Block.bytes, inside]

/-- A block is known from its bits. -/
theorem blockToBits128_injective : Function.Injective blockToBits128 := by
  intro x y same
  have restored := congrArg bits128ToBlock same
  rw [bits128ToBlock_blockToBits128, bits128ToBlock_blockToBits128] at restored
  exact Except.ok.inj restored

end SimpleOprf.GcMmo
