import SimpleOprf.Basis.Reader
import SimpleOprf.PlaintextOprf
import SimpleOprf.StarkGarble.Field

/-!
# The prover's witness

The witness file, its binding hash, and the half-gate check that the prover
runs before it builds a trace. A `[u8; 16]` of the source is a `Block`.

Errors name the gate and the bit at which the check stops. `BitHolds` and
`GateHolds` state the same check as equations.
-/

namespace SimpleOprf.StarkGarble

open SimpleOprf.Basis SimpleOprf.GcMmo

/-- Length of a key commitment in bytes. -/
def cmBytes : Nat := 32 + 128 * 16

/-- `GateWit`: one AND gate as the server records it. -/
structure GateWit where
  a0 : Block
  b0 : Block
  tg : Block
  te : Block
  ha0 : Block
  ha1 : Block
  hb0 : Block
  hb1 : Block
  pa : UInt8
  pb : UInt8
deriving DecidableEq, Repr, Inhabited

/-- `Witness`: what the server hands to the prover. -/
structure Witness where
  nAnd : UInt64
  cm : List UInt8
  gcHash : Digest
  rRoot : Digest
  outHash : Digest
  delta : Block
  gates : List GateWit

/-- The panic of a slice index past the end of a buffer. -/
def sliceFault : Fault := .panicked "range end index out of range for slice"

/-- `read_u64_le`, where a slice past the end panics. -/
def readU64Le : Reader UInt64 := Reader.word sliceFault

/-- `read_arr::<16>`. -/
def readBlock : Reader Block := Block.ofBytes <$> Reader.bytes sliceFault 16

/-- One byte. A read past the end panics. -/
def readByte : Reader UInt8 := (fun taken => taken.headD 0) <$> Reader.bytes sliceFault 1

/-- The ten fields of a gate, in order. -/
def readGateWit : Reader GateWit := do
  let a0 ← readBlock
  let b0 ← readBlock
  let tg ← readBlock
  let te ← readBlock
  let ha0 ← readBlock
  let ha1 ← readBlock
  let hb0 ← readBlock
  let hb1 ← readBlock
  let pa ← readByte
  let pb ← readByte
  return { a0, b0, tg, te, ha0, ha1, hb0, hb1, pa, pb }

/-- `Vec::with_capacity` of 130-byte gates. -/
def gateCapacity (nAnd : UInt64) : Outcome Unit :=
  if 130 * nAnd.toNat < 2 ^ 63 then .ok () else .error (.panicked "capacity overflow")

/-- The fields of the witness, with as many gates as it announces. -/
def readWitness : Reader Witness := do
  let nAnd ← readU64Le
  let cm ← Reader.bytes sliceFault cmBytes
  let gcHash ← Reader.array sliceFault 32
  let rRoot ← Reader.array sliceFault 32
  let outHash ← Reader.array sliceFault 32
  let delta ← readBlock
  Reader.computing (gateCapacity nAnd)
  let gates ← Reader.repeated readGateWit nAnd.toNat
  return { nAnd, cm, gcHash, rRoot, outHash, delta, gates }

/-- `parse_witness`. -/
def parseWitness (buf : List UInt8) : Outcome Witness := readWitness.parse buf

/-! ## Binding -/

/-- The bytes that the binding hash covers, for the prover and the verifier. -/
def bindingInput (cm : List UInt8) (gcHash rRoot outHash : Digest) (nAnd : UInt64) : List UInt8 :=
  cm ++ gcHash.toList ++ rRoot.toList ++ outHash.toList ++ le64 nAnd

/-- `binding_hash`. -/
def bindingHash (p : Primitives) (w : Witness) : Digest :=
  p.sha256 (bindingInput w.cm w.gcHash w.rRoot w.outHash w.nAnd)

/-- Limb `i` of a digest with its two highest bits cleared. -/
def bindingLimb (b : Digest) (i : Nat) : Nat :=
  let limb := (b.toList.drop (8 * i)).take 8
  ofLe (limb.set 7 (limb.getD 7 0 &&& 0x3f))

/-- `binding_to_field`: four limbs. -/
def bindingToField (b : Digest) : Vector E 4 := Vector.ofFn fun i => (bindingLimb b i.val : E)

/-! ## The half-gate check -/

/-- Bit `bit` of a block, the lowest bit of its first byte first. -/
def getBit (block : Block) (bit : Nat) : UInt8 :=
  (block.bytes.getD (bit / 8) 0 >>> UInt8.ofNat (bit % 8)) &&& 1

/-- The checks of `check_half_gates` on one bit of a gate. -/
def checkBit (delta : Block) (i : Nat) (g : GateWit) (bit : Nat) : Except String Unit :=
  let expectTg := getBit g.ha0 bit ^^^ getBit g.ha1 bit ^^^ (g.pb &&& getBit delta bit)
  if getBit g.tg bit ≠ expectTg then
    .error s!"gate {i} bit {bit}: Tg fail"
  else
    let expectTe := getBit g.hb0 bit ^^^ getBit g.hb1 bit ^^^ getBit g.a0 bit
    if getBit g.te bit ≠ expectTe then
      .error s!"gate {i} bit {bit}: Te fail"
    else
      .ok ()

/-- The checks on one gate. -/
def checkGate (delta : Block) (i : Nat) (g : GateWit) : Except String Unit :=
  if g.pa > 1 ∨ g.pb > 1 then
    .error s!"gate {i}: pa/pb not boolean"
  else
    (List.range 128).forM (checkBit delta i g)

/-- `check_half_gates`: the first gate that fails names the error. -/
def checkHalfGates (w : Witness) : Except String Unit :=
  w.gates.zipIdx.forM fun (g, i) => checkGate w.delta i g

/-- A byte passes the boolean test exactly when it is a bit. -/
theorem le_one_iff (x : UInt8) : x ≤ 1 ↔ x = 0 ∨ x = 1 := by
  revert x
  decide +kernel

/-- The equations of one bit of a half gate. -/
structure BitHolds (delta : Block) (g : GateWit) (bit : Nat) : Prop where
  tg : getBit g.tg bit = getBit g.ha0 bit ^^^ getBit g.ha1 bit ^^^ (g.pb &&& getBit delta bit)
  te : getBit g.te bit = getBit g.hb0 bit ^^^ getBit g.hb1 bit ^^^ getBit g.a0 bit

/-- What the check asks of one gate. -/
structure GateHolds (delta : Block) (g : GateWit) : Prop where
  pa : g.pa ≤ 1
  pb : g.pb ≤ 1
  bits : ∀ bit, bit < 128 → BitHolds delta g bit

/-- A bit passes exactly when its equations hold. -/
theorem checkBit_eq_ok {delta : Block} {i : Nat} {g : GateWit} {bit : Nat} :
    checkBit delta i g bit = .ok () ↔ BitHolds delta g bit := by
  unfold checkBit
  constructor
  · intro passed
    dsimp only at passed
    split at passed
    · cases passed
    · rename_i tg
      split at passed
      · cases passed
      · rename_i te
        exact ⟨not_not.mp tg, not_not.mp te⟩
  · rintro ⟨tg, te⟩
    simp [tg, te]

/-- A gate passes exactly when it is boolean and all its bits pass. -/
theorem checkGate_eq_ok {delta : Block} {i : Nat} {g : GateWit} :
    checkGate delta i g = .ok () ↔ GateHolds delta g := by
  unfold checkGate
  constructor
  · intro passed
    split at passed
    · cases passed
    · rename_i boolean
      rw [not_or] at boolean
      have bits := Outcome.forM_eq_ok.mp passed
      exact ⟨UInt8.not_lt.mp boolean.1, UInt8.not_lt.mp boolean.2, fun bit inside =>
        checkBit_eq_ok.mp (bits bit (List.mem_range.mpr inside))⟩
  · rintro ⟨pa, pb, bits⟩
    have boolean : ¬ (g.pa > 1 ∨ g.pb > 1) := by
      rw [not_or]
      exact ⟨UInt8.not_lt.mpr pa, UInt8.not_lt.mpr pb⟩
    rw [if_neg boolean, Outcome.forM_eq_ok]
    intro bit member
    exact checkBit_eq_ok.mpr (bits bit (List.mem_range.mp member))

/-- The check accepts exactly the witnesses whose gates satisfy the equations. -/
theorem checkHalfGates_eq_ok {w : Witness} :
    checkHalfGates w = .ok () ↔ ∀ g ∈ w.gates, GateHolds w.delta g := by
  unfold checkHalfGates
  rw [Outcome.forM_eq_ok]
  constructor
  · intro passed g member
    obtain ⟨i, inside, rfl⟩ := List.getElem_of_mem member
    have indexed : (w.gates[i], i) ∈ w.gates.zipIdx := by
      rw [List.mk_mem_zipIdx_iff_getElem?, List.getElem?_eq_getElem inside]
    exact checkGate_eq_ok.mp (passed _ indexed)
  · rintro holds ⟨g, i⟩ member
    exact checkGate_eq_ok.mpr (holds g (List.fst_mem_of_mem_zipIdx member))

/-! ## Reading a witness file -/

/-- The 130 bytes of one gate. -/
def GateWit.bytes (g : GateWit) : List UInt8 :=
  g.a0.bytes ++ (g.b0.bytes ++ (g.tg.bytes ++ (g.te.bytes ++ (g.ha0.bytes ++ (g.ha1.bytes ++
    (g.hb0.bytes ++ (g.hb1.bytes ++ ([g.pa] ++ [g.pb]))))))))

/-- The file that a witness is read from. -/
def Witness.bytes (w : Witness) : List UInt8 :=
  le64 w.nAnd ++ (w.cm ++ (w.gcHash.toList ++ (w.rRoot.toList ++ (w.outHash.toList ++
    (w.delta.bytes ++ w.gates.flatMap GateWit.bytes)))))

/-- The witnesses that a file can hold. -/
structure Witness.Fits (w : Witness) : Prop where
  cm : w.cm.length = cmBytes
  gates : w.gates.length = w.nAnd.toNat
  capacity : 130 * w.nAnd.toNat < 2 ^ 63

/-- A block is read back. -/
private theorem reads_readBlock (b : Block) : readBlock.Reads b.bytes b := by
  have mapped := (Reader.reads_bytes sliceFault b.length_bytes).map Block.ofBytes
  rwa [Block.ofBytes_bytes] at mapped

/-- A byte is read back. -/
private theorem reads_readByte (x : UInt8) : readByte.Reads [x] x :=
  (Reader.reads_bytes sliceFault rfl).map fun taken => taken.headD 0

/-- A gate is read back. -/
theorem reads_gateWit (g : GateWit) : readGateWit.Reads g.bytes g := by
  unfold readGateWit GateWit.bytes
  refine (reads_readBlock _).bind ((reads_readBlock _).bind ((reads_readBlock _).bind
    ((reads_readBlock _).bind ((reads_readBlock _).bind ((reads_readBlock _).bind
      ((reads_readBlock _).bind ((reads_readBlock _).bind ?_)))))))
  rw [← List.append_nil [g.pb]]
  exact (reads_readByte _).bind ((reads_readByte _).bind (Reader.Reads.pure g))

/-- Reading a witness file consumes exactly its bytes and restores the witness. -/
theorem reads_witness {w : Witness} (fits : w.Fits) : readWitness.Reads w.bytes w := by
  have capacity : gateCapacity w.nAnd = .ok () := by
    rw [gateCapacity, if_pos fits.capacity]
  have gates := Reader.Reads.repeated w.gates fun g _ => reads_gateWit g
  rw [fits.gates] at gates
  unfold readWitness Witness.bytes
  refine (Reader.reads_word _ _).bind ((Reader.reads_bytes _ fits.cm).bind
    ((Reader.reads_array _ _).bind ((Reader.reads_array _ _).bind ((Reader.reads_array _ _).bind
      ((reads_readBlock _).bind ?_)))))
  rw [← List.nil_append (w.gates.flatMap _), ← List.append_nil (w.gates.flatMap _)]
  exact (Reader.Reads.computing capacity).bind (gates.bind (Reader.Reads.pure w))

/-- What a successful parse says of the witness. -/
theorem parseWitness_fits {buf : List UInt8} {w : Witness} (parsed : parseWitness buf = .ok w) :
    w.Fits := by
  have ensured : readWitness.Ensures Witness.Fits := by
    unfold readWitness
    refine Reader.Ensures.skip fun nAnd => (Reader.ensures_bytes _ _).bind fun cm sized => ?_
    -- The three digests and the offset have fixed sizes.
    refine Reader.Ensures.skip fun _ => Reader.Ensures.skip fun _ => Reader.Ensures.skip fun _ =>
      Reader.Ensures.skip fun _ => ?_
    refine (Reader.ensures_computing _).bind fun _ capacity =>
      (Reader.ensures_repeated _ _).bind fun gates counted =>
        Reader.Ensures.pure ⟨sized, counted, ?_⟩
    by_contra large
    rw [gateCapacity, if_neg large] at capacity
    cases capacity
  exact ensured.of_parse parsed

end SimpleOprf.StarkGarble
