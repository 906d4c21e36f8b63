import SimpleOprf.GcMmo.Circuit

/-!
# Half-gate garbling and evaluation

`garble_circuit`, `eval_circuit_labels` and `decode_outputs`. The fixed-key
cipher arrives as a block function and SHA-256 as a parameter, so nothing below
depends on either.

Each loop over the gates is a fold with its state made explicit: the wire
labels, the tables so far and, for the prover, one witness for each AND gate.
-/

namespace SimpleOprf.GcMmo

open SimpleOprf.Basis

/-- A SHA-256 digest. -/
abbrev Digest := Vector UInt8 32

/-- `AndGateTable`: the two ciphertexts of a half-gate. -/
structure AndGateTable where
  t0 : Block
  t1 : Block
deriving DecidableEq, Repr, Inhabited

/-- What the prover learns about one AND gate. -/
structure HalfGateWitness where
  a0 : Block
  b0 : Block
  tg : Block
  te : Block
  ha0 : Block
  ha1 : Block
  hb0 : Block
  hb1 : Block
  pa : UInt8 := 0
  pb : UInt8 := 0
deriving DecidableEq, Repr, Inhabited

/-- `GarbleResult`, with the wire labels and the witness of every AND gate. -/
structure GarbleResult where
  tables : List AndGateTable := []
  andWit : List HalfGateWitness := []
  wire0 : List Block := []
  delta : Block := 0
  aesKey : Block := 0
  outDecode : List UInt8 := []
  gcHash : Digest := Vector.replicate 32 0
  rRoot : Digest := Vector.replicate 32 0
deriving DecidableEq, Repr

/-- Zero labels for `count` input wires, normalised to select bit zero. -/
def inputLabels (delta : Block) : Nat → Rng → List Block × Rng
  | 0, rng => ([], rng)
  | count + 1, rng =>
    let (wire0, rng) := randomBlock rng
    let wire0 := if lsb wire0 then xorBlock wire0 delta else wire0
    let (rest, rng) := inputLabels delta count rng
    (wire0 :: rest, rng)

@[simp] theorem length_inputLabels (delta : Block) (count : Nat) (rng : Rng) :
    (inputLabels delta count rng).1.length = count := by
  induction count generalizing rng with
  | zero => rfl
  | succ count ih => simp [inputLabels, ih]

/-- The witness and the output zero label of one AND gate. -/
def halfGate (aes : Block → Block) (delta : Block) (andId : Nat) (a0 b0 : Block) :
    HalfGateWitness × Block :=
  let a1 := xorBlock a0 delta
  let b1 := xorBlock b0 delta
  let pa := lsb a0
  let pb := lsb b0
  let ha0 := mmoHash aes (tweak a0 andId 0)
  let ha1 := mmoHash aes (tweak a1 andId 0)
  let tg := xorBlock ha0 ha1
  let tg := if pb then xorBlock tg delta else tg
  let wg0 := ha0
  let wg0 := if pa then xorBlock wg0 tg else wg0
  let hb0 := mmoHash aes (tweak b0 andId 1)
  let hb1 := mmoHash aes (tweak b1 andId 1)
  let te := xorBlock hb0 hb1
  let te := xorBlock te a0
  let we0 := hb0
  let we0 := if pb then xorBlock we0 (xorBlock te a0) else we0
  ({ a0, b0, tg, te, ha0, ha1, hb0, hb1,
     pa := if pa then 1 else 0
     pb := if pb then 1 else 0 }, xorBlock wg0 we0)

/-- The vectors that the gate loop of `garble_circuit` fills. -/
structure GarbleState where
  wire0 : List Block
  tables : List AndGateTable
  andWit : List HalfGateWitness
  andId : Nat

/-- One gate of the garbler. -/
def garbleGate (aes : Block → Block) (delta : Block) (state : GarbleState) (g : Gate) :
    Outcome GarbleState :=
  match g.type with
  | .xor => do
      let x ← readAt state.wire0 g.in0.toNat
      let y ← readAt state.wire0 g.in1.toNat
      let wire0 ← writeAt state.wire0 g.out.toNat (xorBlock x y)
      .ok { state with wire0 }
  | .inv => do
      -- Free NOT: the labels are swapped here, so that the evaluator has nothing to do.
      let x ← readAt state.wire0 g.in0.toNat
      let wire0 ← writeAt state.wire0 g.out.toNat (xorBlock x delta)
      .ok { state with wire0 }
  | .and => do
      let a0 ← readAt state.wire0 g.in0.toNat
      let b0 ← readAt state.wire0 g.in1.toNat
      let (wit, w0) := halfGate aes delta state.andId a0 b0
      let wire0 ← writeAt state.wire0 g.out.toNat w0
      .ok {
        wire0
        tables := state.tables ++ [⟨wit.tg, wit.te⟩]
        andWit := state.andWit ++ [wit]
        andId := state.andId + 1 }

/-- The table bytes that `gc_hash` covers. -/
def tableBytes (tables : List AndGateTable) : List UInt8 :=
  tables.flatMap fun t => t.t0.bytes ++ t.t1.bytes

/-- One level of the Merkle tree; an odd level repeats its last node. -/
def merkleLevel (sha256 : List UInt8 → Digest) : List Digest → List Digest
  | [] => []
  | [last] => [sha256 (last.toList ++ last.toList)]
  | left :: right :: rest =>
    sha256 (left.toList ++ right.toList) :: merkleLevel sha256 rest

theorem length_merkleLevel (sha256 : List UInt8 → Digest) (level : List Digest) :
    (merkleLevel sha256 level).length = (level.length + 1) / 2 := by
  induction level using merkleLevel.induct with
  | case1 => rfl
  | case2 last => simp [merkleLevel]
  | case3 left right rest ih =>
    simp only [merkleLevel, List.length_cons, ih]
    omega

/-- Hash levels together until one node remains. -/
def merkleClimb (sha256 : List UInt8 → Digest) (level : List Digest) : List Digest :=
  if 1 < level.length then merkleClimb sha256 (merkleLevel sha256 level) else level
termination_by level.length
decreasing_by
  rw [length_merkleLevel]
  omega

/-- `merkle_root_pairs`: the root over the hashes of the pairs. -/
def merkleRootPairs (sha256 : List UInt8 → Digest) (pairs : List (Block × Block)) : Digest :=
  match merkleClimb sha256 (pairs.map fun p => sha256 (p.1.bytes ++ p.2.bytes)) with
  | [] => sha256 []
  | root :: _ => root

/-- `garble_circuit`. -/
def garbleCircuit (sha256 : List UInt8 → Digest) (c : Circuit) (mmoKey : Block)
    (aes : Block → Block) (rng : Rng) : Outcome (GarbleResult × Rng) := do
  let (delta, rng) := makeDelta rng
  let (labels, rng) := inputLabels delta (c.nInput0 + c.nInput1).toNat rng
  let wire0 ← storeFront (List.replicate c.nWires.toNat 0) labels
  let state ← c.gates.foldlM (garbleGate aes delta)
    { wire0, tables := [], andWit := [], andId := 0 }
  let outputs ← readOutputs c state.wire0
  let evaluator ← slice .outOfBounds state.wire0 c.nInput0.toNat c.nInput1.toNat
  .ok ({
    tables := state.tables
    andWit := state.andWit
    wire0 := state.wire0
    delta
    aesKey := mmoKey
    outDecode := outputs.map fun label => if lsb label then 1 else 0
    gcHash := sha256 (tableBytes state.tables)
    rRoot := merkleRootPairs sha256 (evaluator.map fun z => (z, xorBlock z delta)) }, rng)

/-- The evaluator's rule for one AND gate. -/
def evalAndGate (aes : Block → Block) (andId : Nat) (t : AndGateTable) (wa wb : Block) : Block :=
  let sa := lsb wa
  let sb := lsb wb
  let wg := mmoHash aes (tweak wa andId 0)
  let wg := if sa then xorBlock wg t.t0 else wg
  let we := mmoHash aes (tweak wb andId 1)
  let we := if sb then xorBlock we (xorBlock t.t1 wa) else we
  xorBlock wg we

/-- One gate of the evaluator, on the active labels and the AND counter. -/
def activeGate (aes : Block → Block) (tables : List AndGateTable) (state : List Block × Nat)
    (g : Gate) : Outcome (List Block × Nat) :=
  let (w, andId) := state
  match g.type with
  | .xor => do
      let x ← readAt w g.in0.toNat
      let y ← readAt w g.in1.toNat
      let w ← writeAt w g.out.toNat (xorBlock x y)
      .ok (w, andId)
  | .inv => do
      let x ← readAt w g.in0.toNat
      let w ← writeAt w g.out.toNat x
      .ok (w, andId)
  | .and => do
      let t ← readAt tables andId
      let wa ← readAt w g.in0.toNat
      let wb ← readAt w g.in1.toNat
      let w ← writeAt w g.out.toNat (evalAndGate aes andId t wa wb)
      .ok (w, andId + 1)

/-- The wire vector of `eval_circuit_labels` after its gate loop. -/
def activeWires (c : Circuit) (aes : Block → Block) (gr : GarbleResult)
    (labels : List Block) : Outcome (List Block) :=
  if labels.length ≠ (c.nInput0 + c.nInput1).toNat then
    .error (.thrown "eval: bad input label count")
  else do
    let w ← storeFront (List.replicate c.nWires.toNat 0) labels
    let (w, _) ← c.gates.foldlM (activeGate aes gr.tables) (w, 0)
    .ok w

/-- Evaluate a garbled circuit from one active label on each input wire. -/
def evalCircuitLabels (c : Circuit) (aes : Block → Block) (gr : GarbleResult)
    (labels : List Block) : Outcome (List Block) := do
  let w ← activeWires c aes gr labels
  readOutputs c w

/-- Point-and-permute decoding against the select bits of the zero labels. -/
def decodeOutputs (gr : GarbleResult) (outLabels : List Block) : Outcome (List UInt8) :=
  outLabels.zipIdx.mapM fun (label, i) => do
    let p : UInt8 := if lsb label then 1 else 0
    let decode ← readAt gr.outDecode i
    .ok (p ^^^ decode)

end SimpleOprf.GcMmo
