import SimpleOprf.VoprfE2e.Server

/-!
# The client

`run_client`: what it receives, and the verdict it computes from that. The
verdict is a function of the received messages alone, so statements about a
malicious server are statements about every `Received`.

The steps are in the order of the source, with the tables received before or
after the ping. Accesses without a check are reads that may leave their buffer.
-/

namespace SimpleOprf.VoprfE2e

open SimpleOprf.Basis SimpleOprf.GcMmo SimpleOprf.PlaintextOprf SimpleOprf.ProbeResilient
  SimpleOprf.VoprfSer SimpleOprf.StarkGarble

/-- The messages of the offline phase. -/
structure Offline where
  cm : List UInt8
  gcHashes : List Digest
  tableBlobs : List (List UInt8)

/-- Everything the client holds when it starts to verify. -/
structure Received extends Offline where
  xs : List (List UInt8)
  shareLabels : List Block
  keyLabels : List (List Block)
  proof : List UInt8
  keyBlob : List UInt8

/-- The batch size, which has to be the client's own, and a hash for each circuit. -/
def readMeta (cfg : Config) : Reader (List Digest) := do
  let m ← takeU64
  if m ≠ cfg.m then
    Reader.computing (.error (.exited "m mismatch"))
  else
    Reader.repeated (Reader.array .outOfBounds 32) cfg.m.toNat

/-- Receive up to the ping. -/
def receiveOffline (cfg : Config) : Inbox Packet Offline := do
  let cm ← recvBlob
  let info ← recvBlob
  let gcHashes ← Inbox.computing ((readMeta cfg).parse info)
  if cfg.tablesOnline then
    return { cm, gcHashes, tableBlobs := List.replicate cfg.m.toNat [] }
  else
    let tableBlobs ← Inbox.repeated recvBlob cfg.m.toNat
    return { cm, gcHashes, tableBlobs }

/-- Sixteen random input bytes. -/
def drawInput (rng : Rng) : List UInt8 × Rng :=
  ((List.range 16).map fun j => (rng.get j &&& 0xff).toUInt8, rng.drop 16)

/-- Draw `count` inputs and share the bits of their hashes. -/
def drawInputs (p : Primitives) : Nat → Rng → List (List UInt8 × List UInt8)
  | 0, _ => []
  | count + 1, rng =>
    let (x, rng) := drawInput rng
    let bits := blockToBits128 (h1 p x)
    let (shares, rng) := encodeShares bits rng
    (x, shares) :: drawInputs p count rng

/-- The pads that an ideal oblivious transfer gives for the choices. -/
def receivePads (pads : Pads) (choices : List Bool) : List Block :=
  choices.zipIdx.map fun (choice, t) => if choice then (pads t).2 else (pads t).1

/-- One pair of masked labels. -/
def takeMasked : Reader (Block × Block) := do
  let c0 ← takeBlock
  let c1 ← takeBlock
  return (c0, c1)

/-- The tables, which arrive now unless they came offline. -/
def receiveOnlineTables (cfg : Config) (offline : Offline) : Inbox Packet (List (List UInt8)) :=
  if cfg.tablesOnline then Inbox.repeated recvBlob cfg.m.toNat else pure offline.tableBlobs

/-- Receive the online messages and unmask the chosen labels. -/
def receiveOnline (p : Primitives) (cfg : Config) (rng : Rng) (pads : Pads) (offline : Offline) :
    Inbox Packet Received := do
  let inputs := drawInputs p cfg.m.toNat rng
  let allShares ← Inbox.computing
    (storeFront (List.replicate cfg.nOt.toNat 0) (inputs.flatMap (·.2)))
  let choices := allShares.map fun share => share &&& 1 == 1
  let otOut := receivePads pads choices
  let masks ← recvBlob
  let masked ← Inbox.computing ((Reader.repeated takeMasked cfg.nOt.toNat).parse masks)
  let shareLabels := (masked.zip (choices.zip otOut)).map fun ((c0, c1), choice, pad) =>
    xorBlock pad (if choice then c1 else c0)
  let tableBlobs ← receiveOnlineTables cfg offline
  let keyBlobs ← Inbox.repeated recvBlob cfg.m.toNat
  let keyLabels ← Inbox.computing (keyBlobs.mapM (Reader.repeated takeBlock 128).parse)
  let proof ← recvBlob
  let keyBlob ← recvBlob
  return {
    cm := offline.cm
    gcHashes := offline.gcHashes
    tableBlobs
    xs := inputs.map (·.1)
    shareLabels
    keyLabels
    proof
    keyBlob }

/-! ## The verdict -/

/-- The oracle key: zero when the blob is not one block long. -/
def Received.oprfKey (r : Received) : Block :=
  if r.keyBlob.length = 16 then Block.ofBytes r.keyBlob else 0

/-- Whether the external verifier printed `verify: ok`. -/
def Received.starkOk (p : Primitives) (wf : Winterfell) (r : Received) : Bool :=
  match doVerify p wf r.proof none with
  | .ok () => true
  | .error _ => false

/-- Where the client looks for the `gc_hash` of a proof file. -/
def proofOffset (proof : List UInt8) : UInt64 :=
  let pubLen := ofLe64 (proof.take 8)
  8 + pubLen + 32

/-- The `gc_hash` bytes of a proof file. -/
def proofGc (proof : List UInt8) : Outcome (List UInt8) :=
  slice .outOfBounds proof (proofOffset proof).toNat 32

/-- The comparison of the proof's hash with circuit 0. -/
def bindCheck (p : Primitives) (wf : Winterfell) (r : Received) : Outcome Bool :=
  if r.starkOk p wf ∧ 16 < r.proof.length ∧
      proofOffset r.proof + 32 ≤ UInt64.ofNat r.proof.length then do
    let carried ← proofGc r.proof
    let blob ← readAt r.tableBlobs 0
    let t0 ← deserializeTables blob
    let committed ← readAt r.gcHashes 0
    .ok (carried = t0.gcHash.toList ∧ carried = committed.toList)
  else
    .ok false

/-- The tables of circuit `i` when their hash field is the committed one. -/
def checkedTables (r : Received) (i : Nat) : Outcome (Option TablesMsg) := do
  let blob ← readAt r.tableBlobs i
  let tm ← deserializeTables blob
  let committed ← readAt r.gcHashes i
  .ok (if tm.gcHash ≠ committed then none else some tm)

/-- The garbling that the client evaluates, filled from a table message. -/
def TablesMsg.garbling (tm : TablesMsg) : GarbleResult where
  aesKey := tm.aesKey
  delta := tm.delta
  tables := tm.tables
  outDecode := tm.outDecode
  gcHash := tm.gcHash
  rRoot := tm.rRoot

/-- The active label of evaluator wire `j` of circuit `i`. -/
def evaluatorLabel (r : Received) (i j : Nat) : Outcome Block := do
  let l0 ← readAt r.shareLabels (i * 256 + 2 * j)
  let l1 ← readAt r.shareLabels (i * 256 + 2 * j + 1)
  .ok (reconstructLabel l0 l1)

/-- Evaluate circuit `i` and hash its output with the input. -/
def evaluateCircuit (p : Primitives) (circ : Circuit) (r : Received) (i : Nat) (tm : TablesMsg) :
    Outcome Digest := do
  let gr := TablesMsg.garbling tm
  let keys ← readAt r.keyLabels i
  let keyPart ← slice .outOfBounds keys 0 128
  let evaluatorPart ← (List.range 128).mapM (evaluatorLabel r i)
  let outLabs ← evalCircuitLabels circ (p.aes tm.aesKey) gr (keyPart ++ evaluatorPart)
  let outBits ← decodeOutputs gr outLabs
  let z ← bits128ToBlock outBits
  let x ← readAt r.xs i
  .ok (h2 p x z)

/-- The variables of the evaluation loop. The `int` counter wraps. -/
structure Progress where
  plaintextOk : Bool
  plainMatch : UInt32
  ys : List Digest

/-- The evaluation loop from circuit `i` on; a hash mismatch breaks out of it. -/
def evaluateFrom (p : Primitives) (circ : Circuit) (r : Received) :
    Nat → Nat → Progress → Outcome Progress
  | 0, _, state => .ok state
  | remaining + 1, i, state => do
    match ← checkedTables r i with
    | none => .ok { state with plaintextOk := false }
    | some tm =>
      let y ← evaluateCircuit p circ r i tm
      let ys ← writeAt state.ys i y
      let x ← readAt r.xs i
      if fK p r.oprfKey x = y then
        evaluateFrom p circ r remaining (i + 1)
          { state with ys, plainMatch := state.plainMatch + 1 }
      else
        evaluateFrom p circ r remaining (i + 1) { state with ys, plaintextOk := false }

/-- The loop over the batch, entered only with both checks passed. -/
def evaluateBatch (p : Primitives) (cfg : Config) (circ : Circuit) (r : Received)
    (enabled : Bool) : Outcome Progress :=
  let start : Progress := ⟨true, 0, List.replicate cfg.m.toNat (Vector.replicate 32 0)⟩
  if enabled then evaluateFrom p circ r cfg.m.toNat 0 start else .ok start

/-- What the client prints at the end of a session. -/
structure Verdict where
  starkOk : Bool
  bindOk : Bool
  plaintextOk : Bool
  ys : List Digest
  vok : UInt8

/-- Verify, evaluate and decide. -/
def judge (p : Primitives) (wf : Winterfell) (cfg : Config) (circ : Circuit) (r : Received) :
    Outcome Verdict := do
  let starkOk := r.starkOk p wf
  let bindOk ← bindCheck p wf r
  let final ← evaluateBatch p cfg circ r (starkOk && bindOk)
  .ok {
    starkOk
    bindOk
    plaintextOk := final.plaintextOk
    ys := final.ys
    vok := if starkOk && bindOk && final.plaintextOk && final.plainMatch == cfg.m.toUInt32
      then 1 else 0 }

/-- The whole client against the packets that arrive. -/
def runClient (p : Primitives) (wf : Winterfell) (cfg : Config) (circ : Circuit) (rng : Rng)
    (pads : Pads) (inbox : List Packet) : Outcome (Received × Verdict) := do
  let (offline, inbox) ← receiveOffline cfg inbox
  let (_, inbox) ← recvOctet inbox
  let (received, _) ← receiveOnline p cfg rng pads offline inbox
  let verdict ← judge p wf cfg circ received
  .ok (received, verdict)

end SimpleOprf.VoprfE2e
