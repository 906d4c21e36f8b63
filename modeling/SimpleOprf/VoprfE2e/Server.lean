import SimpleOprf.GcMmo.Bits
import SimpleOprf.ProbeResilient
import SimpleOprf.StarkGarble.Prove
import SimpleOprf.VoprfE2e.Channel
import SimpleOprf.VoprfSer

/-!
# The server

`run_server` in the two phases that the ping separates. The oblivious transfer
is ideal: `pads t` is the pair of pads that the sender gets for transfer `t`.

`Server` holds what the first phase leaves for the second. The messages of each
phase are the packets that it puts on the wire, in order.
-/

namespace SimpleOprf.VoprfE2e

open SimpleOprf.Basis SimpleOprf.GcMmo SimpleOprf.PlaintextOprf SimpleOprf.ProbeResilient
  SimpleOprf.VoprfSer SimpleOprf.StarkGarble

/-- The command-line parameters that both programs read. -/
structure Config where
  m : UInt64 := 128
  nOt : UInt64 := 32768
  tablesOnline : Bool := false
deriving Repr

/-- The random pads of an ideal oblivious transfer. -/
abbrev Pads := Nat → Block × Block

/-- What the server prepares for one evaluation. -/
structure Instance where
  gc : GarbleResult
  tableBlob : List UInt8
  shareLabs : List ShareLabelPair

/-- What the server holds before it sends. -/
structure Server where
  oprfKey : Block
  cm : List UInt8
  keyBits : List UInt8
  instances : List Instance
  proof : List UInt8

/-- Share labels for `count` evaluator wires from wire `wire` on. -/
def shareWires (gr : GarbleResult) : Nat → Nat → Rng → Outcome (List ShareLabelPair × Rng)
  | 0, _, rng => .ok ([], rng)
  | count + 1, wire, rng => do
    let wire0 ← readAt gr.wire0 wire
    let (pair, rng) := makeShareLabels wire0 gr.delta rng
    let (rest, rng) ← shareWires gr count (wire + 1) rng
    .ok (pair :: rest, rng)

/-- Garble `count` copies of the circuit. -/
def garbleBatch (p : Primitives) (circ : Circuit) (mmoKey : Block) :
    Nat → Rng → Outcome (List Instance × Rng)
  | 0, rng => .ok ([], rng)
  | count + 1, rng => do
    let (gc, rng) ← garbleCircuit p.sha256 circ mmoKey (p.aes mmoKey) rng
    let tableBlob ← serializeTables gc
    let (shareLabs, rng) ← shareWires gc circ.nInput1.toNat circ.nInput0.toNat rng
    let (rest, rng) ← garbleBatch p circ mmoKey count rng
    .ok ({ gc, tableBlob, shareLabs } :: rest, rng)

/-- The batch size and the table hash of every circuit. -/
def metaBlob (cfg : Config) (gcHashes : List Digest) : List UInt8 :=
  le64 cfg.m ++ gcHashes.flatMap (·.toList)

/-- Draw the keys, garble, prove circuit 0, and send the offline messages. -/
def serverOffline (p : Primitives) (wf : Winterfell) (cfg : Config) (circ : Circuit) (rng : Rng) :
    Outcome (Server × List Packet) := do
  let (oprfKey, rng) := randomBlock rng
  let cm := keyCommitment p oprfKey 128
  let keyBits := blockToBits128 oprfKey
  let (mmoKey, rng) := randomBlock rng
  let (instances, _) ← garbleBatch p circ mmoKey cfg.m.toNat rng
  let first ← readAt instances 0
  match doProve p wf (serializeStarkWitness p first.gc cm) with
  | .error _ => .error (.exited "STARK prove failed")
  | .ok proof =>
    let offline := if cfg.tablesOnline then [] else instances.flatMap (sendBlob ·.tableBlob)
    .ok ({ oprfKey, cm, keyBits, instances, proof },
      sendBlob cm ++ sendBlob (metaBlob cfg (instances.map (·.gc.gcHash))) ++ offline ++
        [.octet 1])

/-- The masked labels of the two shares of one evaluator wire. -/
def maskShares (otMsg : List (Block × Block)) (i j : Nat) (item : Instance) :
    Outcome (List UInt8) := do
  let sp ← readAt item.shareLabs j
  let idx0 := i * 256 + 2 * j
  let idx1 := idx0 + 1
  let (r00, r01) ← readAt otMsg idx0
  let (r10, r11) ← readAt otMsg idx1
  let c00 := xorBlock r00 sp.s0_0
  let c01 := xorBlock r01 (xorBlock sp.s0_0 item.gc.delta)
  let c10 := xorBlock r10 sp.s1_0
  let c11 := xorBlock r11 (xorBlock sp.s1_0 item.gc.delta)
  .ok (c00.bytes ++ c01.bytes ++ c10.bytes ++ c11.bytes)

/-- The masked label pairs of all transfers, circuit by circuit. -/
def masksBlob (otMsg : List (Block × Block)) (instances : List Instance) : Outcome (List UInt8) := do
  let rows ← instances.zipIdx.mapM fun (item, i) =>
    (List.range 128).mapM fun j => maskShares otMsg i j item
  .ok rows.flatten.flatten

/-- The active labels of the key wires. -/
def keyLabelsBlob (keyBits : List UInt8) (gc : GarbleResult) : Outcome (List UInt8) := do
  let labels ← (List.range 128).mapM fun j => do
    let wire0 ← readAt gc.wire0 j
    let bit ← readAt keyBits j
    .ok (labelForBit wire0 gc.delta bit)
  .ok (labels.flatMap Block.bytes)

/-- Everything the server sends after the ping. -/
def serverOnline (cfg : Config) (server : Server) (pads : Pads) : Outcome (List Packet) :=
  if cfg.nOt ≠ cfg.m * 256 then
    .error (.exited "n_ot must be m*256")
  else do
    let otMsg := (List.range cfg.nOt.toNat).map pads
    let masks ← masksBlob otMsg server.instances
    let online := if cfg.tablesOnline then server.instances.flatMap (sendBlob ·.tableBlob) else []
    let keyBlobs ← server.instances.mapM fun item => keyLabelsBlob server.keyBits item.gc
    .ok (sendBlob masks ++ online ++ keyBlobs.flatMap sendBlob ++ sendBlob server.proof ++
      -- The loopback oracle: the key itself, for the client's comparison with F_k.
      sendBlob server.oprfKey.bytes)

end SimpleOprf.VoprfE2e
