import SimpleOprf.Basis.Rows
import SimpleOprf.GcMmo.Correctness
import SimpleOprf.StarkGarble.HonestWitness
import SimpleOprf.VoprfE2e.Transmission

/-!
# The messages of an honest server

A server that runs `run_server` on a well-formed circuit never faults. What it
sends is described by `Messages`, with every blob computed from the garblings.

The garblings are those of the circuits in order, each with its own draws.
Later results use the description and never unfold the server again.
-/

namespace SimpleOprf.VoprfE2e

open SimpleOprf.Basis SimpleOprf.GcMmo SimpleOprf.PlaintextOprf SimpleOprf.ProbeResilient
  SimpleOprf.VoprfSer SimpleOprf.StarkGarble

/-! ## Preparing the batch -/

/-- Share labels are made for consecutive wires, each from its zero label. -/
theorem shareWires_spec {gr : GarbleResult} {count wire : Nat}
    (inside : wire + count ≤ gr.wire0.length) (rng : Rng) :
    ∃ pairs rng', shareWires gr count wire rng = .ok (pairs, rng') ∧ pairs.length = count ∧
      ∀ j, j < count → ∃ draws,
        pairs[j]? = some (makeShareLabels (gr.wire0.getD (wire + j) 0) gr.delta draws).1 := by
  induction count generalizing wire rng with
  | zero => exact ⟨[], rng, rfl, rfl, fun j impossible => absurd impossible (Nat.not_lt_zero j)⟩
  | succ count ih =>
    have room : wire + 1 + count ≤ gr.wire0.length := by omega
    obtain ⟨pairs, rng', ran, length, made⟩ := ih room
      (makeShareLabels (gr.wire0.getD wire 0) gr.delta rng).2
    refine ⟨(makeShareLabels (gr.wire0.getD wire 0) gr.delta rng).1 :: pairs, rng', ?_, ?_, ?_⟩
    · rw [shareWires, readAt_getD 0 (by omega), Outcome.ok_bind]
      dsimp only
      rw [ran]
      rfl
    · rw [List.length_cons, length]
    · intro j bound
      cases j with
      | zero => exact ⟨rng, rfl⟩
      | succ j =>
        obtain ⟨draws, here⟩ := made j (by omega)
        refine ⟨draws, ?_⟩
        rw [List.getElem?_cons_succ, here, Nat.add_right_comm, Nat.add_assoc]

/-- Everything an honest server holds for one evaluation. -/
structure HonestInstance (p : Primitives) (circ : Circuit) (mmoKey : Block)
    (item : Instance) : Prop where
  garbled : ∃ rng, GarbleSpec p.sha256 (p.aes mmoKey) circ mmoKey rng item.gc
  tableBlob : item.tableBlob = (tablesMsg item.gc).bytes
  sharesLength : item.shareLabs.length = 128
  shares : ∀ j, j < 128 → ∃ draws,
    item.shareLabs[j]? = some (makeShareLabels (item.gc.wire0.getD (128 + j) 0) item.gc.delta draws).1

variable {p : Primitives} {circ : Circuit}

/-- A server garbles every circuit of its batch honestly. -/
theorem garbleBatch_spec (datapath : Datapath circ) (mmoKey : Block) (count : Nat) (rng : Rng) :
    ∃ instances rng', garbleBatch p circ mmoKey count rng = .ok (instances, rng') ∧
      instances.length = count ∧ ∀ item ∈ instances, HonestInstance p circ mmoKey item := by
  induction count generalizing rng with
  | zero => exact ⟨[], rng, rfl, rfl, fun item impossible => absurd impossible List.not_mem_nil⟩
  | succ count ih =>
    obtain ⟨gc, afterGarbling, garbled, spec⟩ :=
      garbleCircuit_spec p.sha256 (p.aes mmoKey) mmoKey datapath.wf rng
    have keyWires : circ.nInput0.toNat = 128 := by
      rw [datapath.key]
      rfl
    have inputWires : circ.nInput1.toNat = 128 := by
      rw [datapath.input]
      rfl
    have wires : 256 ≤ gc.wire0.length := by
      rw [spec.length, ← datapath.inputs]
      exact datapath.wf.inputs
    have room : 128 + 128 ≤ gc.wire0.length := wires
    obtain ⟨shareLabs, afterShares, shared, sharesLength, shares⟩ :=
      shareWires_spec room afterGarbling
    obtain ⟨rest, final, ran, restLength, restHonest⟩ := ih afterShares
    refine ⟨⟨gc, (tablesMsg gc).bytes, shareLabs⟩ :: rest, final, ?_, by simp [restLength], ?_⟩
    · rw [garbleBatch, garbled, Outcome.ok_bind]
      dsimp only
      rw [serializeTables_eq (by omega), Outcome.ok_bind, inputWires, keyWires, shared,
        Outcome.ok_bind]
      dsimp only
      rw [ran]
      rfl
    · intro item member
      rcases List.mem_cons.mp member with rfl | later
      · exact ⟨⟨rng, spec⟩, rfl, sharesLength, shares⟩
      · exact restHonest item later

section Instance

variable {mmoKey : Block} {item : Instance}

/-- A garbled circuit has all input wires. -/
theorem HonestInstance.wires (datapath : Datapath circ)
    (honest : HonestInstance p circ mmoKey item) : 256 ≤ item.gc.wire0.length := by
  obtain ⟨rng, spec⟩ := honest.garbled
  rw [spec.length, ← datapath.inputs]
  exact datapath.wf.inputs

/-- The table message of an honest garbling is small enough to be sent and read. -/
theorem HonestInstance.fits (datapath : Datapath circ)
    (honest : HonestInstance p circ mmoKey item) :
    (tablesMsg item.gc).Fits ∧ item.tableBlob.length < vectorLimit := by
  obtain ⟨rng, spec⟩ := honest.garbled
  have few : (tablesMsg item.gc).tables.length < 2 ^ 55 := by
    change item.gc.tables.length < 2 ^ 55
    rw [spec.length_tables]
    exact andGates_lt circ
  have keys : (tablesMsg item.gc).keyWire0.length ≤ 128 := List.length_take_le _ _
  have decode : (tablesMsg item.gc).outDecode.length = 128 := by
    change item.gc.outDecode.length = 128
    rw [spec.outDecode, List.length_map, datapath.wf.outputs, datapath.output]
    rfl
  refine ⟨⟨by omega, by omega, by omega⟩, ?_⟩
  rw [honest.tableBlob, TablesMsg.length_bytes, vectorLimit]
  omega

end Instance

/-! ## Masked labels -/

/-- The two labels of a wire under the pads of one transfer. -/
def maskPair (pad : Block × Block) (zero delta : Block) : Block × Block :=
  (xorBlock pad.1 zero, xorBlock pad.2 (xorBlock zero delta))

/-- The masked labels of the two shares of wire `j` in circuit `i`. -/
def maskRow (pads : Pads) (i : Nat) (item : Instance) (j : Nat) : List (Block × Block) :=
  let sp := item.shareLabs.getD j default
  [maskPair (pads (i * 256 + 2 * j)) sp.s0_0 item.gc.delta,
    maskPair (pads (i * 256 + 2 * j + 1)) sp.s1_0 item.gc.delta]

/-- The masked labels of one circuit. -/
def circuitMasks (pads : Pads) (entry : Instance × Nat) : List (Block × Block) :=
  (List.range 128).flatMap (maskRow pads entry.2 entry.1)

/-- The masked labels of a batch, circuit by circuit. -/
def batchMasks (pads : Pads) (instances : List Instance) : List (Block × Block) :=
  instances.zipIdx.flatMap (circuitMasks pads)

theorem length_circuitMasks (pads : Pads) (entry : Instance × Nat) :
    (circuitMasks pads entry).length = 256 := by
  have rows : (circuitMasks pads entry).length = (List.range 128).length * 2 :=
    length_rows fun j _ => rfl
  rw [rows, List.length_range]

theorem length_batchMasks (pads : Pads) (instances : List Instance) :
    (batchMasks pads instances).length = instances.length * 256 := by
  rw [batchMasks, length_rows fun entry _ => length_circuitMasks pads entry, List.length_zipIdx]

/-- The masks of wire `j` in circuit `i` stand at the indices of its transfers. -/
theorem getElem?_batchMasks (pads : Pads) {instances : List Instance} {i j share : Nat}
    {item : Instance} (found : instances[i]? = some item) (wire : j < 128) (shares : share < 2) :
    (batchMasks pads instances)[i * 256 + (j * 2 + share)]? =
      (maskRow pads i item j)[share]? := by
  have circuit : instances.zipIdx[i]? = some (item, i) := by
    rw [List.getElem?_zipIdx, found]
    simp
  have row : (List.range 128)[j]? = some j := by
    rw [List.getElem?_range wire]
  have uniform : ∀ j ∈ List.range 128, (maskRow pads i item j).length = 2 := fun _ _ => rfl
  rw [batchMasks, getElem?_rows (fun entry _ => length_circuitMasks pads entry) (by omega) circuit]
  exact getElem?_rows uniform shares row

/-- One round of the server's loop writes the two pairs of a wire. -/
theorem maskShares_eq {pads : Pads} {nOt i j : Nat} {item : Instance}
    (room : i * 256 + 2 * j + 1 < nOt) (made : j < item.shareLabs.length) :
    maskShares ((List.range nOt).map pads) i j item =
      .ok ((maskRow pads i item j).flatMap pairBytes) := by
  have pad : ∀ t, t < nOt → readAt ((List.range nOt).map pads) t = .ok (pads t) := by
    intro t inside
    rw [readAt_eq_ok, List.getElem?_map, List.getElem?_range inside]
    rfl
  simp only [maskShares, readAt_getD default made, pad _ (Nat.lt_of_succ_lt room), pad _ room,
    Outcome.ok_bind]
  simp [maskRow, maskPair, pairBytes, List.append_assoc]

/-- The server's loop writes the masked pairs row by row. -/
theorem masksBlob_eq {pads : Pads} {instances : List Instance} {nOt : Nat}
    (transfers : nOt = instances.length * 256)
    (sized : ∀ item ∈ instances, item.shareLabs.length = 128) :
    masksBlob ((List.range nOt).map pads) instances =
      .ok ((batchMasks pads instances).flatMap pairBytes) := by
  let row := fun (entry : Instance × Nat) j => (maskRow pads entry.2 entry.1 j).flatMap pairBytes
  have rows : instances.zipIdx.mapM (fun entry => (List.range 128).mapM fun j =>
      maskShares ((List.range nOt).map pads) entry.2 j entry.1) =
        .ok (instances.zipIdx.map fun entry => (List.range 128).map (row entry)) := by
    apply Outcome.mapM_eq_map
    rintro ⟨item, i⟩ member
    obtain ⟨-, bounded, same⟩ := List.mem_zipIdx member
    apply Outcome.mapM_eq_map
    intro j wire
    have inside := List.mem_range.mp wire
    have listed : item ∈ instances := by
      rw [same]
      exact List.getElem_mem _
    exact maskShares_eq (by omega) (by rw [sized item listed]; exact inside)
  have layout : (instances.zipIdx.map fun entry => (List.range 128).map (row entry)).flatten.flatten =
      (batchMasks pads instances).flatMap pairBytes := by
    unfold batchMasks circuitMasks
    simp only [List.flatten_eq_flatMap, List.flatMap_assoc, List.flatMap_map, id, row]
  unfold masksBlob
  rw [rows, Outcome.ok_bind, layout]

/-! ## Key labels -/

/-- The active labels of the key wires. -/
def activeKeyLabels (keyBits : List UInt8) (gc : GarbleResult) : List Block :=
  (List.range 128).map fun j => labelForBit (gc.wire0.getD j 0) gc.delta (keyBits.getD j 0)

@[simp] theorem length_activeKeyLabels (keyBits : List UInt8) (gc : GarbleResult) :
    (activeKeyLabels keyBits gc).length = 128 := by
  rw [activeKeyLabels, List.length_map, List.length_range]

/-- The blob holds the active key labels. -/
theorem keyLabelsBlob_eq {keyBits : List UInt8} {gc : GarbleResult} (bits : keyBits.length = 128)
    (wires : 128 ≤ gc.wire0.length) :
    keyLabelsBlob keyBits gc = .ok ((activeKeyLabels keyBits gc).flatMap Block.bytes) := by
  have labels : (List.range 128).mapM (fun j => do
      let wire0 ← readAt gc.wire0 j
      let bit ← readAt keyBits j
      Except.ok (labelForBit wire0 gc.delta bit)) = .ok (activeKeyLabels keyBits gc) := by
    apply Outcome.mapM_eq_map
    intro j wire
    have inside := List.mem_range.mp wire
    rw [readAt_getD 0 (by omega), Outcome.ok_bind, readAt_getD 0 (by omega), Outcome.ok_bind]
  unfold keyLabelsBlob
  rw [labels, Outcome.ok_bind]

/-! ## The whole server -/

/-- The state of an honest server at the ping. -/
structure Prepared (p : Primitives) (wf : Winterfell) (cfg : Config) (circ : Circuit)
    (server : Server) : Prop where
  cm : server.cm = keyCommitment p server.oprfKey 128
  keyBits : server.keyBits = blockToBits128 server.oprfKey
  length : server.instances.length = cfg.m.toNat
  honest : ∃ mmoKey, ∀ item ∈ server.instances, HonestInstance p circ mmoKey item
  proof : ∃ item rest, server.instances[0]? = some item ∧
    server.proof = (proofHeader p (starkWitness p item.gc server.cm)).bytes ++ rest ∧
    doVerify p wf server.proof none = .ok () ∧ rest.length < 2 ^ 62

/-- The contents of all blobs that a server sends. -/
def serverMessages (pads : Pads) (server : Server) : Messages where
  cm := server.cm
  gcHashes := server.instances.map (·.gc.gcHash)
  tableBlobs := server.instances.map (·.tableBlob)
  masks := batchMasks pads server.instances
  keyLabels := server.instances.map fun item => activeKeyLabels server.keyBits item.gc
  proof := server.proof
  keyBlob := server.oprfKey.bytes

variable {wf : Winterfell} {cfg : Config} {server : Server}

/-- Up to the ping an honest server sends its offline messages. -/
theorem serverOffline_spec (datapath : Datapath circ) (gates : 0 < circ.andGates)
    (batch : cfg.Batch) (honest : wf.AcceptsHonest p circ.andGates) (rng : Rng) (pads : Pads) :
    ∃ server, serverOffline p wf cfg circ rng =
        .ok (server, (serverMessages pads server).offline cfg ++ [.octet 1]) ∧
      server.oprfKey = (randomBlock rng).1 ∧ Prepared p wf cfg circ server := by
  let oprfKey := (randomBlock rng).1
  let mmoKey := (randomBlock (randomBlock rng).2).1
  have sized : (keyCommitment p oprfKey 128).length = cmBytes := by
    rw [length_keyCommitment]
    rfl
  obtain ⟨instances, rng', garbled, length, made⟩ := garbleBatch_spec (p := p) datapath mmoKey
    cfg.m.toNat (randomBlock (randomBlock rng).2).2
  have nonempty : 0 < instances.length := by
    rw [length]
    exact batch.positive
  obtain ⟨garbling, spec⟩ := (made instances[0] (List.getElem_mem nonempty)).garbled
  obtain ⟨rest, proved, verified, short⟩ := doProve_starkWitness spec sized gates honest
  refine ⟨⟨oprfKey, keyCommitment p oprfKey 128, blockToBits128 oprfKey, instances, _⟩, ?_, rfl,
    rfl, rfl, length, ⟨mmoKey, made⟩,
    instances[0], rest, List.getElem?_eq_getElem nonempty, rfl, verified, short⟩
  unfold serverOffline
  dsimp only
  rw [garbled, Outcome.ok_bind]
  dsimp only
  rw [readAt_of_lt nonempty, Outcome.ok_bind, proved]
  simp only [Messages.offline, serverMessages, List.flatMap_map, List.append_assoc]
  rfl

/-- After the ping it sends its online messages. -/
theorem serverOnline_eq (prepared : Prepared p wf cfg circ server) (datapath : Datapath circ)
    (batch : cfg.Batch) (pads : Pads) :
    serverOnline cfg server pads = .ok ((serverMessages pads server).online cfg) := by
  obtain ⟨mmoKey, made⟩ := prepared.honest
  have transfers := batch.transfers
  have product : cfg.nOt = cfg.m * 256 := by
    apply UInt64.toNat_inj.mp
    have bound := cfg.nOt.toNat_lt
    rw [UInt64.toNat_mul]
    simp only [UInt64.reduceToNat]
    omega
  have masks : masksBlob ((List.range cfg.nOt.toNat).map pads) server.instances = .ok _ :=
    masksBlob_eq (by rw [prepared.length]; omega) fun item member => (made item member).sharesLength
  have keys : (server.instances.mapM fun item => keyLabelsBlob server.keyBits item.gc) =
      .ok (server.instances.map fun item =>
        (activeKeyLabels server.keyBits item.gc).flatMap Block.bytes) := by
    apply Outcome.mapM_eq_map
    intro item member
    have wires := (made item member).wires datapath
    exact keyLabelsBlob_eq (by rw [prepared.keyBits, length_blockToBits128]) (by omega)
  unfold serverOnline
  rw [if_neg (not_not.mpr product)]
  dsimp only
  rw [masks, Outcome.ok_bind, keys, Outcome.ok_bind]
  simp only [Messages.online, serverMessages, List.flatMap_map, List.append_assoc]

/-- The messages of an honest server have the sizes that the client expects. -/
theorem serverMessages_fits (prepared : Prepared p wf cfg circ server) (datapath : Datapath circ)
    (batch : cfg.Batch) (pads : Pads) : (serverMessages pads server).Fits cfg := by
  obtain ⟨mmoKey, made⟩ := prepared.honest
  obtain ⟨first, rest, -, proof, -, short⟩ := prepared.proof
  have transfers := batch.transfers
  have committed : server.cm.length = 2080 := by
    rw [prepared.cm, length_keyCommitment]
  constructor
  case cm =>
    change server.cm.length < vectorLimit
    rw [committed]
    norm_num [vectorLimit]
  case gcHashes => rw [serverMessages, List.length_map, prepared.length]
  case tableBlobs => rw [serverMessages, List.length_map, prepared.length]
  case tableBlob =>
    intro blob member
    obtain ⟨item, listed, rfl⟩ := List.mem_map.mp member
    exact ((made item listed).fits datapath).2
  case masks =>
    change (batchMasks pads server.instances).length = cfg.nOt.toNat
    rw [length_batchMasks, prepared.length]
    omega
  case keyLabels => rw [serverMessages, List.length_map, prepared.length]
  case keyLabel =>
    intro labels member
    obtain ⟨item, -, rfl⟩ := List.mem_map.mp member
    exact length_activeKeyLabels _ _
  case proof =>
    change server.proof.length < vectorLimit
    have cmSize : (proofHeader p (starkWitness p first.gc server.cm)).cm.length = 2080 := committed
    rw [proof, List.length_append, Header.length_bytes, cmSize, vectorLimit]
    omega
  case keyBlob =>
    change server.oprfKey.bytes.length < vectorLimit
    rw [Block.length_bytes]
    norm_num [vectorLimit]

end SimpleOprf.VoprfE2e
