import SimpleOprf.VoprfE2e.Adversary
import SimpleOprf.VoprfE2e.HonestServer

/-!
# A session of two honest parties

`session` runs both programs against each other. The client's labels of every
circuit are the active labels of the key bits and of the bits of its hashed
input, so each evaluation computes what the circuit computes.

The result is for every circuit that computes AES on its wires, every key,
every random stream and every number of evaluations, with tables sent before or
after the ping.
-/

namespace SimpleOprf.VoprfE2e

open SimpleOprf.Basis SimpleOprf.GcMmo SimpleOprf.PlaintextOprf SimpleOprf.ProbeResilient
  SimpleOprf.VoprfSer SimpleOprf.StarkGarble

/-- Both parties at the end of a session, and the octet that the server gets. -/
structure Session where
  server : Server
  received : Received
  verdict : Verdict
  vok : UInt8

/-- `run_server` and `run_client` with their messages delivered in order. -/
def session (p : Primitives) (wf : Winterfell) (cfg : Config) (circ : Circuit)
    (serverRng clientRng : Rng) (pads : Pads) : Outcome Session := do
  let (server, first) ← serverOffline p wf cfg circ serverRng
  let (offline, inbox) ← receiveOffline cfg first
  -- The ping goes to the client and back.
  let (ping, inbox) ← recvOctet inbox
  let _ ← recvOctet [.octet ping]
  let second ← serverOnline cfg server pads
  let (received, _) ← receiveOnline p cfg clientRng pads offline (inbox ++ second)
  let verdict ← judge p wf cfg circ received
  let (vok, _) ← recvOctet [.octet verdict.vok]
  .ok { server, received, verdict, vok }

/-! ## Unmasking -/

variable {p : Primitives} {wf : Winterfell} {cfg : Config} {circ : Circuit} {server : Server}
  {rng : Rng} {pads : Pads}

/-- Of a masked pair the client recovers the label of its share bit. -/
theorem getElem?_unmasked_maskPair {masks : List (Block × Block)} {t : Nat} {zero delta : Block}
    {share : UInt8} (masked : masks[t]? = some (maskPair (pads t) zero delta))
    (drawn : (clientShares p cfg rng)[t]? = some share) (isBit : share = 0 ∨ share = 1) :
    (unmasked p cfg rng pads masks)[t]? = some (labelForBit zero delta share) := by
  have choice : (clientChoices p cfg rng)[t]? = some (share &&& 1 == 1) := by
    rw [clientChoices, List.getElem?_map, drawn]
    rfl
  have cancel : ∀ pad label : Block, pad + (pad + label) = label := by
    intro pad label
    rw [← add_assoc, Block.add_self, zero_add]
  rw [getElem?_unmasked masked choice]
  rcases isBit with rfl | rfl
  · exact congrArg some (cancel _ _)
  · exact congrArg some (cancel _ _)

/-- The inputs that the client drew, with their shares. -/
theorem exists_input (p : Primitives) (rng : Rng) {i : Nat} (inside : i < cfg.m.toNat) :
    ∃ x draws, ((drawInputs p cfg.m.toNat rng).map (·.1))[i]? = some x ∧
      ∀ u, u < 256 → (clientShares p cfg rng)[i * 256 + u]? =
        some ((encodeShares (blockToBits128 (h1 p x)) draws).1.getD u 0) := by
  have listed : i < (drawInputs p cfg.m.toNat rng).length := by rwa [length_drawInputs]
  have member := List.getElem_mem listed
  obtain ⟨draws, shares⟩ := drawInputs_shares p _ rng _ member
  refine ⟨(drawInputs p cfg.m.toNat rng)[i].1, draws, ?_, fun u column => ?_⟩
  · rw [List.getElem?_map, List.getElem?_eq_getElem listed]
    rfl
  · have size := length_shares p _ rng _ member
    rw [clientShares, getElem?_rows (length_shares p _ rng) column
      (List.getElem?_eq_getElem listed), ← shares, List.getD_eq_getElem _ _ (by omega)]
    exact List.getElem?_eq_getElem _

/-! ## One evaluation -/

/-- The client reconstructs the active label of each of its input bits. -/
theorem evaluatorLabel_eq (pads : Pads) {mmoKey : Block} {item : Instance}
    (honest : HonestInstance p circ mmoKey item) {i j : Nat}
    (found : server.instances[i]? = some item) (wire : j < 128) {x : List UInt8} {draws : Rng}
    (shares : ∀ u, u < 256 → (clientShares p cfg rng)[i * 256 + u]? =
      some ((encodeShares (blockToBits128 (h1 p x)) draws).1.getD u 0)) :
    evaluatorLabel (received p cfg rng pads (serverMessages pads server)) i j =
      .ok (labelForBit (item.gc.wire0.getD (128 + j) 0) item.gc.delta
        ((blockToBits128 (h1 p x)).getD j 0)) := by
  obtain ⟨made, pair⟩ := honest.shares j wire
  obtain ⟨first, second, sum⟩ := encodeShares_shares (isBit_blockToBits128 (h1 p x)) draws
    (show j < (blockToBits128 (h1 p x)).length by rwa [length_blockToBits128])
  have labels : item.shareLabs.getD j default =
      (makeShareLabels (item.gc.wire0.getD (128 + j) 0) item.gc.delta made).1 := by
    rw [List.getD_eq_getElem?_getD, pair]
    rfl
  have masks0 := getElem?_batchMasks pads found wire (show 0 < 2 by omega)
  have masks1 := getElem?_batchMasks pads found wire (show 1 < 2 by omega)
  have even : i * 256 + (j * 2 + 0) = i * 256 + 2 * j := by omega
  have odd : i * 256 + (j * 2 + 1) = i * 256 + 2 * j + 1 := by omega
  rw [even] at masks0
  rw [odd] at masks1
  have label0 := getElem?_unmasked_maskPair masks0 (shares (2 * j) (by omega)) first
  have label1 := getElem?_unmasked_maskPair masks1
    (by rw [Nat.add_assoc]; exact shares (2 * j + 1) (by omega)) second
  have held : (received p cfg rng pads (serverMessages pads server)).shareLabels =
      unmasked p cfg rng pads (batchMasks pads server.instances) := rfl
  rw [evaluatorLabel, held, readAt_eq_ok.mpr label0, Outcome.ok_bind, readAt_eq_ok.mpr label1,
    Outcome.ok_bind, labels, reconstruct_makeShareLabels _ _ _ first second, sum]

/-- The input bits of one evaluation: the key, then the hashed input. -/
def sessionBits (p : Primitives) (key : Block) (x : List UInt8) : List UInt8 :=
  blockToBits128 key ++ blockToBits128 (h1 p x)

/-- The key bits and the input bits are the inputs of the circuit. -/
theorem sessionBits_input (datapath : Datapath circ) (key : Block) (x : List UInt8) :
    InputBits circ (sessionBits p key x) where
  length := by
    rw [datapath.inputs, sessionBits, List.length_append, length_blockToBits128,
      length_blockToBits128]
  isBit bit member := by
    rcases List.mem_append.mp member with keyBit | inputBit
    · exact isBit_blockToBits128 key bit keyBit
    · exact isBit_blockToBits128 (h1 p x) bit inputBit

/-- The labels that the client evaluates a circuit on. -/
def sessionLabels (p : Primitives) (key : Block) (x : List UInt8) (gc : GarbleResult) :
    List Block :=
  activeKeyLabels (blockToBits128 key) gc ++ (List.range 128).map fun j =>
    labelForBit (gc.wire0.getD (128 + j) 0) gc.delta ((blockToBits128 (h1 p x)).getD j 0)

/-- The client evaluates on the active labels of those bits. -/
theorem sessionLabels_active (datapath : Datapath circ) (key : Block) (x : List UInt8)
    (gc : GarbleResult) : ActiveInputs circ gc (sessionBits p key x) (sessionLabels p key x gc) := by
  have keySize := length_activeKeyLabels (blockToBits128 key) gc
  constructor
  · rw [datapath.inputs, sessionLabels, List.length_append, keySize, List.length_map,
      List.length_range]
  · intro i input
    rw [datapath.inputs] at input
    simp only [sessionLabels, sessionBits, List.getD_eq_getElem?_getD]
    by_cases keyWire : i < 128
    · rw [List.getElem?_append_left (by omega), activeKeyLabels, List.getElem?_map,
        List.getElem?_range keyWire, List.getElem?_append_left (by rwa [length_blockToBits128])]
      simp [List.getD_eq_getElem?_getD]
    · have position : 128 + (i - 128) = i := by omega
      rw [List.getElem?_append_right (by omega), keySize, List.getElem?_map,
        List.getElem?_range (by omega),
        List.getElem?_append_right (by rw [length_blockToBits128]; omega), length_blockToBits128]
      simp [position]

/-- Each evaluation of an honest session computes what the circuit computes. -/
theorem session_evaluates {f : Block → Block → Block} (rng : Rng) (pads : Pads)
    (prepared : Prepared p wf cfg circ server) (datapath : Datapath circ)
    (computes : Computes circ f) {i : Nat} (inside : i < cfg.m.toNat) :
    ∃ x, Evaluates p circ (received p cfg rng pads (serverMessages pads server)) i x
      (h2 p x (f server.oprfKey (h1 p x))) := by
  obtain ⟨mmoKey, made⟩ := prepared.honest
  have bounded : i < server.instances.length := by rwa [prepared.length]
  let item := server.instances[i]
  have found : server.instances[i]? = some item := List.getElem?_eq_getElem bounded
  have honest : HonestInstance p circ mmoKey item := made item (List.getElem_mem bounded)
  obtain ⟨x, draws, input, shares⟩ := exists_input p rng inside
  obtain ⟨garbling, spec⟩ := honest.garbled
  obtain ⟨outs, out, evaluated, plain, decoded⟩ := spec.decode datapath.wf
    (sessionBits_input datapath server.oprfKey x)
    (sessionLabels_active datapath server.oprfKey x item.gc)
  have result : out = blockToBits128 (f server.oprfKey (h1 p x)) :=
    Except.ok.inj (plain.symm.trans (computes server.oprfKey (h1 p x)))
  subst result
  let r := received p cfg rng pads (serverMessages pads server)
  have checked : checkedTables r i = .ok (some (tablesMsg item.gc)) := by
    refine checkedTables_eq_some.mpr ⟨item.tableBlob, ?_, ?_, ?_⟩
    · change (server.instances.map (·.tableBlob))[i]? = _
      rw [List.getElem?_map, found]
      rfl
    · rw [honest.tableBlob]
      exact deserialize_tablesMsg (honest.fits datapath).1
    · change (server.instances.map (·.gc.gcHash))[i]? = _
      rw [List.getElem?_map, found]
      rfl
  have keys : r.keyLabels[i]? = some (activeKeyLabels (blockToBits128 server.oprfKey) item.gc) := by
    change (server.instances.map fun item => activeKeyLabels server.keyBits item.gc)[i]? = _
    rw [List.getElem?_map, found, prepared.keyBits]
    rfl
  have keyPart : slice .outOfBounds (activeKeyLabels (blockToBits128 server.oprfKey) item.gc) 0 128 =
      .ok (activeKeyLabels (blockToBits128 server.oprfKey) item.gc) :=
    slice_whole (length_activeKeyLabels _ _)
  have evaluatorPart : (List.range 128).mapM (evaluatorLabel r i) = .ok _ :=
    Outcome.mapM_eq_map fun j member =>
      evaluatorLabel_eq pads honest found (List.mem_range.mp member) shares
  refine ⟨x, input, tablesMsg item.gc, checked, ?_⟩
  have key : p.aes (tablesMsg item.gc).aesKey = p.aes mmoKey := congrArg p.aes spec.aesKey
  rw [evaluateCircuit, readAt_eq_ok.mpr keys, Outcome.ok_bind, keyPart, Outcome.ok_bind,
    evaluatorPart, Outcome.ok_bind, key]
  change (evalCircuitLabels circ (p.aes mmoKey) item.gc _ >>= fun outLabs =>
    decodeOutputs item.gc outLabs >>= _) = _
  rw [← sessionLabels, evaluated, Outcome.ok_bind, decoded, Outcome.ok_bind,
    bits128ToBlock_blockToBits128, Outcome.ok_bind]
  have drawn : readAt r.xs i = .ok x := readAt_eq_ok.mpr input
  rw [drawn, Outcome.ok_bind]

/-! ## The session -/

/-- The client's two checks pass on what an honest server sends. -/
theorem session_checks (rng : Rng) (pads : Pads) (prepared : Prepared p wf cfg circ server) (datapath : Datapath circ)
    (batch : cfg.Batch) :
    (received p cfg rng pads (serverMessages pads server)).starkOk p wf = true ∧
      bindCheck p wf (received p cfg rng pads (serverMessages pads server)) = .ok true := by
  obtain ⟨mmoKey, made⟩ := prepared.honest
  obtain ⟨first, rest, found, proof, verified, -⟩ := prepared.proof
  have honest : HonestInstance p circ mmoKey first := made first (List.mem_of_getElem? found)
  have stark := starkOk_of_doVerify (r := received p cfg rng pads (serverMessages pads server))
    verified
  have fits := serverMessages_fits prepared datapath batch pads
  have blob : (server.instances.map (·.tableBlob))[0]? = some (tablesMsg first.gc).bytes := by
    rw [List.getElem?_map, found, ← honest.tableBlob]
    rfl
  have committed : (server.instances.map (·.gc.gcHash))[0]? = some (tablesMsg first.gc).gcHash := by
    rw [List.getElem?_map, found]
    rfl
  exact ⟨stark, bindCheck_header proof fits.proof stark blob
    (deserialize_tablesMsg (honest.fits datapath).1) rfl committed⟩

/-- The stages of a session fit together: what the client judges is what the
server prepared. -/
theorem session_eq {serverRng : Rng} (batch : cfg.Batch) (datapath : Datapath circ)
    (prepared : Prepared p wf cfg circ server)
    (offline : serverOffline p wf cfg circ serverRng =
      .ok (server, (serverMessages pads server).offline cfg ++ [.octet 1]))
    {v : Verdict}
    (judged : judge p wf cfg circ (received p cfg rng pads (serverMessages pads server)) = .ok v) :
    session p wf cfg circ serverRng rng pads =
      .ok ⟨server, received p cfg rng pads (serverMessages pads server), v, v.vok⟩ := by
  have fits := serverMessages_fits prepared datapath batch pads
  have beforePing := receives_offline batch fits [.octet 1]
  have afterPing := (receives_online p rng pads batch fits).run_eq
  unfold session
  rw [offline, Outcome.ok_bind]
  dsimp only
  rw [beforePing, Outcome.ok_bind]
  change (serverOnline cfg server pads >>= _) = _
  rw [serverOnline_eq prepared datapath batch pads, Outcome.ok_bind, List.nil_append, afterPing,
    Outcome.ok_bind]
  dsimp only
  rw [judged]
  rfl

/-- Two honest parties end with `bind_ok` and with `H2(x, f(k, H1(x)))` for every
input, under any randomness; with the cipher for `f` the client accepts. -/
theorem honest_session_computes_oprf (p : Primitives) (wf : Winterfell) (cfg : Config)
    (circ : Circuit) (f : Block → Block → Block) (datapath : Datapath circ)
    (gates : 0 < circ.andGates) (computes : Computes circ f) (batch : cfg.Batch)
    (honest : wf.AcceptsHonest p circ.andGates) (serverRng clientRng : Rng) (pads : Pads) :
    ∃ s, session p wf cfg circ serverRng clientRng pads = .ok s ∧
      s.server.oprfKey = (randomBlock serverRng).1 ∧ s.verdict.bindOk = true ∧
      (∀ i, i < cfg.m.toNat → ∃ x, s.received.xs[i]? = some x ∧
        s.verdict.ys[i]? = some (h2 p x (f s.server.oprfKey (h1 p x)))) ∧
      (f = p.aes → s.vok = 1 ∧ ∀ i, i < cfg.m.toNat → ∃ x, s.received.xs[i]? = some x ∧
        s.verdict.ys[i]? = some (fK p s.server.oprfKey x)) := by
  obtain ⟨server, offline, key, prepared⟩ :=
    serverOffline_spec datapath gates batch honest serverRng pads
  let r := received p cfg clientRng pads (serverMessages pads server)
  obtain ⟨stark, bound⟩ := session_checks clientRng pads prepared datapath batch
  choose! x evaluates using fun i (inside : i < cfg.m.toNat) =>
    session_evaluates clientRng pads prepared datapath computes inside
  obtain ⟨v, judged, -, bindOk, results, accepts⟩ := judge_all stark bound evaluates
  have oracle : r.oprfKey = server.oprfKey := by
    change (if server.oprfKey.bytes.length = 16 then _ else _) = _
    rw [if_pos (Block.length_bytes _)]
    exact Block.ofBytes_bytes _
  refine ⟨_, session_eq batch datapath prepared offline judged, key, bindOk,
    fun i inside => ⟨x i, (evaluates i inside).input, results i inside⟩, ?_⟩
  rintro rfl
  refine ⟨accepts fun i _ => ?_,
    fun i inside => ⟨x i, (evaluates i inside).input, results i inside⟩⟩
  rw [oracle]
  rfl

/-- An honest session of one evaluation. -/
theorem one_honest_session :
    ∃ s, session standard acceptAll oneEvaluation passThrough (Stream'.const 0) (Stream'.const 0)
        (fun _ => (0, 0)) = .ok s ∧ s.verdict.bindOk = true ∧
      ∀ i, i < oneEvaluation.m.toNat → ∃ x, s.received.xs[i]? = some x ∧
        s.verdict.ys[i]? = some (h2 standard x (h1 standard x)) := by
  obtain ⟨s, ran, -, bindOk, results, -⟩ := honest_session_computes_oprf standard acceptAll
    oneEvaluation passThrough (fun _ x => x) passThrough_datapath Nat.one_pos
    passThrough_computes oneEvaluation_batch (acceptAll_honest standard _) (Stream'.const 0)
    (Stream'.const 0) fun _ => (0, 0)
  exact ⟨s, ran, bindOk, results⟩

end SimpleOprf.VoprfE2e
