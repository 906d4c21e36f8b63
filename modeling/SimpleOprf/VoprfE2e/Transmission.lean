import SimpleOprf.VoprfE2e.Client

/-!
# What arrives when a server sends

`Messages` is everything a server tells the client, honest or not. A client that
is sent messages of the announced sizes receives exactly them, together with
its own inputs and the labels it unmasked.

Nothing is assumed of the server beyond the sizes, so the same lemma serves
honest and malicious ones.
-/

namespace SimpleOprf.VoprfE2e

open SimpleOprf.Basis SimpleOprf.GcMmo SimpleOprf.PlaintextOprf SimpleOprf.ProbeResilient
  SimpleOprf.VoprfSer SimpleOprf.StarkGarble

/-- The contents of the blobs of one session. -/
structure Messages where
  cm : List UInt8
  gcHashes : List Digest
  tableBlobs : List (List UInt8)
  masks : List (Block × Block)
  keyLabels : List (List Block)
  proof : List UInt8
  keyBlob : List UInt8

/-- The bytes of one pair of masked labels. -/
def pairBytes (pair : Block × Block) : List UInt8 := pair.1.bytes ++ pair.2.bytes

/-- The packets before the ping. -/
def Messages.offline (msg : Messages) (cfg : Config) : List Packet :=
  sendBlob msg.cm ++ (sendBlob (metaBlob cfg msg.gcHashes) ++
    if cfg.tablesOnline then [] else msg.tableBlobs.flatMap sendBlob)

/-- The packets after the ping. -/
def Messages.online (msg : Messages) (cfg : Config) : List Packet :=
  sendBlob (msg.masks.flatMap pairBytes) ++
    ((if cfg.tablesOnline then msg.tableBlobs.flatMap sendBlob else []) ++
      ((msg.keyLabels.flatMap fun labels => sendBlob (labels.flatMap Block.bytes)) ++
        (sendBlob msg.proof ++ sendBlob msg.keyBlob)))

/-- What a client holds of the messages at the ping. -/
def Messages.beforePing (msg : Messages) (cfg : Config) : Offline where
  cm := msg.cm
  gcHashes := msg.gcHashes
  tableBlobs := if cfg.tablesOnline then List.replicate cfg.m.toNat [] else msg.tableBlobs

/-- Messages with the counts of the configuration and sizes that vectors allow. -/
structure Messages.Fits (msg : Messages) (cfg : Config) : Prop where
  cm : msg.cm.length < vectorLimit
  gcHashes : msg.gcHashes.length = cfg.m.toNat
  tableBlobs : msg.tableBlobs.length = cfg.m.toNat
  tableBlob : ∀ blob ∈ msg.tableBlobs, blob.length < vectorLimit
  masks : msg.masks.length = cfg.nOt.toNat
  keyLabels : msg.keyLabels.length = cfg.m.toNat
  keyLabel : ∀ labels ∈ msg.keyLabels, labels.length = 128
  proof : msg.proof.length < vectorLimit
  keyBlob : msg.keyBlob.length < vectorLimit

/-- One transfer for every share, and masks that a vector can hold. -/
structure Config.Batch (cfg : Config) : Prop where
  positive : 0 < cfg.m.toNat
  transfers : cfg.nOt.toNat = 256 * cfg.m.toNat
  memory : 32 * cfg.nOt.toNat < vectorLimit

/-! ## The client's own draws -/

/-- All share bits of a client, which are its transfer choices. -/
def clientShares (p : Primitives) (cfg : Config) (rng : Rng) : List UInt8 :=
  (drawInputs p cfg.m.toNat rng).flatMap (·.2)

/-- The choice bits of the client, one for each transfer. -/
def clientChoices (p : Primitives) (cfg : Config) (rng : Rng) : List Bool :=
  (clientShares p cfg rng).map fun share => share &&& 1 == 1

theorem length_drawInputs (p : Primitives) (count : Nat) (rng : Rng) :
    (drawInputs p count rng).length = count := by
  induction count generalizing rng with
  | zero => rfl
  | succ count ih => simp [drawInputs, ih]

/-- Each drawn input comes with shares of the bits of its hash. -/
theorem drawInputs_shares (p : Primitives) (count : Nat) (rng : Rng) :
    ∀ input ∈ drawInputs p count rng, ∃ rng',
      input.2 = (encodeShares (blockToBits128 (h1 p input.1)) rng').1 := by
  induction count generalizing rng with
  | zero =>
    intro input member
    cases member
  | succ count ih =>
    intro input member
    simp only [drawInputs, List.mem_cons] at member
    rcases member with rfl | later
    · exact ⟨_, rfl⟩
    · exact ih _ input later

theorem length_shares (p : Primitives) (count : Nat) (rng : Rng) :
    ∀ input ∈ drawInputs p count rng, input.2.length = 256 := by
  intro input member
  obtain ⟨rng', shared⟩ := drawInputs_shares p count rng input member
  rw [shared, length_encodeShares, length_blockToBits128]

theorem length_clientShares (p : Primitives) (cfg : Config) (rng : Rng) :
    (clientShares p cfg rng).length = 256 * cfg.m.toNat := by
  have sizes : (drawInputs p cfg.m.toNat rng).map (fun input => input.2.length) =
      List.replicate cfg.m.toNat 256 := by
    rw [List.eq_replicate_iff, List.length_map, length_drawInputs]
    refine ⟨rfl, fun size member => ?_⟩
    obtain ⟨input, drawn, rfl⟩ := List.mem_map.mp member
    exact length_shares p _ _ input drawn
  rw [clientShares, List.length_flatMap, sizes, List.sum_replicate, smul_eq_mul, Nat.mul_comm]

/-! ## The received record -/

/-- The labels that the client unmasks. -/
def unmasked (p : Primitives) (cfg : Config) (rng : Rng) (pads : Pads)
    (masks : List (Block × Block)) : List Block :=
  (masks.zip ((clientChoices p cfg rng).zip (receivePads pads (clientChoices p cfg rng)))).map
    fun ((c0, c1), choice, pad) => xorBlock pad (if choice then c1 else c0)

/-- What one masked pair opens to. -/
def openMask (pad masked : Block × Block) (choice : Bool) : Block :=
  xorBlock (if choice then pad.2 else pad.1) (if choice then masked.2 else masked.1)

/-- A transfer unmasks the label at its choice bit. -/
theorem getElem?_unmasked {p : Primitives} {cfg : Config} {rng : Rng} {pads : Pads}
    {masks : List (Block × Block)} {t : Nat} {masked : Block × Block} {choice : Bool}
    (sent : masks[t]? = some masked) (chosen : (clientChoices p cfg rng)[t]? = some choice) :
    (unmasked p cfg rng pads masks)[t]? = some (openMask (pads t) masked choice) := by
  have pad : (receivePads pads (clientChoices p cfg rng))[t]? =
      some (if choice then (pads t).2 else (pads t).1) := by
    rw [receivePads, List.getElem?_map, List.getElem?_zipIdx, chosen]
    simp
  have zipped := List.getElem?_zip_eq_some (z := (_, _, _)).mpr
    ⟨sent, List.getElem?_zip_eq_some (z := (_, _)).mpr ⟨chosen, pad⟩⟩
  rw [unmasked, List.getElem?_map, zipped]
  rfl

/-- What a client holds after it was sent the messages. -/
def received (p : Primitives) (cfg : Config) (rng : Rng) (pads : Pads) (msg : Messages) :
    Received where
  cm := msg.cm
  gcHashes := msg.gcHashes
  tableBlobs := msg.tableBlobs
  xs := (drawInputs p cfg.m.toNat rng).map (·.1)
  shareLabels := unmasked p cfg rng pads msg.masks
  keyLabels := msg.keyLabels
  proof := msg.proof
  keyBlob := msg.keyBlob

variable {cfg : Config} {msg : Messages}

/-- The client reads back the hashes. -/
theorem readMeta_eq (fits : msg.Fits cfg) :
    (readMeta cfg).parse (metaBlob cfg msg.gcHashes) = .ok msg.gcHashes := by
  have hashes := Reader.Reads.repeated msg.gcHashes fun h _ => Reader.reads_array .outOfBounds h
  rw [fits.gcHashes] at hashes
  apply Reader.Reads.parse_eq
  apply (Reader.reads_word _ _).bind
  rw [if_neg (not_not.mpr rfl)]
  exact hashes

/-- The messages between the start and the ping. -/
theorem receives_offline (batch : cfg.Batch) (fits : msg.Fits cfg) :
    (receiveOffline cfg).Receives (msg.offline cfg) (msg.beforePing cfg) := by
  have metaSize : (metaBlob cfg msg.gcHashes).length < vectorLimit := by
    have hashes : (msg.gcHashes.flatMap (·.toList)).length = cfg.m.toNat * 32 := by
      simp [List.length_flatMap, fits.gcHashes]
    have memory := batch.memory
    have transfers := batch.transfers
    have positive := batch.positive
    rw [metaBlob, List.length_append, length_le64, hashes]
    omega
  have tables := Inbox.Receives.repeated msg.tableBlobs
    fun blob member => receives_blob (fits.tableBlob blob member)
  rw [fits.tableBlobs] at tables
  unfold receiveOffline Messages.offline Messages.beforePing
  refine (receives_blob fits.cm).bind ((receives_blob metaSize).bind ?_)
  refine Inbox.Receives.computing_bind (readMeta_eq fits) ?_
  cases cfg.tablesOnline with
  | true => exact Inbox.Receives.pure _
  | false =>
    simp only [Bool.false_eq_true, if_false]
    rw [← List.append_nil (msg.tableBlobs.flatMap _)]
    exact tables.bind (Inbox.Receives.pure _)

/-- A masked pair is read back. -/
theorem reads_pair (pair : Block × Block) : takeMasked.Reads (pairBytes pair) pair := by
  have second : Reader.Reads (do let c1 ← takeBlock; pure (pair.1, c1)) (pair.2.bytes ++ [])
      (pair.1, pair.2) := (reads_block pair.2).bind (Reader.Reads.pure _)
  rw [List.append_nil] at second
  exact (reads_block pair.1).bind second

/-- The key labels are read back. -/
private theorem parse_keyLabels (fits : msg.Fits cfg) :
    (msg.keyLabels.map (List.flatMap Block.bytes)).mapM (Reader.repeated takeBlock 128).parse =
      .ok msg.keyLabels := by
  rw [List.mapM_map, ← List.map_id msg.keyLabels]
  refine (Outcome.mapM_eq_map fun labels member => ?_).trans (by rw [List.map_id])
  rw [List.map_id] at member
  have labelsRead := Reader.Reads.repeated labels fun b _ => reads_block b
  rw [fits.keyLabel labels member] at labelsRead
  exact labelsRead.parse_eq

/-- With one transfer for each share the shares fill the choice vector. -/
theorem clientShares_stored (p : Primitives) (rng : Rng) (batch : cfg.Batch) :
    storeFront (List.replicate cfg.nOt.toNat 0) (clientShares p cfg rng) =
      .ok (clientShares p cfg rng) := by
  have whole : (clientShares p cfg rng).length = cfg.nOt.toNat := by
    rw [length_clientShares p cfg rng, batch.transfers]
  rw [storeFront_of_le (by rw [List.length_replicate, whole]), whole, List.drop_replicate,
    Nat.sub_self, List.replicate_zero, List.append_nil]

/-- The messages between the ping and the verdict. -/
theorem receives_online (p : Primitives) (rng : Rng) (pads : Pads) (batch : cfg.Batch)
    (fits : msg.Fits cfg) :
    (receiveOnline p cfg rng pads (msg.beforePing cfg)).Receives (msg.online cfg)
      (received p cfg rng pads msg) := by
  have stored := clientShares_stored p rng batch
  have masksSize : (msg.masks.flatMap pairBytes).length < vectorLimit := by
    have pairs : (msg.masks.flatMap pairBytes).length = cfg.nOt.toNat * 32 := by
      simp [List.length_flatMap, pairBytes, fits.masks]
    have memory := batch.memory
    omega
  have masks : (Reader.repeated takeMasked cfg.nOt.toNat).parse (msg.masks.flatMap pairBytes) =
      .ok msg.masks := by
    have pairsRead := Reader.Reads.repeated msg.masks fun pair _ => reads_pair pair
    rw [fits.masks] at pairsRead
    exact pairsRead.parse_eq
  have tables := Inbox.Receives.repeated msg.tableBlobs
    fun blob member => receives_blob (fits.tableBlob blob member)
  rw [fits.tableBlobs] at tables
  have onlineTables : (receiveOnlineTables cfg (msg.beforePing cfg)).Receives
      (if cfg.tablesOnline then msg.tableBlobs.flatMap sendBlob else []) msg.tableBlobs := by
    unfold receiveOnlineTables Messages.beforePing
    cases cfg.tablesOnline with
    | true => exact tables
    | false => exact Inbox.Receives.pure msg.tableBlobs
  have keyBlobs := Inbox.Receives.repeated (msg.keyLabels.map (List.flatMap Block.bytes))
    fun blob member => by
      obtain ⟨labels, labelsMember, rfl⟩ := List.mem_map.mp member
      have size : (labels.flatMap Block.bytes).length = 128 * 16 := by
        simp [List.length_flatMap, fits.keyLabel labels labelsMember]
      exact receives_blob (by rw [size]; norm_num [vectorLimit])
  rw [List.length_map, fits.keyLabels, List.flatMap_map] at keyBlobs
  unfold receiveOnline Messages.online
  refine Inbox.Receives.computing_bind stored ((receives_blob masksSize).bind ?_)
  refine Inbox.Receives.computing_bind masks (onlineTables.bind ?_)
  refine keyBlobs.bind (Inbox.Receives.computing_bind (parse_keyLabels fits) ?_)
  rw [← List.append_nil (sendBlob msg.keyBlob)]
  exact (receives_blob fits.proof).bind ((receives_blob fits.keyBlob).bind
    (Inbox.Receives.pure _))

/-- A client that is sent the messages in order reaches its verdict on them. -/
theorem runClient_eq (p : Primitives) (wf : Winterfell) (circ : Circuit) (rng : Rng) (pads : Pads)
    (batch : cfg.Batch) (fits : msg.Fits cfg) (ping : UInt8) :
    runClient p wf cfg circ rng pads (msg.offline cfg ++ (.octet ping :: msg.online cfg)) =
      (judge p wf cfg circ (received p cfg rng pads msg) >>= fun verdict =>
        .ok (received p cfg rng pads msg, verdict)) := by
  unfold runClient
  rw [receives_offline batch fits, Outcome.ok_bind]
  change ((receiveOnline p cfg rng pads _ (msg.online cfg)) >>= _) = _
  rw [(receives_online p rng pads batch fits).run_eq, Outcome.ok_bind]

end SimpleOprf.VoprfE2e
