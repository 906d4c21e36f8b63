import SimpleOprf.StarkGarble.HeaderBinding
import SimpleOprf.VoprfE2e.Adversary
import SimpleOprf.VoprfE2e.EvaluationBounds
import SimpleOprf.VoprfE2e.Reception

/-!
# The client on malformed messages

What a client does with the blobs of a session when nothing is assumed of their
contents, and the exact condition on their lengths and announced counts under
which it makes no access outside a buffer.

The equivalence is exact in both directions. It is proved blob by blob in the
order in which the client reads them, since a client that stops early reads
none of the later ones.
-/

namespace SimpleOprf.VoprfE2e

open SimpleOprf.Basis SimpleOprf.Basis.Outcome SimpleOprf.GcMmo SimpleOprf.VoprfSer
  SimpleOprf.StarkGarble

/-- The blobs of one session, whatever they hold. -/
structure Blobs where
  cm : List UInt8
  info : List UInt8
  tableBlobs : List (List UInt8)
  masks : List UInt8
  keyBlobs : List (List UInt8)
  proof : List UInt8
  keyBlob : List UInt8

/-- One table blob and one key blob for each circuit, and blobs that vectors hold. -/
structure Blobs.Fits (b : Blobs) (cfg : Config) : Prop where
  cm : b.cm.length < vectorLimit
  info : b.info.length < vectorLimit
  tableBlobs : b.tableBlobs.length = cfg.m.toNat
  tableBlob : ∀ blob ∈ b.tableBlobs, blob.length < vectorLimit
  masks : b.masks.length < vectorLimit
  keyBlobs : b.keyBlobs.length = cfg.m.toNat
  keyBlobSize : ∀ blob ∈ b.keyBlobs, blob.length < vectorLimit
  proof : b.proof.length < vectorLimit
  keyBlob : b.keyBlob.length < vectorLimit

/-- The packets of a session in the order of the client's receives. -/
def Blobs.packets (b : Blobs) (cfg : Config) (ping : UInt8) : List Packet :=
  sendBlob b.cm ++ (sendBlob b.info ++
    ((if cfg.tablesOnline then [] else b.tableBlobs.flatMap sendBlob) ++
      (.octet ping :: (sendBlob b.masks ++
        ((if cfg.tablesOnline then b.tableBlobs.flatMap sendBlob else []) ++
          (b.keyBlobs.flatMap sendBlob ++ (sendBlob b.proof ++ sendBlob b.keyBlob)))))))

/-- What the client holds at its verdict, all parsing of the online blobs included. -/
def Blobs.held (b : Blobs) (p : Primitives) (cfg : Config) (rng : Rng) (pads : Pads)
    (gcHashes : List Digest) : Outcome Received := do
  let allShares ← storeFront (List.replicate cfg.nOt.toNat 0) (clientShares p cfg rng)
  let choices := allShares.map fun share => share &&& 1 == 1
  let masked ← (Reader.repeated takeMasked cfg.nOt.toNat).parse b.masks
  let keyLabels ← b.keyBlobs.mapM (Reader.repeated takeBlock 128).parse
  .ok {
    cm := b.cm
    gcHashes
    tableBlobs := b.tableBlobs
    xs := (drawInputs p cfg.m.toNat rng).map (·.1)
    shareLabels := (masked.zip (choices.zip (receivePads pads choices))).map
      fun ((c0, c1), choice, pad) => xorBlock pad (if choice then c1 else c0)
    keyLabels
    proof := b.proof
    keyBlob := b.keyBlob }

/-- What a client computes from the blobs. -/
def clientOn (p : Primitives) (wf : Winterfell) (cfg : Config) (circ : Circuit) (rng : Rng)
    (pads : Pads) (b : Blobs) : Outcome (Received × Verdict) := do
  let gcHashes ← (readMeta cfg).parse b.info
  let r ← b.held p cfg rng pads gcHashes
  let verdict ← judge p wf cfg circ r
  .ok (r, verdict)

section

variable {cfg : Config} {b : Blobs}

/-- The table blobs are received as they were sent. -/
theorem Blobs.Fits.receives_tables (fits : b.Fits cfg) :
    (Inbox.repeated recvBlob cfg.m.toNat).Receives (b.tableBlobs.flatMap sendBlob) b.tableBlobs := by
  rw [← fits.tableBlobs]
  exact Inbox.Receives.repeated b.tableBlobs fun blob member => receives_blob (fits.tableBlob blob member)

/-- So are the key blobs. -/
theorem Blobs.Fits.receives_keyBlobs (fits : b.Fits cfg) :
    (Inbox.repeated recvBlob cfg.m.toNat).Receives (b.keyBlobs.flatMap sendBlob) b.keyBlobs := by
  rw [← fits.keyBlobs]
  exact Inbox.Receives.repeated b.keyBlobs fun blob member => receives_blob (fits.keyBlobSize blob member)

/-- What the client holds at the ping, once it has read the hashes. -/
def Blobs.beforePing (b : Blobs) (cfg : Config) (gcHashes : List Digest) : Offline where
  cm := b.cm
  gcHashes
  tableBlobs := if cfg.tablesOnline then List.replicate cfg.m.toNat [] else b.tableBlobs

/-- What the client receives before the ping. -/
theorem receiveOffline_packets (fits : b.Fits cfg) (rest : List Packet) :
    receiveOffline cfg (sendBlob b.cm ++ (sendBlob b.info ++
        ((if cfg.tablesOnline then [] else b.tableBlobs.flatMap sendBlob) ++ rest))) =
      (readMeta cfg).parse b.info >>= fun gcHashes => .ok (b.beforePing cfg gcHashes, rest) := by
  unfold receiveOffline Blobs.beforePing
  rw [(receives_blob fits.cm).bind_apply, (receives_blob fits.info).bind_apply,
    Inbox.computing_bind_apply]
  refine bind_congr fun gcHashes => ?_
  cases cfg.tablesOnline with
  | true => rfl
  | false =>
    simp only [Bool.false_eq_true, if_false]
    rw [fits.receives_tables.bind_apply]
    rfl

/-- What it receives of the tables after it. -/
theorem receiveOnlineTables_packets (fits : b.Fits cfg) (gcHashes : List Digest) :
    (receiveOnlineTables cfg (b.beforePing cfg gcHashes)).Receives
      (if cfg.tablesOnline then b.tableBlobs.flatMap sendBlob else []) b.tableBlobs := by
  unfold receiveOnlineTables Blobs.beforePing
  cases cfg.tablesOnline with
  | true => exact fits.receives_tables
  | false => exact Inbox.Receives.pure b.tableBlobs

/-- After the ping, from the draws on. -/
theorem receiveOnline_packets (p : Primitives) (rng : Rng) (pads : Pads) (fits : b.Fits cfg)
    (gcHashes : List Digest) :
    receiveOnline p cfg rng pads (b.beforePing cfg gcHashes) (sendBlob b.masks ++
        ((if cfg.tablesOnline then b.tableBlobs.flatMap sendBlob else []) ++
          (b.keyBlobs.flatMap sendBlob ++ (sendBlob b.proof ++ (sendBlob b.keyBlob ++ []))))) =
      b.held p cfg rng pads gcHashes >>= fun r => .ok (r, []) := by
  simp only [Blobs.held, bind_assoc, Outcome.ok_bind]
  unfold receiveOnline
  dsimp only
  rw [Inbox.computing_bind_apply]
  refine bind_congr fun allShares => ?_
  rw [(receives_blob fits.masks).bind_apply, Inbox.computing_bind_apply]
  refine bind_congr fun masked => ?_
  rw [(receiveOnlineTables_packets fits gcHashes).bind_apply, fits.receives_keyBlobs.bind_apply,
    Inbox.computing_bind_apply]
  refine bind_congr fun keyLabels => ?_
  rw [(receives_blob fits.proof).bind_apply, (receives_blob fits.keyBlob).bind_apply]
  rfl

end

/-- A client that is sent the blobs computes on exactly them. -/
theorem runClient_packets (p : Primitives) (wf : Winterfell) (circ : Circuit) (rng : Rng)
    (pads : Pads) {cfg : Config} {b : Blobs} (fits : b.Fits cfg) (ping : UInt8) :
    runClient p wf cfg circ rng pads (b.packets cfg ping) =
      clientOn p wf cfg circ rng pads b := by
  have online := receiveOnline_packets p rng pads fits
  simp only [List.append_nil] at online
  unfold runClient clientOn Blobs.packets
  rw [receiveOffline_packets fits, bind_assoc]
  refine bind_congr fun gcHashes => ?_
  rw [Outcome.ok_bind]
  change (receiveOnline p cfg rng pads (b.beforePing cfg gcHashes) _ >>= _) = _
  rw [online, bind_assoc]
  congr 1

/-! ## The two parses before the verdict -/

variable {p : Primitives} {wf : Winterfell} {circ : Circuit} {cfg : Config} {rng : Rng}
  {pads : Pads} {b : Blobs}

/-- The bytes of the hash committed to for circuit `i`. -/
def Blobs.hash (b : Blobs) (i : Nat) : List UInt8 := (b.info.drop (8 + 32 * i)).take 32

/-- The info blob announces the batch and lists its hashes. -/
structure Lists (cfg : Config) (b : Blobs) (hashes : List Digest) : Prop where
  announced : wordAt b.info 0 = cfg.m.toNat
  room : 8 + 32 * cfg.m.toNat ≤ b.info.length
  length : hashes.length = cfg.m.toNat
  hash : ∀ i, i < cfg.m.toNat → (hashes.getD i (Vector.replicate 32 0)).toList = b.hash i

/-- The info blob is left when it holds no batch size, or announces the batch and
does not hold its hashes; with another batch size the client exits. -/
inductive InfoFails (cfg : Config) (b : Blobs) : Fault → Prop
  | outOfBounds (short : 8 ≤ b.info.length → wordAt b.info 0 = cfg.m.toNat ∧
      b.info.length < 8 + 32 * cfg.m.toNat) : InfoFails cfg b .outOfBounds
  | mismatch (enough : 8 ≤ b.info.length) (other : wordAt b.info 0 ≠ cfg.m.toNat) :
    InfoFails cfg b (.exited "m mismatch")

/-- How reading the info blob ends. -/
theorem readMeta_ends (cfg : Config) (b : Blobs) :
    Ends (Lists cfg b) (InfoFails cfg b) ((readMeta cfg).parse b.info) := by
  refine Reader.Ends.parse (sized_takeU64.ends_bind (Nat.zero_le _) (fun short => ?_)
    fun enough m taken => ?_)
  · exact .outOfBounds fun enough => absurd enough (by omega)
  rw [Nat.zero_add] at enough
  have value := takeU64_wordAt taken
  by_cases same : m = cfg.m
  · rw [if_neg (not_not.mpr same)]
    have announced : wordAt b.info 0 = cfg.m.toNat := by rw [← value, same]
    refine ((Reader.sized_array 32).repeated _).ends enough (fun short => ?_)
      fun room hashes ran => ⟨announced, room, Reader.ensures_repeated _ _ _ _ _ _ ran, ?_⟩
    · exact .outOfBounds fun _ => ⟨announced, short⟩
    · intro i inside
      obtain ⟨hash, present, read⟩ := (Reader.sized_array 32).repeated_getElem enough ran inside
      obtain ⟨bounded, rfl, -⟩ := Reader.array_eq_ok.mp read
      have length : (b.hash i).length = 32 := by
        rw [Blobs.hash, List.length_take, List.length_drop]
        omega
      rw [List.getD_eq_getElem?_getD, present, Option.getD_some]
      exact toList_ofBytes length
  · rw [if_pos same]
    refine InfoFails.mismatch enough fun announced => same ?_
    exact UInt64.toNat_inj.mp (value.trans announced)

/-- A masked pair takes 32 bytes. -/
theorem sized_takeMasked : takeMasked.Sized 32 :=
  sized_takeBlock.bind fun _ => sized_takeBlock.bind fun _ => Reader.Sized.pure _

/-- The key labels of a circuit take 2048. -/
theorem sized_keyLabels : (Reader.repeated takeBlock 128).Sized 2048 :=
  sized_takeBlock.repeated 128

/-- The online blobs, up to the proof, are left only when they are too short. -/
theorem held_inBounds (gcHashes : List Digest) :
    OnlyOutOfBounds (b.held p cfg rng pads gcHashes) ∧
      (InBounds (b.held p cfg rng pads gcHashes) ↔ 256 * cfg.m.toNat ≤ cfg.nOt.toNat ∧
        32 * cfg.nOt.toNat ≤ b.masks.length ∧ ∀ blob ∈ b.keyBlobs, 2048 ≤ blob.length) := by
  have shares := storeFront_only (List.replicate cfg.nOt.toNat (0 : UInt8)) (clientShares p cfg rng)
  have sharesFit : InBounds (storeFront (List.replicate cfg.nOt.toNat (0 : UInt8))
      (clientShares p cfg rng)) ↔ 256 * cfg.m.toNat ≤ cfg.nOt.toNat := by
    rw [inBounds_storeFront, length_clientShares, List.length_replicate]
  have masks := (sized_takeMasked.repeated cfg.nOt.toNat).parse_only b.masks
  have masksFit := @Reader.Sized.inBounds_parse _ _ _ b.masks
    (sized_takeMasked.repeated cfg.nOt.toNat)
  have keys : OnlyOutOfBounds (b.keyBlobs.mapM (Reader.repeated takeBlock 128).parse) :=
    mapM_only fun blob _ => sized_keyLabels.parse_only blob
  have keysFit : InBounds (b.keyBlobs.mapM (Reader.repeated takeBlock 128).parse) ↔
      ∀ blob ∈ b.keyBlobs, 2048 ≤ blob.length := by
    rw [inBounds_mapM fun blob _ => sized_keyLabels.parse_only blob]
    exact forall₂_congr fun blob _ => sized_keyLabels.inBounds_parse
  unfold Blobs.held
  refine ⟨shares.bind fun _ => masks.bind fun _ => keys.bind fun _ => .ok _, ?_⟩
  refine (shares.inBounds_bind fun _ _ => masks.inBounds_bind fun _ _ => inBounds_bind_ok).trans ?_
  rw [sharesFit, masksFit, keysFit]

/-- What is held then has an entry for every circuit. -/
theorem held_eq_ok (fits : b.Fits cfg) {gcHashes : List Digest} {r : Received}
    (count : gcHashes.length = cfg.m.toNat) (held : b.held p cfg rng pads gcHashes = .ok r) :
    r.Sized cfg.m.toNat ∧ r.tableBlobs = b.tableBlobs ∧ r.gcHashes = gcHashes ∧
      r.proof = b.proof := by
  unfold Blobs.held at held
  obtain ⟨allShares, stored, held⟩ := Outcome.bind_eq_ok.mp held
  obtain ⟨masked, masks, held⟩ := Outcome.bind_eq_ok.mp held
  obtain ⟨keyLabels, keys, held⟩ := Outcome.bind_eq_ok.mp held
  obtain ⟨sharesFit, sharesLength⟩ := length_of_storeFront stored
  have masksLength : masked.length = cfg.nOt.toNat := (Reader.ensures_repeated _ _).of_parse masks
  obtain ⟨keyCount, keyLabel⟩ := keyLabels_counted keys
  rw [length_clientShares, List.length_replicate] at sharesFit
  rw [List.length_replicate] at sharesLength
  cases held
  refine ⟨⟨count, fits.tableBlobs, fits.tableBlob, ?_, ?_, keyCount.trans fits.keyBlobs, keyLabel⟩,
    rfl, rfl, rfl⟩
  · rw [List.length_map, length_drawInputs]
  · simp only [List.length_map, List.length_zip, receivePads, List.length_zipIdx, masksLength,
      sharesLength]
    omega

/-! ## The whole client -/

/-- The table blob of circuit `i`. -/
def Blobs.table (b : Blobs) (i : Nat) : List UInt8 := b.tableBlobs.getD i []

/-- What the blobs have to hold once the info blob announces the batch: its
hashes, masks and key labels for all transfers, and, when the proof verifies,
tables that hold what they announce and the circuit uses. -/
structure Blobs.Supplied (p : Primitives) (wf : Winterfell) (cfg : Config) (circ : Circuit)
    (b : Blobs) : Prop where
  hashes : 8 + 32 * cfg.m.toNat ≤ b.info.length
  transfers : 256 * cfg.m.toNat ≤ cfg.nOt.toNat
  masks : 32 * cfg.nOt.toNat ≤ b.masks.length
  keyLabels : ∀ blob ∈ b.keyBlobs, 2048 ≤ blob.length
  verification : doVerify p wf b.proof none = .ok () →
    Verifiable circ b.table b.hash b.proof cfg.m.toNat

/-- A client makes no access outside a buffer exactly when the info blob holds a
batch size and, if that is its own, the other blobs supply the batch. The vectors
that the client sizes by its own `m` and `n_ot` are taken to fit into memory. -/
theorem runClient_inBounds_iff (p : Primitives) (wf : Winterfell) (cfg : Config) (circ : Circuit)
    (rng : Rng) (pads : Pads) (b : Blobs) (ping : UInt8) (fits : b.Fits cfg)
    (wellFormed : circ.WellFormed) (keyBits : circ.nInput0 = 128) (inputBits : circ.nInput1 = 128) :
    InBounds (runClient p wf cfg circ rng pads (b.packets cfg ping)) ↔
      8 ≤ b.info.length ∧
        (wordAt b.info 0 = cfg.m.toNat → b.Supplied p wf cfg circ) := by
  have inputs : (circ.nInput0 + circ.nInput1).toNat = 256 := by
    rw [keyBits, inputBits]
    rfl
  have ends_ := readMeta_ends cfg b
  rw [runClient_packets p wf circ rng pads fits ping, clientOn]
  rcases parsed : (readMeta cfg).parse b.info with fault | hashes
  · rw [parsed] at ends_
    cases ends_ with
    | outOfBounds short =>
      refine iff_of_false (fun stays => stays rfl) fun ⟨enough, supplied⟩ => ?_
      obtain ⟨announced, cut⟩ := short enough
      have room := (supplied announced).hashes
      omega
    | mismatch enough other =>
      exact iff_of_true (inBounds_exited _) ⟨enough, fun announced => absurd announced other⟩
  · rw [parsed] at ends_
    have lists : Lists cfg b hashes := ends_
    have room := lists.room
    obtain ⟨only, online⟩ := @held_inBounds p cfg rng pads b hashes
    have verdict : ∀ r, b.held p cfg rng pads hashes = .ok r →
        (InBounds (judge p wf cfg circ r >>= fun verdict => .ok (r, verdict)) ↔
          (doVerify p wf b.proof none = .ok () →
            Verifiable circ b.table b.hash b.proof cfg.m.toNat)) := by
      intro r held
      obtain ⟨sized, tables, listed, proof⟩ := held_eq_ok fits lists.length held
      have agree : ∀ j, j < cfg.m.toNat → r.blob j = b.table j ∧ r.hash j = b.hash j := by
        intro j inside
        refine ⟨by rw [Received.blob, tables, Blobs.table], ?_⟩
        rw [Received.hash, Received.committed, listed, lists.hash j inside]
      rw [inBounds_bind_ok, judge_inBounds sized wellFormed inputs (by rw [proof]; exact fits.proof),
        proof]
      refine imp_congr_right fun _ => ⟨fun needs => needs.of_agree agree, fun needs => ?_⟩
      exact needs.of_agree fun j inside => ⟨(agree j inside).1.symm, (agree j inside).2.symm⟩
    rw [Outcome.ok_bind, only.inBounds_bind verdict, online]
    constructor
    · rintro ⟨⟨transfers, masks, keyLabels⟩, verification⟩
      exact ⟨by omega, fun _ => ⟨lists.room, transfers, masks, keyLabels, verification⟩⟩
    · rintro ⟨-, supplied⟩
      obtain ⟨-, transfers, masks, keyLabels, verification⟩ := supplied lists.announced
      exact ⟨⟨transfers, masks, keyLabels⟩, verification⟩

/-- A session of one evaluation in which no blob but the info holds anything. -/
def emptyBlobs (info : List UInt8) : Blobs where
  cm := []
  info
  tableBlobs := [[]]
  masks := []
  keyBlobs := [[]]
  proof := []
  keyBlob := []

theorem emptyBlobs_fits {info : List UInt8} (fits : info.length < vectorLimit) :
    (emptyBlobs info).Fits oneEvaluation where
  cm := by norm_num [emptyBlobs, vectorLimit]
  info := fits
  tableBlobs := rfl
  tableBlob blob member := by
    rw [List.mem_singleton.mp member]
    norm_num [vectorLimit]
  masks := by norm_num [emptyBlobs, vectorLimit]
  keyBlobs := rfl
  keyBlobSize blob member := by
    rw [List.mem_singleton.mp member]
    norm_num [vectorLimit]
  proof := by norm_num [emptyBlobs, vectorLimit]
  keyBlob := by norm_num [emptyBlobs, vectorLimit]

/-- A table blob of zeros that announces `tables` AND tables, no key label and 128
decode bits, and holds them. -/
def zeroTables (tables : Nat) : List UInt8 :=
  List.replicate 32 0 ++ (le64 (UInt64.ofNat tables) ++ (List.replicate (32 * tables) 0 ++
    (le64 0 ++ (le64 128 ++ (List.replicate 128 0 ++ List.replicate 64 0)))))

/-- A session of one evaluation that supplies the batch up to its proof, which
passes, and then the given table blob. -/
def supplyingBlobs (table : List UInt8) : Blobs where
  cm := []
  info := le64 1 ++ List.replicate 32 0
  tableBlobs := [table]
  masks := List.replicate 8192 0
  keyBlobs := [List.replicate 2048 0]
  proof := (forgedHeader standard (Vector.replicate 32 0)).bytes
  keyBlob := List.replicate 16 0

theorem supplyingBlobs_fits {table : List UInt8} (fits : table.length < vectorLimit) :
    (supplyingBlobs table).Fits oneEvaluation := by
  have zeros : ∀ n < 10000, (List.replicate n (0 : UInt8)).length < vectorLimit := by
    intro n small
    rw [List.length_replicate, vectorLimit]
    omega
  constructor
  · exact zeros 0 (by decide)
  · exact zeros 40 (by decide)
  · rfl
  · intro blob member
    rwa [List.mem_singleton.mp member]
  · exact zeros 8192 (by norm_num)
  · rfl
  · intro blob member
    have same : blob = List.replicate 2048 0 := List.mem_singleton.mp member
    exact same ▸ zeros 2048 (by decide)
  · have length := (Header.length_bytes (forgedHeader standard (Vector.replicate 32 0))).trans
      (congrArg (184 + ·) (List.length_replicate (n := cmBytes) (a := (0 : UInt8))))
    refine lt_of_eq_of_lt length ?_
    norm_num [vectorLimit, cmBytes]
  · exact zeros 16 (by decide)

/-- The proof passes. -/
theorem supplyingBlobs_verifies (table : List UInt8) :
    doVerify standard acceptAll (supplyingBlobs table).proof none = .ok () := by
  rw [← List.append_nil (supplyingBlobs table).proof]
  exact (doVerify_eq_ok List.length_replicate).mpr ⟨(), rfl, checkBinding_rehash _ _ _, rfl⟩

/-- Where a client finds the table hash in a header. -/
theorem proofHash_bytes (h : Header) : proofHash h.bytes = h.gcHash.toList := by
  rw [proofHash, Header.announced_bytes]
  have front : (le64 (UInt64.ofNat (pubToBytes h.pub).length) ++ (pubToBytes h.pub ++
      h.binding.toList)).length = 8 + 48 + 32 := by
    simp [length_le64, length_pubToBytes]
  rw [Header.bytes, ← List.append_assoc (pubToBytes h.pub), ← List.append_assoc,
    List.drop_left' front, List.take_left' (Vector.length_toList)]

/-- Only the table blob is left to be examined. -/
theorem supplyingBlobs_supplied_iff (table : List UInt8) :
    (supplyingBlobs table).Supplied standard acceptAll oneEvaluation passThrough ↔
      Guarded table ∧ (Carries table (List.replicate 32 0) → Evaluable passThrough table) := by
  have hash : (supplyingBlobs table).hash 0 = List.replicate 32 0 := rfl
  have committed : proofHash (supplyingBlobs table).proof = (supplyingBlobs table).hash 0 :=
    (proofHash_bytes _).trans hash.symm
  constructor
  · intro supplied
    have needs := supplied.verification (supplyingBlobs_verifies table)
    refine ⟨needs.first, fun carries => ?_⟩
    have reached := needs.loop (committed ▸ hash ▸ carries) committed 0 Nat.one_pos
    exact (reached fun j _ none => absurd none (Nat.not_lt_zero j)).2 (hash ▸ carries)
  · rintro ⟨guarded, evaluable⟩
    refine ⟨Nat.le_refl 40, Nat.le_refl 256, ?_, ?_, fun _ => ⟨Nat.one_pos, guarded, fun _ _ k one => ?_⟩⟩
    · exact (List.length_replicate (n := 8192) (a := (0 : UInt8))).ge
    · intro blob member
      have same : blob = List.replicate 2048 0 := List.mem_singleton.mp member
      rw [same, List.length_replicate]
    · obtain rfl : k = 0 := Nat.lt_one_iff.mp one
      exact fun _ => ⟨guarded, fun carries => evaluable (hash ▸ carries)⟩

/-- With no table or one the blob is whole and carries the zero hash. -/
theorem zeroTables_carries {n : Nat} (few : n ≤ 1) :
    Carries (zeroTables n) (List.replicate 32 0) := by
  have whole : ∀ n ≤ 1, hashFrom (zeroTables n) + 64 ≤ (zeroTables n).length := by decide +kernel
  have hash : ∀ n ≤ 1, hashBytes (zeroTables n) = List.replicate 32 0 := by decide +kernel
  exact ⟨whole n few, hash n few⟩

/-- The client rejects another batch size and reads beyond an empty info blob. Past
the proof it stays when the table blob holds what it announces and the circuit
uses, and leaves a blob that is cut short or that lacks the table of a gate. -/
theorem other_batch_stays_and_short_tables_leave :
    InBounds (runClient standard acceptAll oneEvaluation passThrough (Stream'.const 0)
        (fun _ => (0, 0)) ((emptyBlobs (le64 2)).packets oneEvaluation 0)) ∧
      ¬ InBounds (runClient standard acceptAll oneEvaluation passThrough (Stream'.const 0)
        (fun _ => (0, 0)) ((emptyBlobs []).packets oneEvaluation 0)) ∧
      InBounds (runClient standard acceptAll oneEvaluation passThrough (Stream'.const 0)
        (fun _ => (0, 0)) ((supplyingBlobs (zeroTables 1)).packets oneEvaluation 0)) ∧
      ¬ InBounds (runClient standard acceptAll oneEvaluation passThrough (Stream'.const 0)
        (fun _ => (0, 0)) ((supplyingBlobs (zeroTables 0)).packets oneEvaluation 0)) ∧
      ¬ InBounds (runClient standard acceptAll oneEvaluation passThrough (Stream'.const 0)
        (fun _ => (0, 0)) ((supplyingBlobs ((zeroTables 1).take 39)).packets oneEvaluation 0)) := by
  have runs : ∀ b : Blobs, b.Fits oneEvaluation → (InBounds (runClient standard acceptAll
      oneEvaluation passThrough (Stream'.const 0) (fun _ => (0, 0)) (b.packets oneEvaluation 0)) ↔
        8 ≤ b.info.length ∧
          (wordAt b.info 0 = 1 → b.Supplied standard acceptAll oneEvaluation passThrough)) :=
    fun b fits => runClient_inBounds_iff standard acceptAll oneEvaluation passThrough
      (Stream'.const 0) (fun _ => (0, 0)) b 0 fits passThrough_datapath.wf rfl rfl
  have supplied : ∀ table : List UInt8, table.length < vectorLimit → (InBounds (runClient standard
      acceptAll oneEvaluation passThrough (Stream'.const 0) (fun _ => (0, 0))
        ((supplyingBlobs table).packets oneEvaluation 0)) ↔
          Guarded table ∧ (Carries table (List.replicate 32 0) → Evaluable passThrough table)) := by
    intro table fits
    rw [runs _ (supplyingBlobs_fits fits), supplyingBlobs_supplied_iff]
    exact ⟨fun stays => stays.2 rfl, fun needs => ⟨(by decide : 8 ≤ 40), fun _ => needs⟩⟩
  have another := runs (emptyBlobs (le64 2)) (emptyBlobs_fits (by norm_num [vectorLimit]))
  have empty := runs (emptyBlobs []) (emptyBlobs_fits (by norm_num [vectorLimit]))
  have lengths : ∀ n ≤ 1, (zeroTables n).length < vectorLimit := by decide +kernel
  have one : tableCount (zeroTables 1) = 1 ∧ decodeCount (zeroTables 1) = 128 := by decide +kernel
  have none : tableCount (zeroTables 0) = 0 := by decide +kernel
  refine ⟨another.mpr ⟨by decide, fun announced => absurd announced (by decide)⟩,
    fun stays => absurd (empty.mp stays).1 (by decide), ?_, fun stays => ?_, fun stays => ?_⟩
  · refine (supplied _ (lengths 1 le_rfl)).mpr
      ⟨(zeroTables_carries le_rfl).1.guarded, fun _ => ⟨?_, ?_, le_rfl⟩⟩
    · rw [one.1]
      decide
    · rw [one.2]
      decide
  · have evaluable := ((supplied _ (lengths 0 zero_le_one)).mp stays).2 (zeroTables_carries zero_le_one)
    have tables := evaluable.tables
    rw [none] at tables
    exact absurd tables (by decide)
  · have cut : ((zeroTables 1).take 39).length = 39 := by decide +kernel
    have guarded := ((supplied _ (by rw [cut]; norm_num [vectorLimit])).mp stays).1
    exact absurd guarded.1 (by rw [cut]; decide)

/-- Blobs of any content do not keep the client inside its buffers. -/
theorem client_leaves_empty_info : ¬ ∀ (cfg : Config) (circ : Circuit) (b : Blobs),
    circ.WellFormed → circ.nInput0 = 128 → circ.nInput1 = 128 → b.Fits cfg →
    ∀ p wf rng pads ping,
      InBounds (runClient p wf cfg circ rng pads (b.packets cfg ping)) := by
  intro robust
  have fits : (emptyBlobs []).Fits oneEvaluation := emptyBlobs_fits (by norm_num [vectorLimit])
  have stays := robust oneEvaluation passThrough (emptyBlobs []) passThrough_datapath.wf rfl rfl
    fits standard acceptAll (Stream'.const 0) (fun _ => (0, 0)) 0
  rw [runClient_packets standard acceptAll passThrough (Stream'.const 0) (fun _ => (0, 0)) fits 0]
    at stays
  exact stays rfl

end SimpleOprf.VoprfE2e
