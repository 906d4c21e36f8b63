import SimpleOprf.VoprfE2e.Transmission

/-!
# Every client run is a run on some messages

Whatever packets arrive, a client that gets to its verdict holds what it would
hold had it been sent `Messages` of the announced sizes. A statement about every
inbox is so a statement about all messages.

The proof follows the receives in order: what each of them ensures of its
packets is what `Messages` asks for.
-/

namespace SimpleOprf.VoprfE2e

open SimpleOprf.Basis SimpleOprf.GcMmo SimpleOprf.PlaintextOprf SimpleOprf.VoprfSer
  SimpleOprf.StarkGarble

variable {cfg : Config}

/-- A received blob fits a vector. -/
theorem ensures_recvBlob : recvBlob.Ensures fun data => data.length < vectorLimit := by
  refine Inbox.Ensures.skip fun n => ?_
  by_cases large : vectorLimit ≤ n.toNat
  · intro inbox data rest ran
    dsimp only at ran
    rw [if_pos large] at ran
    cases ran
  · dsimp only
    rw [if_neg large]
    refine Inbox.Ensures.skip fun blocks => Inbox.Ensures.pure ?_
    rw [List.length_take]
    omega

/-- A meta blob that is read lists a hash for every circuit. -/
theorem ensures_readMeta : (readMeta cfg).Ensures fun hashes => hashes.length = cfg.m.toNat := by
  refine Reader.Ensures.skip fun m => ?_
  by_cases other : m ≠ cfg.m
  · rw [if_pos other]
    intro input offset value final ran
    cases ran
  · rw [if_neg other]
    exact Reader.ensures_repeated _ _

/-- What a client holds at the ping comes from messages of the right sizes. -/
structure Offline.Fits (offline : Offline) (cfg : Config) : Prop where
  cm : offline.cm.length < vectorLimit
  gcHashes : offline.gcHashes.length = cfg.m.toNat
  tables : cfg.tablesOnline = false → offline.tableBlobs.length = cfg.m.toNat ∧
    ∀ blob ∈ offline.tableBlobs, blob.length < vectorLimit

/-- What is received before the ping fits. -/
theorem ensures_receiveOffline : (receiveOffline cfg).Ensures fun offline => offline.Fits cfg := by
  unfold receiveOffline
  refine ensures_recvBlob.bind fun cm cmFits => Inbox.Ensures.skip fun info => ?_
  refine (Inbox.ensures_computing _).bind fun gcHashes parsed => ?_
  have counted : gcHashes.length = cfg.m.toNat := ensures_readMeta.of_parse parsed
  cases online : cfg.tablesOnline with
  | true =>
    refine Inbox.Ensures.pure ⟨cmFits, counted, fun offline => ?_⟩
    rw [online] at offline
    cases offline
  | false =>
    exact (ensures_recvBlob.repeated _).bind fun blobs fits =>
      Inbox.Ensures.pure ⟨cmFits, counted, fun _ => fits⟩

/-- So do the table blobs, one for each circuit. -/
theorem ensures_receiveOnlineTables {offline : Offline} (fits : offline.Fits cfg) :
    (receiveOnlineTables cfg offline).Ensures fun blobs =>
      blobs.length = cfg.m.toNat ∧ ∀ blob ∈ blobs, blob.length < vectorLimit := by
  unfold receiveOnlineTables
  cases online : cfg.tablesOnline with
  | true => exact ensures_recvBlob.repeated _
  | false => exact Inbox.Ensures.pure (fits.tables online)

/-- The labels of every circuit are read from its blob. -/
theorem keyLabels_counted {blobs : List (List UInt8)} {keyLabels : List (List Block)}
    (parsed : blobs.mapM (Reader.repeated takeBlock 128).parse = .ok keyLabels) :
    keyLabels.length = blobs.length ∧ ∀ labels ∈ keyLabels, labels.length = 128 := by
  induction blobs generalizing keyLabels with
  | nil =>
    cases parsed
    exact ⟨rfl, fun labels impossible => absurd impossible List.not_mem_nil⟩
  | cons blob blobs ih =>
    rw [List.mapM_cons] at parsed
    obtain ⟨labels, read, parsed⟩ := Outcome.bind_eq_ok.mp parsed
    obtain ⟨rest, later, parsed⟩ := Outcome.bind_eq_ok.mp parsed
    cases parsed
    obtain ⟨length, each⟩ := ih later
    refine ⟨by rw [List.length_cons, List.length_cons, length], fun other member => ?_⟩
    rcases List.mem_cons.mp member with rfl | behind
    · exact (Reader.ensures_repeated takeBlock 128).of_parse read
    · exact each other behind

/-- After the ping a client holds what messages with its offline part give it. -/
theorem ensures_receiveOnline (p : Primitives) (rng : Rng) (pads : Pads) (batch : cfg.Batch)
    {offline : Offline} (fits : offline.Fits cfg) :
    (receiveOnline p cfg rng pads offline).Ensures fun r =>
      ∃ msg : Messages, msg.Fits cfg ∧ r = received p cfg rng pads msg := by
  unfold receiveOnline
  refine (Inbox.ensures_computing _).bind fun shares stored => ?_
  have filled : shares = clientShares p cfg rng :=
    Except.ok.inj (stored.symm.trans (clientShares_stored p rng batch))
  subst filled
  refine Inbox.Ensures.skip fun blob => ?_
  refine (Inbox.ensures_computing _).bind fun masks parsed => ?_
  have masksLength : masks.length = cfg.nOt.toNat :=
    (Reader.ensures_repeated takeMasked cfg.nOt.toNat).of_parse parsed
  refine (ensures_receiveOnlineTables fits).bind fun tableBlobs tables => ?_
  refine (ensures_recvBlob.repeated _).bind fun keyBlobs keys => ?_
  refine (Inbox.ensures_computing _).bind fun keyLabels labels => ?_
  obtain ⟨keyCount, keyLabel⟩ := keyLabels_counted labels
  refine ensures_recvBlob.bind fun proof proofFits => ?_
  refine ensures_recvBlob.bind fun keyBlob keyFits => Inbox.Ensures.pure ?_
  refine ⟨⟨offline.cm, offline.gcHashes, tableBlobs, masks, keyLabels, proof, keyBlob⟩, ?_, rfl⟩
  exact ⟨fits.cm, fits.gcHashes, tables.1, tables.2, masksLength, keyCount.trans keys.1, keyLabel,
    proofFits, keyFits⟩

/-- Every run of a client is a run on messages of the announced sizes. -/
theorem runClient_messages {p : Primitives} {wf : Winterfell} {circ : Circuit} {rng : Rng}
    {pads : Pads} {inbox : List Packet} {r : Received} {v : Verdict} (batch : cfg.Batch)
    (ran : runClient p wf cfg circ rng pads inbox = .ok (r, v)) :
    ∃ msg : Messages, msg.Fits cfg ∧ r = received p cfg rng pads msg := by
  unfold runClient at ran
  obtain ⟨⟨offline, afterOffline⟩, before, ran⟩ := Outcome.bind_eq_ok.mp ran
  obtain ⟨⟨ping, afterPing⟩, -, ran⟩ := Outcome.bind_eq_ok.mp ran
  obtain ⟨⟨held, afterOnline⟩, online, ran⟩ := Outcome.bind_eq_ok.mp ran
  obtain ⟨verdict, -, ran⟩ := Outcome.bind_eq_ok.mp ran
  cases ran
  have fits := ensures_receiveOffline inbox offline afterOffline before
  exact ensures_receiveOnline p rng pads batch fits afterPing r afterOnline online

end SimpleOprf.VoprfE2e
