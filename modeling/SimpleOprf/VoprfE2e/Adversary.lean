import SimpleOprf.GcMmo.Correctness
import SimpleOprf.StarkGarble.HashedTables
import SimpleOprf.VoprfE2e.Transmission
import SimpleOprf.VoprfE2e.Verdict

/-!
# A malicious server

Any commitment and any tables pass the client's checks: a server chooses the
decoding bits so that the outputs come out as the plaintext function under the
oracle key it sends itself.

The forged proof has a header that is bound correctly around any hash. That a
verifier accepts it is a parameter: what is shown is what the client itself
fails to compare.
-/

namespace SimpleOprf.VoprfE2e

open SimpleOprf.Basis SimpleOprf.GcMmo SimpleOprf.PlaintextOprf SimpleOprf.ProbeResilient
  SimpleOprf.VoprfSer SimpleOprf.StarkGarble

/-- One evaluation with its tables sent offline. -/
def oneEvaluation : Config := ⟨1, 256, false⟩

/-- Its transfers match its evaluations. -/
theorem oneEvaluation_batch : oneEvaluation.Batch where
  positive := Nat.one_pos
  transfers := rfl
  memory := by
    change 32 * 256 < vectorLimit
    norm_num [vectorLimit]

/-- A header around the given hash, with everything else blank. -/
def forgedHeader (p : Primitives) (digest : Digest) : Header :=
  Header.rehash p ⟨⟨Vector.replicate 4 0, 1, 128⟩, digest, digest, digest, digest,
    List.replicate cmBytes 0⟩ digest

/-- What a server sends that makes up everything but the tables and the
commitment. -/
def forgedMessages (p : Primitives) (cm : List UInt8) (tm : TablesMsg) : Messages where
  cm := cm
  gcHashes := [tm.gcHash]
  tableBlobs := [tm.bytes]
  masks := List.replicate 256 (0, 0)
  keyLabels := [List.replicate 128 0]
  proof := (forgedHeader p tm.gcHash).bytes ++ []
  keyBlob := List.replicate 16 0

private theorem length_forgedHeader (p : Primitives) (digest : Digest) :
    ((forgedHeader p digest).bytes ++ []).length = 184 + cmBytes := by
  rw [List.append_nil, Header.length_bytes]
  exact congrArg (184 + ·) List.length_replicate

theorem forgedMessages_fits (p : Primitives) {cm : List UInt8} {tm : TablesMsg}
    (cmFits : cm.length < vectorLimit) (blobFits : tm.bytes.length < vectorLimit) :
    (forgedMessages p cm tm).Fits oneEvaluation where
  cm := cmFits
  gcHashes := rfl
  tableBlobs := rfl
  tableBlob blob member := by
    rw [List.mem_singleton.mp member]
    exact blobFits
  masks := List.length_replicate
  keyLabels := rfl
  keyLabel labels member := by
    rw [List.mem_singleton.mp member]
    exact List.length_replicate
  proof := by
    change ((forgedHeader p tm.gcHash).bytes ++ []).length < vectorLimit
    rw [length_forgedHeader]
    norm_num [vectorLimit, cmBytes]
  keyBlob := by
    change (List.replicate 16 (0 : UInt8)).length < vectorLimit
    rw [List.length_replicate]
    norm_num [vectorLimit]

/-! ## Decoding bits for any outputs -/

/-- Decoding bits that turn the given labels into the given bits. -/
def decodeTo (outs : List Block) (bits : List UInt8) : List UInt8 :=
  (outs.zip bits).map fun (label, bit) => (if lsb label then 1 else 0) ^^^ bit

/-- With these decoding bits the labels decode to the wanted bits. -/
theorem decodeOutputs_decodeTo {gr : GarbleResult} {outs : List Block} {bits : List UInt8}
    (sized : outs.length = bits.length) (outDecode : gr.outDecode = decodeTo outs bits) :
    decodeOutputs gr outs = .ok bits := by
  have decoded := decodeOutputs_map (outs.zip bits) (·.1)
    (fun entry => (if lsb entry.1 then 1 else 0) ^^^ entry.2) outDecode
  rw [List.map_fst_zip (by omega)] at decoded
  rw [decoded]
  have cancel : ∀ a b : UInt8, a ^^^ (a ^^^ b) = b := by
    intro a b
    rw [← UInt8.xor_assoc, UInt8.xor_self, UInt8.zero_xor]
  simp only [cancel]
  rw [List.map_snd_zip (by omega)]

/-! ## The forged session -/

private theorem length_unmasked (p : Primitives) (cfg : Config) (rng : Rng) (pads : Pads)
    {masks : List (Block × Block)} (sized : masks.length = 256 * cfg.m.toNat) :
    (unmasked p cfg rng pads masks).length = 256 * cfg.m.toNat := by
  have choices : (clientChoices p cfg rng).length = 256 * cfg.m.toNat := by
    rw [clientChoices, List.length_map, length_clientShares]
  simp [unmasked, receivePads, choices, sized]

section

variable (p : Primitives) {circ : Circuit} (rng : Rng) (pads : Pads) (cm : List UInt8)
  (tm : TablesMsg)

/-- What the client holds in a forged session. -/
def forgedReceived : Received := received p oneEvaluation rng pads (forgedMessages p cm tm)

/-- The client holds the forged proof. -/
private theorem forged_proof : (forgedReceived p rng pads cm tm).proof =
    (forgedHeader p tm.gcHash).bytes ++ [] := rfl

/-- It verifies. -/
private theorem forged_starkOk : (forgedReceived p rng pads cm tm).starkOk p acceptAll = true := by
  have sized : (forgedHeader p tm.gcHash).cm.length = cmBytes := List.length_replicate
  apply starkOk_of_doVerify
  rw [forged_proof, doVerify_eq_ok sized]
  exact ⟨(), rfl, checkBinding_rehash _ _ _, rfl⟩

/-- The hash in it is the committed one. -/
private theorem forged_bindCheck (fits : tm.Fits) :
    bindCheck p acceptAll (forgedReceived p rng pads cm tm) = .ok true := by
  have header := forged_proof p rng pads cm tm
  have size : (forgedReceived p rng pads cm tm).proof.length < vectorLimit := by
    rw [header, length_forgedHeader]
    norm_num [vectorLimit, cmBytes]
  have carried : (forgedHeader p tm.gcHash).gcHash = tm.gcHash := rfl
  exact bindCheck_header header size (forged_starkOk p rng pads cm tm) rfl
    (deserialize_tablesMsg fits) carried rfl

/-- The active labels of the evaluator wires in a forged session. -/
def forgedEvaluatorPart : List Block :=
  let shares := unmasked p oneEvaluation rng pads (List.replicate 256 (0, 0))
  (List.range 128).map fun j =>
    reconstructLabel (shares.getD (2 * j) 0) (shares.getD (2 * j + 1) 0)

/-- The masks are zero, so the labels are the pads. -/
private theorem forged_shareLabels : (forgedReceived p rng pads cm tm).shareLabels =
    unmasked p oneEvaluation rng pads (List.replicate 256 (0, 0)) := by
  rw [forgedReceived, received, forgedMessages]

/-- The client's labels are those of the pads. -/
private theorem forged_evaluatorPart :
    (List.range 128).mapM (evaluatorLabel (forgedReceived p rng pads cm tm) 0) =
      .ok (forgedEvaluatorPart p rng pads) := by
  have single : oneEvaluation.m.toNat = 1 := rfl
  have one : 256 * oneEvaluation.m.toNat = 256 := by rw [single]
  have masks : (List.replicate 256 ((0, 0) : Block × Block)).length =
      256 * oneEvaluation.m.toNat := by
    rw [one, List.length_replicate]
  have sharesLength := length_unmasked p oneEvaluation rng pads masks
  rw [one, ← forged_shareLabels p rng pads cm tm] at sharesLength
  unfold forgedEvaluatorPart
  rw [← forged_shareLabels p rng pads cm tm]
  apply Outcome.mapM_eq_map
  intro j member
  have inside := List.mem_range.mp member
  rw [evaluatorLabel, Nat.zero_mul, Nat.zero_add, readAt_getD 0 (by omega), Outcome.ok_bind,
    readAt_getD 0 (by omega), Outcome.ok_bind]

/-- The first input that the client draws. -/
def firstInput : List UInt8 := (drawInput rng).1

/-- The client evaluates the forged tables to the wanted outputs. -/
private theorem forged_evaluates (fits : tm.Fits) {outs : List Block}
    (evaluated : evalCircuitLabels circ (p.aes tm.aesKey) (TablesMsg.garbling tm)
      (List.replicate 128 0 ++ forgedEvaluatorPart p rng pads) = .ok outs)
    (outsLength : outs.length = 128)
    (outDecode : tm.outDecode = decodeTo outs (blockToBits128
      (p.aes (forgedReceived p rng pads cm tm).oprfKey (h1 p (firstInput rng))))) :
    Evaluates p circ (forgedReceived p rng pads cm tm) 0 (firstInput rng)
      (fK p (forgedReceived p rng pads cm tm).oprfKey (firstInput rng)) := by
  have input : (forgedReceived p rng pads cm tm).xs[0]? = some (firstInput rng) := rfl
  have keys : (forgedReceived p rng pads cm tm).keyLabels[0]? = some (List.replicate 128 0) := rfl
  have keyPart : slice .outOfBounds (List.replicate 128 (0 : Block)) 0 128 =
      .ok (List.replicate 128 0) := slice_whole List.length_replicate
  have decoded : decodeOutputs (TablesMsg.garbling tm) outs = .ok (blockToBits128
      (p.aes (forgedReceived p rng pads cm tm).oprfKey (h1 p (firstInput rng)))) :=
    decodeOutputs_decodeTo (by rw [outsLength, length_blockToBits128]) outDecode
  refine ⟨input, tm, checkedTables_eq_some.mpr ⟨tm.bytes, rfl, deserialize_tablesMsg fits, rfl⟩, ?_⟩
  rw [evaluateCircuit, readAt_eq_ok.mpr keys, Outcome.ok_bind, keyPart, Outcome.ok_bind,
    forged_evaluatorPart, Outcome.ok_bind, evaluated, Outcome.ok_bind, decoded, Outcome.ok_bind,
    bits128ToBlock_blockToBits128, Outcome.ok_bind, readAt_eq_ok.mpr input, Outcome.ok_bind]
  rfl

end

/-- For any commitment and any tables there are decoding bits with which a server's
session is accepted, whatever digest stands in its tables and its proof. -/
theorem exists_accepted_sessions (p : Primitives) {circ : Circuit} (datapath : Datapath circ)
    (cm : List UInt8) (cmFits : cm.length < vectorLimit) (tables : List AndGateTable)
    (supplied : circ.andGates ≤ tables.length) (tablesFit : 32 * tables.length < 2 ^ 62)
    (rng : Rng) (pads : Pads) :
    ∃ decode : List UInt8, ∀ digest, ∃ inbox r v tm,
      runClient p acceptAll oneEvaluation circ rng pads inbox = .ok (r, v) ∧
      v.starkOk = true ∧ v.bindOk = true ∧ v.vok = 1 ∧ r.cm = cm ∧
      checkedTables r 0 = .ok (some tm) ∧ tm.tables = tables ∧ tm.gcHash = digest ∧
      tm.outDecode = decode ∧ r.proof = (forgedHeader p digest).bytes ++ [] := by
  -- The labels do not depend on the decoding bits, which are chosen last.
  have labelsLength : (List.replicate 128 0 ++ forgedEvaluatorPart p rng pads).length =
      circ.inputs := by
    rw [datapath.inputs, List.length_append, List.length_replicate, forgedEvaluatorPart,
      List.length_map, List.length_range]
  obtain ⟨outs, evaluated, outsLength⟩ := evalCircuitLabels_total (p.aes 0) datapath.wf
    { tables } labelsLength supplied
  rw [datapath.output] at outsLength
  let oprfKey := Block.ofBytes (List.replicate 16 0)
  refine ⟨decodeTo outs (blockToBits128 (p.aes oprfKey (h1 p (firstInput rng)))), fun digest => ?_⟩
  let tm : TablesMsg := {
    tables
    outDecode := decodeTo outs (blockToBits128 (p.aes oprfKey (h1 p (firstInput rng))))
    gcHash := digest }
  have decodeLength : tm.outDecode.length = 128 := by
    change (decodeTo outs _).length = 128
    rw [decodeTo, List.length_map, List.length_zip, outsLength, length_blockToBits128]
    rfl
  have blobFits : tm.bytes.length < vectorLimit := by
    rw [tm.length_bytes, decodeLength]
    change 120 + 32 * tables.length + 16 * 0 + 128 < vectorLimit
    norm_num [vectorLimit]
    omega
  have fits : tm.Fits := by
    refine ⟨lt_trans tablesFit (by norm_num), ?_, ?_⟩
    · change 16 * 0 < 2 ^ 63
      norm_num
    · rw [decodeLength]
      norm_num
  have evaluates := forged_evaluates p rng pads cm tm fits evaluated outsLength rfl
  have all : ∀ i, i < oneEvaluation.m.toNat → Evaluates p circ (forgedReceived p rng pads cm tm) i
      (firstInput rng) (fK p (forgedReceived p rng pads cm tm).oprfKey (firstInput rng)) := by
    intro i inside
    rw [Nat.lt_one_iff.mp inside]
    exact evaluates
  obtain ⟨v, judged, starkOk, bindOk, -, accepts⟩ := judge_all (forged_starkOk p rng pads cm tm)
    (forged_bindCheck p rng pads cm tm fits) all
  let msg := forgedMessages p cm tm
  have ran : runClient p acceptAll oneEvaluation circ rng pads
      (msg.offline oneEvaluation ++ (.octet 1 :: msg.online oneEvaluation)) =
        .ok (forgedReceived p rng pads cm tm, v) := by
    rw [runClient_eq p acceptAll circ rng pads oneEvaluation_batch
      (forgedMessages_fits p cmFits blobFits) 1]
    change (judge p acceptAll oneEvaluation circ (forgedReceived p rng pads cm tm) >>= _) = _
    rw [judged]
    rfl
  have checked : checkedTables (forgedReceived p rng pads cm tm) 0 = .ok (some tm) :=
    checkedTables_eq_some.mpr ⟨tm.bytes, rfl, deserialize_tablesMsg fits, rfl⟩
  exact ⟨_, _, v, tm, ran, starkOk, bindOk, accepts fun _ _ => rfl, rfl, checked, rfl, rfl, rfl, rfl⟩

/-- For any commitment and any tables there is a server whose session the client
accepts, with the tables as those of circuit 0. -/
theorem exists_accepted_session (p : Primitives) {circ : Circuit} (datapath : Datapath circ)
    (cm : List UInt8) (cmFits : cm.length < vectorLimit) (tables : List AndGateTable)
    (supplied : circ.andGates ≤ tables.length) (tablesFit : 32 * tables.length < 2 ^ 62)
    (digest : Digest) (rng : Rng) (pads : Pads) :
    ∃ inbox r v tm, runClient p acceptAll oneEvaluation circ rng pads inbox = .ok (r, v) ∧
      v.starkOk = true ∧ v.bindOk = true ∧ v.vok = 1 ∧ r.cm = cm ∧
      checkedTables r 0 = .ok (some tm) ∧ tm.tables = tables ∧ tm.gcHash = digest := by
  obtain ⟨_, accepted⟩ :=
    exists_accepted_sessions p datapath cm cmFits tables supplied tablesFit rng pads
  obtain ⟨inbox, r, v, tm, ran, starkOk, bindOk, vok, sent, checked, same, hash, -, -⟩ :=
    accepted digest
  exact ⟨inbox, r, v, tm, ran, starkOk, bindOk, vok, sent, checked, same, hash⟩

end SimpleOprf.VoprfE2e
