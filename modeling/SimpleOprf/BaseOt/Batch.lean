import SimpleOprf.BaseOt.ExecBase
import SimpleOprf.Basis.Sha256

/-!
# What a batch of base transfers delivers

Each party's outputs as functions of the two parties' inputs. A receiver opens
its own packets with the keys of the last transfer, so a batch is correct only
when these happen to give the strings of its peer.

The three loops are followed one after the other, over any number of transfers,
any roles and any randomness. `batchCorrect_iff` states the condition through
the functions of a single transfer, whose correctness is a hypothesis of
nothing here.
-/

namespace SimpleOprf.BaseOt

open SimpleOprf.Basis

/-! ## Packets -/

@[simp] theorem unpackPair_packPair {n : Nat} (pair : Vector UInt8 n × Vector UInt8 n) :
    unpackPair (packPair pair) = pair := by
  apply Prod.ext
  · apply Vector.ext
    intro j inside
    simp [unpackPair, packPair]
  · apply Vector.ext
    intro j inside
    simp [unpackPair, packPair]

/-- A stored array is read back. -/
theorem reads_getBytes {n : Nat} (short : n < 256 ^ 4) (bytes : Vector UInt8 n) :
    (getBytes n).Reads (storeBytes bytes) bytes := by
  have size : (leBytes 4 n).length = 4 := length_leBytes 4 n
  have len := (Reader.reads_bytes (.thrown "insufficient data") size).map ofLe
  rw [ofLe_leBytes short] at len
  have payload := Reader.reads_bytes (.thrown "insufficient data")
    (show bytes.toList.length = n from Vector.length_toList)
  unfold getBytes storeBytes
  rw [← List.append_nil bytes.toList]
  refine len.bind (payload.bind ?_)
  rw [if_neg (Nat.lt_irrefl n), if_neg (not_not.mpr rfl), ofBytes_toList]
  exact Reader.Reads.pure bytes

/-! ## The inputs of one transfer -/

variable {nOT : Nat} (k : Indcpa)

/-- The first message of transfer `i`, which draws twice. -/
def Player.message (player : Player nOT) (i : Nat) :
    KyberOTRecver × (PublicKey × PublicKey) × Entropy :=
  kyberReceiverMessage k { player.recver with b := player.choice i } (player.entropy.drop (2 * i))

/-- What is left of the entropy for the second loop, which draws four times. -/
def Player.senderEntropy (player : Player nOT) : Entropy :=
  if player.role.isReceiver then player.entropy.drop (2 * nOT) else player.entropy

/-- The strings drawn for transfer `i`. -/
def Player.sot (player : Player nOT) (i : Nat) : OtString × OtString :=
  (player.senderEntropy.get (4 * i), player.senderEntropy.get (4 * i + 1))

/-- The answer to the peer's message of transfer `i`. -/
def Player.ciphertexts (player peer : Player nOT) (i : Nat) : Ciphertext × Ciphertext :=
  (kyberSenderMessage k (player.sot i) (peer.message k i).2.1
    (player.senderEntropy.drop (4 * i + 2))).1

/-- Row `i` of the party's own `Sr_pack[0]` before the last loop: what it sent, or
what the stack held. -/
def Player.ownPack (player peer : Player nOT) (i : Nat) : SrPack :=
  if player.role.isSender then packPair (player.ciphertexts k peer i)
  else player.srPack.toList.getD i (Vector.replicate _ 0)

/-! ## The loops -/

/-- A first message depends on the state of the receiver only through its choice
bit and the string it opened last. -/
theorem kyberReceiverMessage_eq (player : Player nOT) {recver : KyberOTRecver}
    (unopened : recver.rot = player.recver.rot) (i : Nat) :
    kyberReceiverMessage k { recver with b := player.choice i } (player.entropy.drop (2 * i)) =
      player.message k i := by
  obtain ⟨secretKey, rot, b⟩ := recver
  cases unopened
  rfl

/-- Transfer `i` leaves the entropy where transfer `i + 1` starts. -/
theorem message_entropy (player : Player nOT) (i : Nat) :
    (player.message k i).2.2 = player.entropy.drop (2 * (i + 1)) := by
  change (player.entropy.drop (2 * i)).tail.tail = _
  rw [Stream'.tail_drop', Stream'.tail_drop', Nat.mul_succ]

/-- The first loop sends the messages of its transfers and keeps the keys of the
last one. -/
theorem receiverLoop_eq (player : Player nOT) {count i : Nat} {recver : KyberOTRecver}
    (unopened : recver.rot = player.recver.rot) :
    receiverLoop k player.choice (count + 1) i recver (player.entropy.drop (2 * i)) =
      ((List.range' i (count + 1)).flatMap fun j => storeBytes (packPair (player.message k j).2.1),
        (player.message k (i + count)).1, player.entropy.drop (2 * (i + count + 1))) := by
  induction count generalizing i recver with
  | zero =>
    rw [receiverLoop, kyberReceiverMessage_eq k player unopened]
    dsimp only
    rw [receiverLoop, message_entropy]
    simp
  | succ count ih =>
    have rest := @ih (i + 1) (player.message k i).1 rfl
    rw [receiverLoop, kyberReceiverMessage_eq k player unopened, List.range'_succ,
      List.flatMap_cons]
    dsimp only
    rw [message_entropy, rest]
    simp only [Nat.add_right_comm i 1 count, Nat.add_assoc i count 1]

/-- One round of the second loop draws its strings and then its coins. -/
theorem sender_draws (player peer : Player nOT) (i : Nat) :
    (player.senderEntropy.drop (4 * i)).head = (player.sot i).1 ∧
      (player.senderEntropy.drop (4 * i)).tail.head = (player.sot i).2 ∧
      kyberSenderMessage k (player.sot i) (peer.message k i).2.1
          (player.senderEntropy.drop (4 * i)).tail.tail =
        (player.ciphertexts k peer i, player.senderEntropy.drop (4 * (i + 1))) := by
  refine ⟨Stream'.head_drop _ _, ?_, ?_⟩
  · rw [Stream'.tail_drop', Stream'.head_drop]
    rfl
  · rw [Stream'.tail_drop', Stream'.tail_drop', Player.ciphertexts]
    apply Prod.ext
    · rfl
    · change (player.senderEntropy.drop (4 * i + 1 + 1)).tail.tail = _
      rw [Stream'.tail_drop', Stream'.tail_drop', Nat.mul_succ]

/-- The second loop answers each pair of keys with the strings of its transfer. -/
theorem reads_senderLoop (player peer : Player nOT) (count i : Nat) :
    (senderLoop k count (player.senderEntropy.drop (4 * i))).Reads
      ((List.range' i count).flatMap fun j => storeBytes (packPair (peer.message k j).2.1))
      ((List.range' i count).map fun j =>
        ((firstBlock (player.sot j).1, firstBlock (player.sot j).2),
          packPair (player.ciphertexts k peer j))) := by
  induction count generalizing i with
  | zero => exact Reader.Reads.pure []
  | succ count ih =>
    have short : pkLength + pkLength < 256 ^ 4 := by decide
    have pack := reads_getBytes short (packPair (peer.message k i).2.1)
    have rest := ih (i + 1)
    obtain ⟨first, second, answered⟩ := sender_draws k player peer i
    rw [List.range'_succ, List.flatMap_cons, List.map_cons]
    unfold senderLoop
    refine pack.bind ?_
    simp only [unpackPair_packPair, randombytes, first, second]
    rw [answered]
    exact rest.map (((firstBlock (player.sot i).1, firstBlock (player.sot i).2),
      packPair (player.ciphertexts k peer i)) :: ·)

/-- The last loop opens the party's own packets, whatever it is sent. -/
theorem reads_stringsLoop (recver : KyberOTRecver) {own sent : List SrPack}
    (sized : sent.length = own.length) :
    (stringsLoop k recver own).Reads (sent.flatMap storeBytes)
      (own.map fun pack => firstBlock (kyberReceiverStrings k recver (unpackPair pack)).rot) := by
  induction own generalizing recver sent with
  | nil =>
    have none : sent = [] := List.length_eq_zero_iff.mp sized
    rw [none]
    exact Reader.Reads.pure []
  | cons pack own ih =>
    obtain ⟨first, rest, rfl⟩ := List.exists_cons_of_length_eq_add_one sized
    have short : ctLength + ctLength < 256 ^ 4 := by decide
    -- Opening a packet changes neither the key nor the choice bit.
    have later := ih (kyberReceiverStrings k recver (unpackPair pack)) (Nat.succ.inj sized)
    rw [List.flatMap_cons, List.map_cons]
    unfold stringsLoop
    exact (reads_getBytes short first).bind
      (later.map (firstBlock (kyberReceiverStrings k recver (unpackPair pack)).rot :: ·))

/-! ## One party -/

/-- The keys and the choice bit of the last transfer. -/
def Player.lastRecver (player : Player nOT) : KyberOTRecver := (player.message k (nOT - 1)).1

/-- What a party holds after the last loop. -/
def Player.outputs (player peer : Player nOT) : Outputs where
  receiverInputs := player.choices
  senderInputs :=
    if player.role.isSender then
      (List.range nOT).map fun i => (firstBlock (player.sot i).1, firstBlock (player.sot i).2)
    else List.replicate nOT (Vector.replicate 16 0, Vector.replicate 16 0)
  receiverOutputs :=
    if player.role.isReceiver then
      (List.range nOT).map fun i => firstBlock
        (kyberReceiverStrings k (player.lastRecver k) (unpackPair (player.ownPack k peer i))).rot
    else List.replicate nOT (Vector.replicate 16 0)

variable {k} {player peer : Player nOT}

/-- What a party offers, as functions of its inputs. -/
theorem offer_eq (player : Player nOT) (positive : 0 < nOT) :
    player.offer k =
      { rsPacks := if player.role.isReceiver then
          (List.range nOT).flatMap fun i => storeBytes (packPair (player.message k i).2.1) else []
        recver := if player.role.isReceiver then player.lastRecver k else player.recver
        entropy := player.senderEntropy } := by
  obtain ⟨count, rfl⟩ := Nat.exists_eq_add_one.mpr positive
  have loop := @receiverLoop_eq _ k player count 0 player.recver rfl
  have start : player.entropy.drop (2 * 0) = player.entropy := rfl
  rw [Nat.zero_add, ← List.range_eq_range', start] at loop
  unfold Player.offer Player.senderEntropy
  cases player.role.isReceiver with
  | true =>
    simp only [if_true, loop]
    rfl
  | false => rfl

/-- A party answers the offer of its peer with its own strings. -/
theorem answer_eq (player peer : Player nOT) (positive : 0 < nOT)
    (roles : peer.role.isReceiver = player.role.isSender) :
    player.answer k (player.offer k) (peer.offer k).rsPacks =
      .ok ⟨(player.outputs k peer).senderInputs, (List.range nOT).map (player.ownPack k peer)⟩ := by
  rw [offer_eq player positive, offer_eq peer positive, roles]
  unfold Player.answer Player.outputs
  cases sends : player.role.isSender with
  | true =>
    have answered := (reads_senderLoop k player peer nOT 0).parse_eq
    rw [← List.range_eq_range'] at answered
    have own : (List.range nOT).map (player.ownPack k peer) =
        (List.range nOT).map fun i => packPair (player.ciphertexts k peer i) := by
      apply List.map_congr_left
      intro i _
      rw [Player.ownPack, sends, if_pos rfl]
    simp only [if_true]
    change (senderLoop k nOT (player.senderEntropy.drop (4 * 0))).parse _ >>= _ = _
    rw [answered, Outcome.ok_bind, own, List.map_map, List.map_map]
    rfl
  | false =>
    have stale : player.srPack.toList = (List.range nOT).map (player.ownPack k peer) := by
      apply List.ext_getElem
      · simp
      · intro i first second
        rw [List.getElem_map, List.getElem_range, Player.ownPack, sends, if_neg Bool.false_ne_true,
          List.getD_eq_getElem?_getD, List.getElem?_eq_getElem first]
        rfl
    simp only [Bool.false_eq_true, if_false, stale]

/-- A receiver collects what its own packets hold. -/
theorem collect_eq (player peer : Player nOT) (positive : 0 < nOT) {inputs : List (Key128 × Key128)}
    {os1 : List UInt8} (arrives : player.role.isReceiver = true →
      os1 = ((List.range nOT).map (peer.ownPack k player)).flatMap storeBytes) :
    player.collect k (player.offer k) ⟨inputs, (List.range nOT).map (player.ownPack k peer)⟩ os1 =
      .ok (player.outputs k peer).receiverOutputs := by
  rw [offer_eq player positive]
  unfold Player.collect Player.outputs
  cases receives : player.role.isReceiver with
  | true =>
    have sized : ((List.range nOT).map (peer.ownPack k player)).length =
        ((List.range nOT).map (player.ownPack k peer)).length := by simp
    simp only [if_true]
    rw [arrives receives, (reads_stringsLoop k (player.lastRecver k) sized).parse_eq, List.map_map]
    rfl
  | false => rfl

/-! ## Both parties -/

/-- The peer of a receiver sends. -/
theorem invRole_isSender (role : OtRole) : (invRole role).isSender = role.isReceiver := by
  cases role <;> rfl

/-- The peer of a sender receives. -/
theorem invRole_isReceiver (role : OtRole) : (invRole role).isReceiver = role.isSender := by
  cases role <;> rfl

/-- A direction in which both sides agree carries the whole stream. -/
theorem deliver_eq {sends receives : Bool} {os0 : List UInt8} (agree : sends = receives)
    (silent : sends = false → os0 = []) : deliver sends receives os0 = .ok os0 := by
  rw [deliver, if_pos agree]
  cases sends with
  | true => rfl
  | false => rw [silent rfl, if_neg Bool.false_ne_true]

/-- A party that does not receive offers no keys. -/
theorem rsPacks_silent (silent : player.role.isReceiver = false) :
    (player.offer k).rsPacks = [] := by
  rw [Player.offer, silent, if_neg Bool.false_ne_true]

/-- A party that does not send answers with no packets. -/
theorem srPacks_silent {answer : Answer} {role : OtRole} (silent : role.isSender = false) :
    answer.srPacks role = [] := by
  rw [Answer.srPacks, silent, if_neg Bool.false_ne_true]

/-- Parties in complementary roles finish with their outputs. -/
theorem transferBatch_eq {a b : Player nOT} (positive : 0 < nOT)
    (roles : b.role = invRole a.role) :
    transferBatch k a b = .ok (a.outputs k b, b.outputs k a) := by
  have fromA : a.role.isReceiver = b.role.isSender := by rw [roles, invRole_isSender]
  have fromB : b.role.isReceiver = a.role.isSender := by rw [roles, invRole_isReceiver]
  have arrives : ∀ player peer : Player nOT, player.role.isReceiver = peer.role.isSender →
      player.role.isReceiver = true →
      (Answer.mk (peer.outputs k player).senderInputs
        ((List.range nOT).map (peer.ownPack k player))).srPacks peer.role =
          ((List.range nOT).map (peer.ownPack k player)).flatMap storeBytes := by
    intro player peer agree receives
    rw [Answer.srPacks, ← agree, receives, if_pos rfl]
  unfold transferBatch
  simp only [deliver_eq fromA rsPacks_silent, deliver_eq fromB rsPacks_silent,
    deliver_eq fromA.symm srPacks_silent, deliver_eq fromB.symm srPacks_silent,
    answer_eq a b positive fromB, answer_eq b a positive fromA, Outcome.ok_bind,
    collect_eq a b positive (arrives a b fromA), collect_eq b a positive (arrives b a fromB)]
  rfl

/-! ## Correctness -/

/-- Every output of the receiver is the string at its choice bit. -/
def Delivers (nOT : Nat) (receiver sender : Outputs) : Prop :=
  ∀ i, i < nOT → ∃ b strings, receiver.receiverInputs[i]? = some b ∧
    sender.senderInputs[i]? = some strings ∧ receiver.receiverOutputs[i]? = some (pick b strings)

/-- The packets that a receiver opens hold the strings of its peer after all. -/
def OwnPacksOpen (k : Indcpa) (player peer : Player nOT) : Prop :=
  ∀ i, i < nOT →
    firstBlock (kyberReceiverStrings k (player.lastRecver k)
      (unpackPair (player.ownPack k peer i))).rot =
    firstBlock (pick (player.choice i) (peer.sot i))

/-- The outputs are right exactly when the party's own packets open to them. -/
theorem delivers_iff (receives : player.role.isReceiver = true)
    (sends : peer.role.isSender = true) :
    Delivers nOT (player.outputs k peer) (peer.outputs k player) ↔ OwnPacksOpen k player peer := by
  have commute : ∀ (b : Bool) (sot : OtString × OtString),
      pick b (firstBlock sot.1, firstBlock sot.2) = firstBlock (pick b sot) := by
    intro b sot
    cases b <;> rfl
  have entry : ∀ i, i < nOT →
      (player.outputs k peer).receiverInputs[i]? = some (player.choice i) ∧
      (peer.outputs k player).senderInputs[i]? =
        some (firstBlock (peer.sot i).1, firstBlock (peer.sot i).2) ∧
      (player.outputs k peer).receiverOutputs[i]? =
        some (firstBlock (kyberReceiverStrings k (player.lastRecver k)
          (unpackPair (player.ownPack k peer i))).rot) := by
    intro i inside
    simp [Player.outputs, Player.choices, receives, sends, inside]
  constructor
  · intro delivers i inside
    obtain ⟨b, strings, choice, sent, output⟩ := delivers i inside
    obtain ⟨choice', sent', output'⟩ := entry i inside
    rw [choice'] at choice
    rw [sent'] at sent
    rw [output'] at output
    cases choice
    cases sent
    rw [← commute]
    exact Option.some.inj output
  · intro opens i inside
    obtain ⟨choice, sent, output⟩ := entry i inside
    exact ⟨_, _, choice, sent, by rw [output, opens i inside, commute]⟩

/-- Hashing and extending both sides keeps what was delivered, and the check finds
it. -/
theorem check_of_delivers (x : Expander) {receiver sender : Outputs}
    {receiverRole senderRole : OtRole} (receives : receiverRole.isReceiver = true)
    (sends : senderRole.isSender = true) (delivers : Delivers nOT receiver sender) :
    check nOT (receiver.extend x receiverRole) (sender.extend x senderRole) = .ok () := by
  unfold check
  rw [Outcome.forM_eq_ok]
  intro i member
  obtain ⟨b, strings, choice, sent, output⟩ := delivers i (List.mem_range.mp member)
  have choice' : (receiver.extend x receiverRole).receiverInputs[i]? = some b := choice
  have sent' : (sender.extend x senderRole).senderInputs[i]? =
      some (extend x i strings.1, extend x i strings.2) := by
    simp [Outputs.extend, sends, sent]
  have output' : (receiver.extend x receiverRole).receiverOutputs[i]? =
      some (extend x i (pick b strings)) := by
    simp [Outputs.extend, receives, output]
  rw [readAt_eq_ok.mpr choice', Outcome.ok_bind, readAt_eq_ok.mpr sent', Outcome.ok_bind,
    readAt_eq_ok.mpr output', Outcome.ok_bind]
  cases b with
  | false => simp [pick]
  | true => simp [pick]

/-- What a batch promises to a receiver: the chosen strings before hashing, and a
passing check behind it. -/
def BatchCorrect (x : Expander) (player peer : Player nOT) (receiver sender : Outputs) : Prop :=
  player.role.isReceiver = true → Delivers nOT receiver sender ∧
    check nOT (receiver.extend x player.role) (sender.extend x peer.role) = .ok ()

/-- A receiver of a batch gets what it is promised exactly when its own packets,
opened with the keys of the last transfer, hold the strings of its peer. -/
theorem batchCorrect_iff (k : Indcpa) (x : Expander) (a b : Player nOT) (positive : 0 < nOT)
    (roles : b.role = invRole a.role) :
    ∃ outA outB, transferBatch k a b = .ok (outA, outB) ∧
      execBase k x a b = .ok (outA.extend x a.role, outB.extend x b.role) ∧
      (BatchCorrect x a b outA outB ↔ (a.role.isReceiver = true → OwnPacksOpen k a b)) ∧
      (BatchCorrect x b a outB outA ↔ (b.role.isReceiver = true → OwnPacksOpen k b a)) := by
  have correct : ∀ player peer : Player nOT, player.role.isReceiver = peer.role.isSender →
      (BatchCorrect x player peer (player.outputs k peer) (peer.outputs k player) ↔
        (player.role.isReceiver = true → OwnPacksOpen k player peer)) := by
    intro player peer agree
    constructor
    · intro promised receives
      exact (delivers_iff receives (agree ▸ receives)).mp (promised receives).1
    · intro opens receives
      have delivers := (delivers_iff receives (agree ▸ receives)).mpr (opens receives)
      exact ⟨delivers, check_of_delivers x receives (agree ▸ receives) delivers⟩
  have ran := transferBatch_eq (k := k) positive roles
  refine ⟨_, _, ran, ?_, correct a b ?_, correct b a ?_⟩
  · rw [execBase, ran]
    rfl
  · rw [roles, invRole_isSender]
  · rw [roles, invRole_isReceiver]

/-- A party that plays both roles in two transfers, chooses the first string and
then the second, and draws blocks of equal bytes that count up from `first`. -/
def countingPlayer (first : UInt8) : Player 2 where
  role := .both
  newReceiverInputs := false
  receiverInputs := #v[false, true]
  g := Stream'.const 0
  entropy i := Vector.replicate 32 (first + UInt8.ofNat i)
  recver := ⟨Vector.replicate _ 0, Vector.replicate _ 0, false⟩
  srPack := Vector.replicate 2 (Vector.replicate _ 0)

/-- SHA-256 for the hash, and generators that write their seed. -/
def seedExpander : Expander where
  hash bytes := ofBytes 16 (Sha256.hash bytes).toList
  randomize seed := seed

/-- The equivalence for a batch of two transfers between two such parties. -/
theorem countingPlayers_iff : ∃ outA outB,
    transferBatch transparent (countingPlayer 0) (countingPlayer 100) = .ok (outA, outB) ∧
      execBase transparent seedExpander (countingPlayer 0) (countingPlayer 100) =
        .ok (outA.extend seedExpander .both, outB.extend seedExpander .both) ∧
      (BatchCorrect seedExpander (countingPlayer 0) (countingPlayer 100) outA outB ↔
        (OtRole.both.isReceiver = true →
          OwnPacksOpen transparent (countingPlayer 0) (countingPlayer 100))) ∧
      (BatchCorrect seedExpander (countingPlayer 100) (countingPlayer 0) outB outA ↔
        (OtRole.both.isReceiver = true →
          OwnPacksOpen transparent (countingPlayer 100) (countingPlayer 0))) :=
  batchCorrect_iff transparent seedExpander (countingPlayer 0) (countingPlayer 100) Nat.two_pos rfl

/-- With correct single transfers a party of two transfers still gets a string of
its own instead of its peer's. -/
theorem batch_may_deliver_own_string :
    ¬ ∀ (k : Indcpa) (x : Expander) (nOT : Nat) (a b : Player nOT), k.Correct → 0 < nOT →
      b.role = invRole a.role → ∃ outA outB, transferBatch k a b = .ok (outA, outB) ∧
        BatchCorrect x a b outA outB ∧ BatchCorrect x b a outB outA := by
  intro correct
  obtain ⟨outA, outB, ran, promised, -⟩ := correct transparent seedExpander 2 (countingPlayer 0)
    (countingPlayer 100) transparent_correct Nat.two_pos rfl
  have outputs : transferBatch transparent (countingPlayer 0) (countingPlayer 100) = _ :=
    transferBatch_eq Nat.two_pos rfl
  rw [outputs] at ran
  cases ran
  have opens := (delivers_iff rfl rfl).mp (promised rfl).1 0 Nat.two_pos
  -- The first packet is opened with the choice bit of the second transfer.
  have own : (kyberReceiverStrings transparent ((countingPlayer 0).lastRecver transparent)
      (unpackPair ((countingPlayer 0).ownPack transparent (countingPlayer 100) 0))).rot =
        Vector.replicate 32 5 := by
    let recver := (countingPlayer 0).lastRecver transparent
    change transparent.dec (pick true (unpackPair (packPair
      ((countingPlayer 0).ciphertexts transparent (countingPlayer 100) 0)))) recver.secretKey = _
    rw [unpackPair_packPair]
    exact transparent_dec_enc ((countingPlayer 0).sot 0).2 (Vector.replicate _ 0)
      (Vector.replicate _ 0) recver.secretKey
  rw [own] at opens
  have bytes := congrArg (fun block : Key128 => block[0]) opens
  exact absurd bytes (by decide)

end SimpleOprf.BaseOt
