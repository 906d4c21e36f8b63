import SimpleOprf.BaseOt.Kyber
import SimpleOprf.Basis.Reader

/-!
# The batch of base transfers

`BaseOT::exec_base` for two parties that run it against each other. Its local
arrays start with whatever the stack holds; only `Sr_pack[0]` and `recver` are
ever read before they are written, so they are inputs of the model.

The loops are lists of steps over an explicit stream of random blocks. Messages
go through byte streams with length prefixes, so a packet of the wrong size is
met where the source meets it.
-/

namespace SimpleOprf.BaseOt

open SimpleOprf.Basis

/-! ## Roles -/

/-- `OT_ROLE`. -/
inductive OtRole where
  | receiver
  | sender
  | both
deriving DecidableEq, Repr

/-- The value of the enumerator. -/
def OtRole.value : OtRole → UInt8
  | receiver => 0x01
  | sender => 0x10
  | both => 0x11

/-- The test `ot_role & RECEIVER`. -/
def OtRole.isReceiver (role : OtRole) : Bool := role.value &&& OtRole.receiver.value != 0

/-- The test `ot_role & SENDER`. -/
def OtRole.isSender (role : OtRole) : Bool := role.value &&& OtRole.sender.value != 0

/-- `INV_ROLE`: the role of the peer. -/
def invRole : OtRole → OtRole
  | .receiver => .sender
  | .sender => .receiver
  | .both => .both

/-! ## Packets -/

/-- The first sixteen bytes of a string, which is all that is kept of it. -/
abbrev Key128 := Vector UInt8 16

/-- The 16 bytes of a string that a base transfer keeps. -/
def firstBlock (sot : OtString) : Key128 := Vector.ofFn fun i => sot[i.val]

/-- Two arrays end to end. -/
def packPair {n : Nat} (pair : Vector UInt8 n × Vector UInt8 n) : Vector UInt8 (n + n) :=
  pair.1 ++ pair.2

/-- The two halves of a packet, as the `memcpy` calls after `get_bytes` split it. -/
def unpackPair {n : Nat} (pack : Vector UInt8 (n + n)) : Vector UInt8 n × Vector UInt8 n :=
  (Vector.ofFn fun j => pack[j.val], Vector.ofFn fun j => pack[j.val + n])

/-- The two ciphertexts of one transfer, one after the other. -/
abbrev SrPack := Vector UInt8 (ctLength + ctLength)

/-- `store_bytes`: a four-byte length and the bytes. -/
def storeBytes {n : Nat} (bytes : Vector UInt8 n) : List UInt8 := leBytes 4 n ++ bytes.toList

/-- `get_bytes` into an array of `n` bytes, and the comparison of the lengths. -/
def getBytes (n : Nat) : Reader (Vector UInt8 n) := do
  let len ← ofLe <$> Reader.bytes (.thrown "insufficient data") 4
  let bytes ← Reader.bytes (.thrown "insufficient data") len
  if n < len then
    Reader.computing (.error .outOfBounds)
  else if len ≠ n then
    Reader.computing (.error (.exited "Received invalid length in base OT"))
  else
    pure (ofBytes n bytes)

/-! ## The loops -/

/-- A party of a batch of `nOT` transfers when it enters `exec_base`. -/
structure Player (nOT : Nat) where
  role : OtRole
  newReceiverInputs : Bool
  receiverInputs : Vector Bool nOT
  /-- The bytes that the generator of choice bits returns. -/
  g : Stream' UInt8
  entropy : Entropy
  recver : KyberOTRecver
  /-- The array `Sr_pack[0]` as the stack holds it. -/
  srPack : Vector SrPack nOT

variable {nOT : Nat} (k : Indcpa)

/-- Choice bit `i`, given or drawn. -/
def Player.choice (player : Player nOT) (i : Nat) : Bool :=
  if player.newReceiverInputs then player.g.get i &&& 1 == 1
  else player.receiverInputs.toList.getD i false

/-- The first loop: `count` receiver messages from transfer `i` on, all made with
the one `recver`. -/
def receiverLoop (choice : Nat → Bool) :
    Nat → Nat → KyberOTRecver → Entropy → List UInt8 × KyberOTRecver × Entropy
  | 0, _, recver, entropy => ([], recver, entropy)
  | count + 1, i, recver, entropy =>
    let recver := { recver with b := choice i }
    let (recver, keys, entropy) := kyberReceiverMessage k recver entropy
    let (packs, recver, entropy) := receiverLoop choice count (i + 1) recver entropy
    (storeBytes (packPair keys) ++ packs, recver, entropy)

/-- The second loop: answer `count` pairs of keys. -/
def senderLoop : Nat → Entropy → Reader (List ((Key128 × Key128) × SrPack))
  | 0, _ => pure []
  | count + 1, entropy => do
    let pack ← getBytes (pkLength + pkLength)
    let (sot0, entropy) := randombytes entropy
    let (sot1, entropy) := randombytes entropy
    let (sm, entropy) := kyberSenderMessage k (sot0, sot1) (unpackPair pack) entropy
    let rest ← senderLoop count entropy
    return ((firstBlock sot0, firstBlock sot1), packPair sm) :: rest

/-- The last loop. Every round receives into `Sr_pack[1][i]` and then opens
`Sr_pack[0][i]`, the party's own array, with the one `recver`. -/
def stringsLoop (recver : KyberOTRecver) : List SrPack → Reader (List Key128)
  | [] => pure []
  | srPack :: rest => do
    let _ ← getBytes (ctLength + ctLength)
    let recver := kyberReceiverStrings k recver (unpackPair srPack)
    let outputs ← stringsLoop recver rest
    return firstBlock recver.rot :: outputs

/-! ## One party -/

/-- A party after its first loop. -/
structure Offer where
  rsPacks : List UInt8
  recver : KyberOTRecver
  entropy : Entropy

/-- The first loop, which a party runs only when it receives. -/
def Player.offer (player : Player nOT) : Offer :=
  if player.role.isReceiver then
    let (rsPacks, recver, entropy) :=
      receiverLoop k player.choice nOT 0 player.recver player.entropy
    { rsPacks, recver, entropy }
  else
    { rsPacks := [], recver := player.recver, entropy := player.entropy }

/-- The strings that a party sends, and its own `Sr_pack[0]`. -/
structure Answer where
  senderInputs : List (Key128 × Key128)
  srPack : List SrPack

/-- The second loop, which a party runs only when it sends. It answers each pair of
keys in `os[1]`. -/
def Player.answer (player : Player nOT) (offer : Offer) (os1 : List UInt8) : Outcome Answer :=
  if player.role.isSender then do
    let answered ← (senderLoop k nOT offer.entropy).parse os1
    .ok { senderInputs := answered.map (·.1), srPack := answered.map (·.2) }
  else
    .ok {
      senderInputs := List.replicate nOT (Vector.replicate 16 0, Vector.replicate 16 0)
      srPack := player.srPack.toList }

/-- What the answering loop appends to the stream for the peer. -/
def Answer.srPacks (answer : Answer) (role : OtRole) : List UInt8 :=
  if role.isSender then answer.srPack.flatMap storeBytes else []

/-- The third loop, which a party runs only when it receives. -/
def Player.collect (player : Player nOT) (offer : Offer) (answer : Answer) (os1 : List UInt8) :
    Outcome (List Key128) :=
  if player.role.isReceiver then (stringsLoop k offer.recver answer.srPack).parse os1
  else .ok (List.replicate nOT (Vector.replicate 16 0))

/-! ## Both parties -/

/-- The vectors that other code reads after `exec_base`. -/
structure Outputs where
  receiverInputs : List Bool
  senderInputs : List (Key128 × Key128)
  receiverOutputs : List Key128

/-- One direction of `send_if_ot_receiver` or `send_if_ot_sender`: what arrives
in `os[1]`, if anything; parties whose roles do not fit wait forever. -/
def deliver (sends receives : Bool) (os0 : List UInt8) : Outcome (List UInt8) :=
  if sends = receives then .ok (if sends then os0 else []) else .error .starved

/-- The choice bits of a party, stored in `receiver_inputs` as they are drawn. -/
def Player.choices (player : Player nOT) : List Bool :=
  if player.role.isReceiver then (List.range nOT).map player.choice
  else player.receiverInputs.toList

/-- Both parties up to the last loop. -/
def transferBatch (a b : Player nOT) : Outcome (Outputs × Outputs) := do
  let offerA := a.offer k
  let offerB := b.offer k
  let toB ← deliver a.role.isReceiver b.role.isSender offerA.rsPacks
  let toA ← deliver b.role.isReceiver a.role.isSender offerB.rsPacks
  let answerA ← a.answer k offerA toA
  let answerB ← b.answer k offerB toB
  let toB ← deliver a.role.isSender b.role.isReceiver (answerA.srPacks a.role)
  let toA ← deliver b.role.isSender a.role.isReceiver (answerB.srPacks b.role)
  let outputsA ← a.collect k offerA answerA toA
  let outputsB ← b.collect k offerB answerB toB
  .ok (⟨a.choices, answerA.senderInputs, outputsA⟩, ⟨b.choices, answerB.senderInputs, outputsB⟩)

/-- The hash function, and what a generator seeded with a key writes first. -/
structure Expander where
  hash : List UInt8 → Key128
  randomize : Key128 → Key128

/-- `hash_with_id`: the hash of a block followed by the number of its transfer. -/
def hashWithId (x : Expander) (id : Nat) (bits : Key128) : Key128 :=
  x.hash (bits.toList ++ le64 (UInt64.ofNat id))

/-- `hash_with_id`, `set_seeds` and `extend_length` on one vector. -/
def extend (x : Expander) (id : Nat) (bits : Key128) : Key128 := x.randomize (hashWithId x id bits)

/-- `set_seeds` and `extend_length` on the outputs of a party in the given role. -/
def Outputs.extend (x : Expander) (role : OtRole) (out : Outputs) : Outputs where
  receiverInputs := out.receiverInputs
  senderInputs :=
    if role.isSender then
      out.senderInputs.mapIdx fun i pair => (BaseOt.extend x i pair.1, BaseOt.extend x i pair.2)
    else out.senderInputs
  receiverOutputs :=
    if role.isReceiver then out.receiverOutputs.mapIdx (BaseOt.extend x) else out.receiverOutputs

/-- `exec_base` of both parties, down to the extended outputs. -/
def execBase (x : Expander) (a b : Player nOT) : Outcome (Outputs × Outputs) := do
  let (outA, outB) ← transferBatch k a b
  .ok (outA.extend x a.role, outB.extend x b.role)

/-- `BaseOT::check` for a receiving party and its peer. -/
def check (nOT : Nat) (receiver sender : Outputs) : Outcome Unit :=
  (List.range nOT).forM fun i => do
    let b ← readAt receiver.receiverInputs i
    let strings ← readAt sender.senderInputs i
    let output ← readAt receiver.receiverOutputs i
    if pick b strings ≠ output then .error (.exited "Incorrect OT") else .ok ()

end SimpleOprf.BaseOt
