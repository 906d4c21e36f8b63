import SimpleOprf.Basis.Inbox
import SimpleOprf.GcMmo.Block

/-!
# Messages on the wire

`send_u64`, `send_blob` and their receivers. The socket carries sixteen-byte
blocks and single octets in order; what a party receives is its inbox.

Blobs are preceded by their length and padded to whole blocks, so an empty blob
is a header alone. Any list of frames is received as it was sent.
-/

namespace SimpleOprf.VoprfE2e

open SimpleOprf.Basis SimpleOprf.GcMmo

/-- The units that the two parties hand to the socket. -/
inductive Packet where
  | block (b : Block)
  | octet (x : UInt8)
deriving DecidableEq, Repr

/-- Receive one block; anything else in its place stalls the receiver. -/
def recvBlock : Inbox Packet Block := fun inbox =>
  match inbox with
  | .block b :: rest => .ok (b, rest)
  | _ => .error .starved

/-- One byte of the ping. -/
def recvOctet : Inbox Packet UInt8 := fun inbox =>
  match inbox with
  | .octet x :: rest => .ok (x, rest)
  | _ => .error .starved

/-- `send_u64`: the number in the low half of a block. -/
def sendU64 (x : UInt64) : List Packet := [.block (Block.ofBytes (le64 x))]

/-- `recv_u64`. -/
def recvU64 : Inbox Packet UInt64 := do
  let b ← recvBlock
  return ofLe64 (b.bytes.take 8)

/-- The zero-padded blocks that a blob is copied into. -/
def toBlocks : Nat → List UInt8 → List Block
  | 0, _ => []
  | nblk + 1, data => Block.ofBytes data :: toBlocks nblk (data.drop 16)

/-- `send_blob`: the length, then the bytes in blocks, padded with zeros. -/
def sendBlob (data : List UInt8) : List Packet :=
  sendU64 (UInt64.ofNat data.length) ++ (toBlocks ((data.length + 15) / 16) data).map .block

/-- The limit of `std::vector<u8>`, beyond which its constructor throws. -/
def vectorLimit : Nat := 2 ^ 63

/-- `recv_blob`. -/
def recvBlob : Inbox Packet (List UInt8) := do
  let n ← recvU64
  let nblk := (n + 15) / 16
  if vectorLimit ≤ n.toNat then
    throw (.thrown "cannot create std::vector larger than max_size()")
  else
    let blocks ← Inbox.repeated recvBlock nblk.toNat
    return (blocks.flatMap Block.bytes).take n.toNat

/-- A block is received as it was sent. -/
theorem receives_block (b : Block) : recvBlock.Receives [.block b] b := by
  intro rest
  rfl

/-- So is a number. -/
theorem receives_u64 (x : UInt64) : recvU64.Receives (sendU64 x) x := by
  have first : recvU64.Receives (sendU64 x ++ [])
      (ofLe64 ((Block.ofBytes (le64 x)).bytes.take 8)) :=
    (receives_block _).bind (Inbox.Receives.pure _)
  have word : (Block.ofBytes (le64 x)).bytes.take 8 = le64 x := by
    apply List.ext_getElem
    · simp
    · intro i _ inside
      have bound : i < 8 := by simpa using inside
      simp [Block.bytes, Block.ofBytes, ofBytes, List.getElem_take, bound]
  rwa [List.append_nil, word, ofLe64_le64] at first

theorem length_toBlocks (nblk : Nat) (data : List UInt8) : (toBlocks nblk data).length = nblk := by
  induction nblk generalizing data with
  | zero => rfl
  | succ nblk ih => simp [toBlocks, ih]

/-- The bytes of the padded blocks begin with the data. -/
theorem take_toBlocks {nblk : Nat} {data : List UInt8} (covers : data.length ≤ 16 * nblk) :
    ((toBlocks nblk data).flatMap Block.bytes).take data.length = data := by
  induction nblk generalizing data with
  | zero =>
    have empty : data = [] := List.length_eq_zero_iff.mp (by omega)
    subst empty
    rfl
  | succ nblk ih =>
    have rest : (data.drop 16).length ≤ 16 * nblk := by
      rw [List.length_drop]
      omega
    have tail := ih rest
    simp only [toBlocks, List.flatMap_cons, List.take_append, Block.length_bytes]
    rw [List.length_drop] at tail
    rw [tail]
    apply List.ext_getElem
    · simp only [List.length_append, List.length_take, Block.length_bytes, List.length_drop]
      omega
    · intro i inside bound
      by_cases head : i < 16
      · rw [List.getElem_append_left (by simp [head, bound])]
        simp [Block.bytes, Block.ofBytes, ofBytes, bound]
      · have beyond : ((Block.ofBytes data).bytes.take data.length).length ≤ i := by
          simp only [List.length_take, Block.length_bytes]
          omega
        have sixteen : min data.length 16 = 16 := by omega
        rw [List.getElem_append_right beyond]
        simp only [List.length_take, Block.length_bytes, sixteen, List.getElem_drop]
        congr 1
        omega

/-- A blob that a vector can hold arrives unchanged. -/
theorem receives_blob {data : List UInt8} (fits : data.length < vectorLimit) :
    recvBlob.Receives (sendBlob data) data := by
  have size : (UInt64.ofNat data.length).toNat = data.length :=
    UInt64.toNat_ofNat_of_lt' (lt_trans fits (by norm_num [vectorLimit]))
  have blocks : ((UInt64.ofNat data.length + 15) / 16).toNat = (data.length + 15) / 16 := by
    simp only [vectorLimit] at fits
    rw [UInt64.toNat_div, UInt64.toNat_add, size]
    simp only [UInt64.reduceToNat]
    omega
  have covered : data.length ≤ 16 * ((data.length + 15) / 16) := by omega
  have loop := Inbox.Receives.repeated (toBlocks ((data.length + 15) / 16) data)
    fun b _ => receives_block b
  rw [length_toBlocks, ← List.map_eq_flatMap] at loop
  apply (receives_u64 _).bind
  dsimp only
  rw [size, blocks, if_neg (Nat.not_le_of_lt fits), ← List.append_nil (List.map _ _)]
  apply loop.bind
  rw [take_toBlocks covered]
  exact Inbox.Receives.pure data

/-! ## Sequences of sends -/

/-- What one call of `send_u64` or `send_blob` carries. -/
inductive Frame where
  | u64 (x : UInt64)
  | blob (data : List UInt8)
deriving DecidableEq, Repr

/-- The two receiving calls. -/
inductive FrameKind where
  | u64
  | blob
deriving DecidableEq, Repr

/-- Which call receives a frame. -/
def Frame.kind : Frame → FrameKind
  | .u64 _ => .u64
  | .blob _ => .blob

/-- What is sent for a frame. -/
def Frame.packets : Frame → List Packet
  | .u64 x => sendU64 x
  | .blob data => sendBlob data

/-- The payload is no more than a vector holds. -/
def Frame.Fits : Frame → Prop
  | .u64 _ => True
  | .blob data => data.length < vectorLimit

/-- The call that receives a frame of the given kind. -/
def recvFrame : FrameKind → Inbox Packet Frame
  | .u64 => .u64 <$> recvU64
  | .blob => .blob <$> recvBlob

/-- One receiving call after the other. -/
def recvFrames : List FrameKind → Inbox Packet (List Frame)
  | [] => return []
  | kind :: kinds => do
    let frame ← recvFrame kind
    let frames ← recvFrames kinds
    return frame :: frames

/-- A frame is received as it was sent. -/
theorem receives_frame {frame : Frame} (fits : frame.Fits) :
    (recvFrame frame.kind).Receives frame.packets frame := by
  cases frame with
  | u64 x => exact (receives_u64 x).map Frame.u64
  | blob data => exact (receives_blob fits).map Frame.blob

/-- Calls in the order of the sends return what was sent and leave the channel
where the sends ended. -/
theorem recvFrames_aligned (frames : List Frame) (fits : ∀ frame ∈ frames, frame.Fits)
    (rest : List Packet) :
    recvFrames (frames.map Frame.kind) (frames.flatMap Frame.packets ++ rest) =
      .ok (frames, rest) := by
  induction frames with
  | nil => rfl
  | cons frame frames ih =>
    have later := ih fun other member => fits other (List.mem_cons_of_mem _ member)
    have head := receives_frame (fits frame List.mem_cons_self)
    rw [List.map_cons, List.flatMap_cons, List.append_assoc]
    unfold recvFrames
    rw [head.bind_apply]
    change (recvFrames (frames.map Frame.kind) _ >>= fun pair => _) = _
    rw [later]
    rfl

/-- An empty blob, a number and a blob that is no multiple of a block. -/
theorem three_frames_aligned :
    recvFrames [.blob, .u64, .blob] (sendBlob [] ++ (sendU64 7 ++ sendBlob [1, 2, 3])) =
      .ok ([.blob [], .u64 7, .blob [1, 2, 3]], []) := by
  have received := recvFrames_aligned [.blob [], .u64 7, .blob [1, 2, 3]] (fun frame member => by
    simp only [List.mem_cons, List.not_mem_nil, or_false] at member
    rcases member with rfl | rfl | rfl
    · norm_num [Frame.Fits, vectorLimit]
    · trivial
    · norm_num [Frame.Fits, vectorLimit]) []
  exact received

end SimpleOprf.VoprfE2e
