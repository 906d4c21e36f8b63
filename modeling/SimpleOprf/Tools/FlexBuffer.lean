import SimpleOprf.Basis.Reader
import SimpleOprf.Basis.RingBuffer

/-!
# The store for received messages

The evaluator that runs at once stores every batch of gates before it evaluates
any. `ReceivedMsgStore` keeps one message in memory and the others in files, and
returns to memory when the files have been read.

`Holds` relates a store to the messages in it, in the order of their arrival:
those in the ring first, then those in the files. Every call keeps it, so the
store is a queue.
-/

namespace SimpleOprf.Tools

open SimpleOprf.Basis

/-- A message: its allocation, of which `len` bytes are in use, and the distance
of the read pointer from the front. -/
structure ReceivedMsg where
  buf : List UInt8
  len : UInt64
  ptr : UInt64
  fits : len.toNat ≤ buf.length

namespace ReceivedMsg

/-- What `FlexBuffer::reset` leaves. -/
def vacant : ReceivedMsg := ⟨[], 0, 0, Nat.le_refl 0⟩

/-- The bytes of a message: the buffer may be longer. -/
def content (msg : ReceivedMsg) : List UInt8 := msg.buf.take msg.len.toNat

/-- The bytes of a new allocation are written before they are read. -/
def resize (msg : ReceivedMsg) (newLen : UInt64) : ReceivedMsg :=
  if large : msg.buf.length < newLen.toNat then
    ⟨List.replicate newLen.toNat 0, newLen, 0, Nat.le_of_eq List.length_replicate.symm⟩
  else
    ⟨msg.buf, newLen, 0, Nat.le_of_not_lt large⟩

/-- `fread` into the front of the allocation. -/
def fread (msg : ReceivedMsg) (data : List UInt8) : ReceivedMsg where
  buf := data ++ msg.buf.drop data.length
  len := msg.len
  ptr := msg.ptr
  fits := by
    have old := msg.fits
    rw [List.length_append, List.length_drop]
    omega

end ReceivedMsg

/-- A file of the store: length, read position, content. -/
def writeFile (msg : ReceivedMsg) : List UInt8 :=
  le64 msg.len ++ (le64 msg.ptr ++ if msg.len ≠ 0 then msg.content else [])

/-- Read a file into a message that may have an allocation of its own. -/
def readFile (msg : ReceivedMsg) : Reader ReceivedMsg := do
  let len ← Reader.word (.thrown "can't read length")
  let ptr ← Reader.word (.thrown "can't read length")
  let msg := { msg.resize len with ptr }
  if len ≠ 0 then
    let data ← Reader.bytes (.thrown "can't read data") len.toNat
    return msg.fread data
  else
    return msg

/-- The constant `N`. -/
def memSlots : Nat := 1

/-- The memory slots, and the content of the files that the deque names. -/
structure ReceivedMsgStore where
  mem : RingBuffer ReceivedMsg memSlots
  files : List (List UInt8)

namespace ReceivedMsgStore

/-- An empty store without files. -/
def new : ReceivedMsgStore where
  mem := ⟨fun _ => .vacant, 0, 0, Nat.one_pos, Nat.zero_le _⟩
  files := []

/-- Moving a message to memory leaves the caller's one vacant. -/
def push (store : ReceivedMsgStore) (msg : ReceivedMsg) :
    Outcome (ReceivedMsg × ReceivedMsgStore) :=
  if room : store.mem.size ≠ memSlots ∧ store.files = [] then
    .ok (.vacant, { store with
      mem := store.mem.push msg (Nat.lt_of_le_of_ne store.mem.fits room.1) })
  else
    .ok (msg, { store with files := store.files ++ [writeFile msg] })

/-- `ReceivedMsgStore::pop`. Once the ring is empty, the oldest file is read into it. -/
def pop (store : ReceivedMsgStore) (msg : ReceivedMsg) :
    Outcome (Bool × ReceivedMsg × ReceivedMsgStore) :=
  if store.mem.size ≠ 0 then
    let (front, mem) := store.mem.pop .vacant
    .ok (true, front, { store with mem })
  else
    match store.files with
    | file :: files => do
      let msg ← (readFile msg).parse file
      .ok (true, msg, { store with files })
    | [] => .ok (false, msg, store)

/-- The store as a queue of messages. -/
def operations : Store ReceivedMsgStore ReceivedMsg := ⟨push, pop⟩

end ReceivedMsgStore

/-! ## What is kept of a message -/

/-- A message as its receiver sees it. -/
@[ext] structure Message where
  content : List UInt8
  position : UInt64
  sized : content.length < 2 ^ 64

/-- What is written to a file for a message. -/
def Message.file (message : Message) : List UInt8 :=
  le64 (UInt64.ofNat message.content.length) ++ (le64 message.position ++ message.content)

namespace ReceivedMsg

theorem length_content (msg : ReceivedMsg) : msg.content.length = msg.len.toNat := by
  rw [content, List.length_take, Nat.min_eq_left msg.fits]

/-- The message that a buffer holds. -/
def view (msg : ReceivedMsg) : Message where
  content := msg.content
  position := msg.ptr
  sized := by
    rw [length_content]
    exact msg.len.toNat_lt

/-- Only the message is written. -/
theorem file_view (msg : ReceivedMsg) : writeFile msg = msg.view.file := by
  have written : (if msg.len ≠ 0 then msg.content else []) = msg.content := by
    split
    · rfl
    · next zero =>
      have empty : msg.content.length = 0 := by
        rw [length_content, not_not.mp zero]
        rfl
      exact (List.length_eq_zero_iff.mp empty).symm
  rw [writeFile, written, Message.file]
  simp only [view, length_content, UInt64.ofNat_toNat]

@[simp] theorem len_resize (msg : ReceivedMsg) (newLen : UInt64) :
    (msg.resize newLen).len = newLen := by
  unfold resize
  split <;> rfl

end ReceivedMsg

/-- Reading back the file of a message gives the message. -/
theorem readFile_file (into : ReceivedMsg) (message : Message) :
    ∃ msg, (readFile into).parse message.file = .ok msg ∧ msg.view = message := by
  obtain ⟨content, position, sized⟩ := message
  let len := UInt64.ofNat content.length
  have width : len.toNat = content.length := UInt64.toNat_ofNat_of_lt' sized
  let msg := ({ into.resize len with ptr := position } : ReceivedMsg)
  have parses : ∀ result : ReceivedMsg, Reader.Reads (if len ≠ 0 then do
        let data ← Reader.bytes (.thrown "can't read data") len.toNat
        return msg.fread data
      else return msg) content result →
      (readFile into).parse (le64 len ++ (le64 position ++ content)) = .ok result := fun _ reads =>
    ((Reader.reads_word _ len).bind ((Reader.reads_word _ position).bind reads)).parse_eq
  by_cases empty : len = 0
  · have nothing : content = [] := by
      rw [empty] at width
      exact List.length_eq_zero_iff.mp width.symm
    refine ⟨msg, parses msg ?_, ?_⟩
    · rw [if_neg (not_not.mpr empty), nothing]
      exact Reader.Reads.pure msg
    · apply Message.ext
      · change msg.buf.take (into.resize len).len.toNat = content
        rw [ReceivedMsg.len_resize, width, nothing]
        rfl
      · rfl
  · refine ⟨msg.fread content, parses _ ?_, ?_⟩
    · rw [if_pos empty]
      have reads : Reader.Reads (do
          let data ← Reader.bytes (.thrown "can't read data") len.toNat
          return msg.fread data) (content ++ []) (msg.fread content) :=
        (Reader.reads_bytes _ width.symm).bind (Reader.Reads.pure (msg.fread content))
      rwa [List.append_nil] at reads
    · apply Message.ext
      · change (content ++ _).take (into.resize len).len.toNat = content
        rw [ReceivedMsg.len_resize, width, List.take_left]
      · rfl

/-! ## The queue -/

namespace ReceivedMsgStore

/-- The store holds the messages in memory, then those in the files. -/
def Holds (store : ReceivedMsgStore) (queue : List Message) : Prop :=
  ∃ disk, store.files = disk.map Message.file ∧
    queue = store.mem.contents.map ReceivedMsg.view ++ disk

/-- A message goes to memory only when no file waits, so memory is always older
than the files. -/
theorem holds_push {store : ReceivedMsgStore} {queue : List Message} (msg : ReceivedMsg)
    (held : store.Holds queue) : ∃ left next, store.push msg = .ok (left, next) ∧
      next.Holds (queue ++ [msg.view]) := by
  obtain ⟨disk, files, rfl⟩ := held
  unfold push
  split
  · next room =>
    have noFile : disk = [] := by
      rw [room.2] at files
      exact List.map_eq_nil_iff.mp files.symm
    refine ⟨_, _, rfl, [], room.2, ?_⟩
    rw [RingBuffer.contents_push, noFile, List.map_append, List.append_nil, List.append_nil]
    rfl
  · refine ⟨_, _, rfl, disk ++ [msg.view], ?_, (List.append_assoc _ _ _)⟩
    rw [files, ReceivedMsg.file_view, List.map_append, List.map_singleton]

theorem holds_pop_nil {store : ReceivedMsgStore} (into : ReceivedMsg) (held : store.Holds []) :
    store.pop into = .ok (false, into, store) := by
  obtain ⟨disk, files, empty⟩ := held
  obtain ⟨memory, noFile⟩ := List.append_eq_nil_iff.mp empty.symm
  have vacant : store.mem.size = 0 :=
    store.mem.contents_eq_nil.mp (List.map_eq_nil_iff.mp memory)
  rw [noFile] at files
  rw [pop, if_neg (not_not.mpr vacant), files]
  rfl

theorem holds_pop_cons {store : ReceivedMsgStore} {front : Message} {queue : List Message}
    (into : ReceivedMsg) (held : store.Holds (front :: queue)) :
    ∃ m next, store.pop into = .ok (true, m, next) ∧ m.view = front ∧ next.Holds queue := by
  obtain ⟨disk, files, order⟩ := held
  by_cases memory : store.mem.size = 0
  · have noMemory := store.mem.contents_eq_nil.mpr memory
    rw [noMemory, List.map_nil, List.nil_append] at order
    obtain ⟨m, read, same⟩ := readFile_file into front
    subst order
    refine ⟨m, { store with files := queue.map Message.file }, ?_, same, queue, rfl, ?_⟩
    · rw [pop, if_neg (not_not.mpr memory), files, List.map_cons]
      dsimp only
      rw [read]
      rfl
    · rw [noMemory]
      rfl
  · rw [store.mem.contents_pop .vacant memory, List.map_cons, List.cons_append] at order
    obtain ⟨same, later⟩ := List.cons.inj order
    refine ⟨_, _, if_pos memory, same.symm, disk, files, later⟩

/-- The operations are those of a queue. -/
theorem isQueue : operations.IsQueue ReceivedMsg.view Holds where
  push _ _ msg held := holds_push msg held
  pop_nil store into held := ⟨into, store, holds_pop_nil into held, held⟩
  pop_cons _ _ _ into held := holds_pop_cons into held

/-- A new store holds nothing. -/
theorem holds_new : new.Holds [] := ⟨[], rfl, rfl⟩

/-- Over any sequence of calls the store is a queue: the pops return the pushed
messages in order, each with its content and read position, and one more pop
fails exactly when everything pushed has been popped. -/
theorem store_is_fifo (calls : List (Call ReceivedMsg)) :
    ∃ (popped : List ReceivedMsg) (store : ReceivedMsgStore),
      operations.run calls new = .ok (popped, store) ∧
      (∀ (k : Nat) (m : ReceivedMsg), popped[k]? = some m → ∃ sent : ReceivedMsg,
        (Store.pushed calls)[k]? = some sent ∧ m.content = sent.content ∧ m.ptr = sent.ptr) ∧
      ∀ into, ∃ found m next, store.pop into = .ok (found, m, next) ∧
        (found = false ↔ popped.length = (Store.pushed calls).length) := by
  obtain ⟨popped, store, queue, ran, held, order⟩ := isQueue.run calls holds_new
  rw [List.nil_append] at order
  have count : (Store.pushed calls).length = popped.length + queue.length := by
    have lengths := congrArg List.length order
    rwa [List.length_append, List.length_map, List.length_map] at lengths
  refine ⟨popped, store, ran, ?_, ?_⟩
  · intro k m found
    have inside : k < popped.length := (List.getElem?_eq_some_iff.mp found).1
    have entry : ((Store.pushed calls).map ReceivedMsg.view)[k]? = some m.view := by
      rw [order, List.getElem?_append_left (by rwa [List.length_map]), List.getElem?_map, found]
      rfl
    rw [List.getElem?_map] at entry
    obtain ⟨sent, pushed, same⟩ := Option.map_eq_some_iff.mp entry
    exact ⟨sent, pushed, congrArg Message.content same.symm, congrArg Message.position same.symm⟩
  · intro into
    cases queue with
    | nil =>
      refine ⟨false, into, store, holds_pop_nil into held, iff_of_true rfl ?_⟩
      rw [count, List.length_nil, Nat.add_zero]
    | cons front queue =>
      obtain ⟨m, next, ran, -, -⟩ := holds_pop_cons into held
      refine ⟨true, m, next, ran, iff_of_false (by decide) ?_⟩
      rw [count, List.length_cons]
      omega

end ReceivedMsgStore

end SimpleOprf.Tools
