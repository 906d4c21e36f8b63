import SimpleOprf.Basis.LittleEndian

/-!
# Bit packing in an octet stream

Bits are collected in a byte beside the stream that the next aligned write
flushes. `reset_write_head` forgets how many bits are waiting, but not the bits.

`Follows` keeps a reading stream level with the writing one. What is read back
is what was written exactly when no stale bit of an earlier round is left under
a new one.
-/

namespace SimpleOprf.Tools

open SimpleOprf.Basis

/-- `BitBuffer`: a byte and the number of bits in use. -/
structure BitBuffer where
  n : Nat
  buffer : UInt8
deriving DecidableEq

/-- The bytes below the write head, the read head, and the buffers for writing
and for reading bits. -/
structure OctetStream where
  data : List UInt8
  ptr : Nat
  bits0 : BitBuffer
  bits1 : BitBuffer
deriving DecidableEq

namespace OctetStream

/-- An empty stream. -/
def new : OctetStream := ⟨[], 0, ⟨0, 0⟩, ⟨0, 0⟩⟩

/-- `reset_read_head`. -/
def resetReadHead (s : OctetStream) : OctetStream :=
  { s with ptr := 0, bits1 := { s.bits1 with n := 0 } }

/-- `reset_write_head`. The buffer of the bits keeps its byte. -/
def resetWriteHead (s : OctetStream) : OctetStream :=
  { s with data := [], bits0 := { s.bits0 with n := 0 } }.resetReadHead

/-- Make room for some bytes and write them. -/
def append (s : OctetStream) (x : List UInt8) : OctetStream :=
  let s := if s.bits0.n ≠ 0 then { s with data := s.data ++ [s.bits0.buffer], bits0 := ⟨0, 0⟩ } else s
  { s with data := s.data ++ x }

/-- The `nBytes` low bytes of a number. The variant that checks its argument
throws where it does not do the same. -/
def storeInt (s : OctetStream) (nBytes : Nat) (l : UInt64) : OctetStream :=
  s.append (leBytes nBytes l.toNat)

/-- `store_bit`, which flushes a full byte first. -/
def storeBit (s : OctetStream) (a : UInt8) : OctetStream :=
  let s := if s.bits0.n = 8 then s.append [] else s
  { s with bits0 :=
    ⟨s.bits0.n + 1, s.bits0.buffer ||| ((a &&& 1) <<< UInt8.ofNat s.bits0.n)⟩ }

/-- `consume`: the next bytes, or an exception when there are fewer. -/
def consume (s : OctetStream) (l : Nat) : Outcome (List UInt8 × OctetStream) :=
  if s.ptr + l > s.data.length then .error (.thrown "insufficient data")
  else .ok ((s.data.drop s.ptr).take l,
    { s with ptr := s.ptr + l, bits1 := { s.bits1 with n := 0 } })

/-- `get_int`. -/
def getInt (s : OctetStream) (nBytes : Nat) : Outcome (UInt64 × OctetStream) := do
  let (bytes, s) ← s.consume nBytes
  return (UInt64.ofNat (ofLe bytes), s)

/-- Bit `i` of a byte. -/
def bitAt (x : UInt8) (i : Nat) : UInt8 := (x >>> UInt8.ofNat i) &&& 1

/-- `get_bit`, which takes a byte whenever its own is used up. -/
def getBit (s : OctetStream) : Outcome (UInt8 × OctetStream) := do
  let s ←
    if s.bits1.n = 0 then do
      let (byte, s) ← s.getInt 1
      pure { s with bits1 := ⟨8, UInt8.ofNat byte.toNat⟩ }
    else pure s
  return (bitAt s.bits1.buffer (8 - s.bits1.n), { s with bits1 := { s.bits1 with n := s.bits1.n - 1 } })

end OctetStream

/-! ## Sequences of calls -/

/-- A write that is aligned to bytes. -/
inductive ByteWrite where
  | bytes (x : List UInt8)
  | int (l : UInt64) (nBytes : Fin 9)

/-- One call that stores. -/
inductive Write where
  | bit (a : UInt8)
  | aligned (w : ByteWrite)

/-- What a read returns. -/
inductive ReadValue where
  | bit (a : UInt8)
  | bytes (x : List UInt8)
  | int (l : UInt64)
deriving DecidableEq

/-- The bytes that a call stores. -/
def ByteWrite.content : ByteWrite → List UInt8
  | bytes x => x
  | int l nBytes => leBytes nBytes l.toNat

namespace OctetStream

/-- The stream after a call. -/
def write (s : OctetStream) : Write → OctetStream
  | .bit a => s.storeBit a
  | .aligned (.bytes x) => s.append x
  | .aligned (.int l nBytes) => s.storeInt nBytes l

/-- The stream after a list of calls. -/
def writes (s : OctetStream) (ws : List Write) : OctetStream := ws.foldl write s

/-- The read that matches a write. -/
def read (s : OctetStream) : Write → Outcome (ReadValue × OctetStream)
  | .bit _ => do
    let (a, s) ← s.getBit
    return (.bit a, s)
  | .aligned (.bytes x) => do
    let (bytes, s) ← s.consume x.length
    return (.bytes bytes, s)
  | .aligned (.int _ nBytes) => do
    let (l, s) ← s.getInt nBytes
    return (.int l, s)

/-- The values that the matching calls read, in order. -/
def reads (s : OctetStream) : List Write → Outcome (List ReadValue × OctetStream)
  | [] => .ok ([], s)
  | w :: ws => do
    let (value, s) ← s.read w
    let (values, s) ← s.reads ws
    return (value :: values, s)

/-- The stream after some runs of writes that each end in a `reset_write_head`. -/
def afterResets (earlier : List (List Write)) : OctetStream :=
  earlier.foldl (fun s ws => (s.writes ws).resetWriteHead) new

end OctetStream

/-- What the matching read should return. -/
def Write.value : Write → ReadValue
  | .bit a => .bit (a &&& 1)
  | .aligned (.bytes x) => .bytes x
  | .aligned (.int l nBytes) => .int (UInt64.ofNat (l.toNat % 256 ^ nBytes.val))

/-- The writes after the last reset read back, and nothing is left. -/
def ReadsBack (earlier : List (List Write)) (last : List Write) : Prop :=
  ∃ s, ((OctetStream.afterResets earlier).writes last).reads last = .ok (last.map Write.value, s) ∧
    s.ptr = s.data.length

/-! ## Groups of bits -/

/-- The bits that wait after some writes. -/
def pending (ws : List Write) : List UInt8 :=
  ws.foldl (fun group w => match w with
    | .bit a => if group.length = 8 then [a] else group ++ [a]
    | .aligned _ => []) []

/-- All bits of some writes. -/
def bitsOf (ws : List Write) : List UInt8 :=
  ws.filterMap fun w => match w with
    | .bit a => some a
    | .aligned _ => none

/-- The groups that resets left in the byte: those since the last writes of
which some bits were flushed. -/
def abandoned (earlier : List (List Write)) : List (List UInt8) :=
  earlier.foldl (fun groups ws =>
    if pending ws = bitsOf ws then groups ++ [pending ws] else [pending ws]) []

/-- Up to `k` bits at the front. -/
def takeBits : Nat → List Write → List UInt8
  | k + 1, .bit a :: ws => a :: takeBits k ws
  | _, _ => []

/-- The first bits that share a byte. -/
def firstGroup : List Write → List UInt8
  | .aligned _ :: ws => firstGroup ws
  | ws => takeBits 8 ws

/-- A one left in the byte meets a zero of the first group. -/
def Clobbered (earlier : List (List Write)) (last : List Write) : Prop :=
  ∃ group ∈ abandoned earlier, ∃ (p : Nat) (stale a : UInt8), group[p]? = some stale ∧
    (firstGroup last)[p]? = some a ∧ stale &&& 1 = 1 ∧ a &&& 1 = 0

/-! ## Bits of a byte -/

namespace OctetStream

/-- A lowest bit is a zero or a one. -/
theorem low_cases (x : UInt8) : x &&& 1 = 0 ∨ x &&& 1 = 1 := by
  have value : (x &&& 1).toNat = x.toNat % 2 := by
    rw [UInt8.toNat_and]
    exact Nat.and_one_is_mod _
  rcases Nat.mod_two_eq_zero_or_one x.toNat with even | odd
  · exact .inl (UInt8.toNat_inj.mp (value.trans even))
  · exact .inr (UInt8.toNat_inj.mp (value.trans odd))

/-- So is any bit. -/
theorem bitAt_cases (x : UInt8) (i : Nat) : bitAt x i = 0 ∨ bitAt x i = 1 :=
  low_cases _

/-- The bits of a disjunction. -/
theorem bitAt_or (x y : UInt8) (i : Nat) : bitAt (x ||| y) i = bitAt x i ||| bitAt y i := by
  have low : ∀ a b : UInt8, (a ||| b) &&& 1 = (a &&& 1) ||| (b &&& 1) := by
    intro a b
    apply UInt8.toBitVec_inj.mp
    ext i
    simp [Bool.and_or_distrib_right]
  rw [bitAt, bitAt, bitAt, UInt8.shiftRight_or, low]

theorem bitAt_zero (i : Nat) : bitAt 0 i = 0 := by
  rw [bitAt, UInt8.zero_shiftRight, UInt8.zero_and]

/-- A bit that is shifted to place `n` is there and nowhere else. -/
theorem bitAt_shift (a : UInt8) {n i : Nat} (inside : n < 8) (bound : i < 8) :
    bitAt ((a &&& 1) <<< UInt8.ofNat n) i = if i = n then a &&& 1 else 0 := by
  have places : ∀ n i : Fin 8, bitAt (1 <<< UInt8.ofNat n.val) i.val = if i = n then 1 else 0 := by
    decide +kernel
  rcases low_cases a with zero | one
  · rw [zero, UInt8.zero_shiftLeft, bitAt_zero, ite_self]
  · rw [one, places ⟨n, inside⟩ ⟨i, bound⟩]
    simp only [Fin.mk.injEq]

/-- A disjunction of bits is one when one of them is. -/
theorem or_eq_one {x y : UInt8} (left : x = 0 ∨ x = 1) (right : y = 0 ∨ y = 1) :
    x ||| y = 1 ↔ x = 1 ∨ y = 1 := by
  rcases left with rfl | rfl <;> rcases right with rfl | rfl <;> decide

/-- A bit comes out as it went in unless a one already stands in its place. -/
theorem or_eq_right {x y : UInt8} (left : x = 0 ∨ x = 1) (right : y = 0 ∨ y = 1) :
    x ||| y = y ↔ (x = 1 → y = 1) := by
  rcases left with rfl | rfl <;> rcases right with rfl | rfl <;> decide

/-! ## The writer -/

/-- A call that stores bytes appends them. -/
theorem write_aligned (t : OctetStream) (w : ByteWrite) :
    t.write (.aligned w) = t.append w.content := by
  cases w <;> rfl

theorem append_of_zero {t : OctetStream} (x : List UInt8) (none : t.bits0.n = 0) :
    t.append x = { t with data := t.data ++ x } := by
  simp only [append, none, ne_eq, not_true_eq_false, if_false]

theorem append_of_ne {t : OctetStream} (x : List UInt8) (some : t.bits0.n ≠ 0) :
    t.append x = { t with data := t.data ++ t.bits0.buffer :: x, bits0 := ⟨0, 0⟩ } := by
  simp only [append, some, ne_eq, not_false_eq_true, if_true, List.append_assoc,
    List.singleton_append]

/-- A bit that still fits goes into the pending byte. -/
theorem storeBit_of_lt {t : OctetStream} (a : UInt8) (room : t.bits0.n < 8) :
    t.storeBit a = { t with bits0 :=
      ⟨t.bits0.n + 1, t.bits0.buffer ||| ((a &&& 1) <<< UInt8.ofNat t.bits0.n)⟩ } := by
  rw [storeBit, if_neg (Nat.ne_of_lt room)]

/-- A ninth bit starts a new byte. -/
theorem storeBit_of_full {t : OctetStream} (a : UInt8) (full : t.bits0.n = 8) :
    t.storeBit a = (t.append []).storeBit a := by
  have emptied : (t.append []).bits0.n = 0 := by
    rw [append_of_ne [] (by omega)]
  rw [storeBit, if_pos full, storeBit, if_neg (by omega)]

/-- The bits of the buffer after one more bit. -/
theorem bitAt_storeBit {t : OctetStream} (a : UInt8) (room : t.bits0.n < 8) {i : Nat}
    (inside : i < 8) : bitAt (t.storeBit a).bits0.buffer i =
      bitAt t.bits0.buffer i ||| if i = t.bits0.n then a &&& 1 else 0 := by
  rw [storeBit_of_lt a room, bitAt_or, bitAt_shift a room inside]

/-- Behind an aligned write no bit waits. -/
theorem bits0_append (t : OctetStream) (x : List UInt8) :
    (t.append x).bits0 = ⟨0, if t.bits0.n = 0 then t.bits0.buffer else 0⟩ := by
  split
  · next idle =>
    rw [append_of_zero x idle, ← idle]
  · next waiting => rw [append_of_ne x waiting]

/-- Writing keeps the bytes already written. -/
theorem data_append (t : OctetStream) (x : List UInt8) : ∃ tail, (t.append x).data = t.data ++ tail := by
  by_cases none : t.bits0.n = 0
  · rw [append_of_zero x none]
    exact ⟨x, rfl⟩
  · rw [append_of_ne x none]
    exact ⟨t.bits0.buffer :: x, rfl⟩

/-- A call only appends. -/
theorem data_write (t : OctetStream) (w : Write) : ∃ tail, (t.write w).data = t.data ++ tail := by
  cases w with
  | aligned w =>
    rw [write_aligned]
    exact t.data_append w.content
  | bit a =>
    change ∃ tail, (t.storeBit a).data = _
    unfold storeBit
    split
    · exact t.data_append []
    · exact ⟨[], (List.append_nil _).symm⟩

/-- So does a list of calls. -/
theorem data_writes (t : OctetStream) (ws : List Write) :
    ∃ tail, (t.writes ws).data = t.data ++ tail := by
  induction ws generalizing t with
  | nil => exact ⟨[], (List.append_nil _).symm⟩
  | cons w ws ih =>
    obtain ⟨first, written⟩ := t.data_write w
    obtain ⟨tail, later⟩ := ih (t.write w)
    refine ⟨first ++ tail, ?_⟩
    rw [← List.append_assoc, ← written, ← later]
    rfl

/-- An aligned write flushes the waiting bits first. -/
theorem data_append_writes {t : OctetStream} (waiting : t.bits0.n ≠ 0) (x : List UInt8)
    (later : List Write) : ∃ tail,
    ((t.append x).writes later).data = t.data ++ t.bits0.buffer :: tail := by
  obtain ⟨tail, written⟩ := (t.append x).data_writes later
  refine ⟨x ++ tail, ?_⟩
  rw [written, append_of_ne x waiting, List.append_assoc, List.cons_append]

/-- The byte that waiting bits end up in. The bits already there stay. -/
theorem flushed_byte {t : OctetStream} (ws : List Write) (final : ByteWrite)
    (waiting : t.bits0.n ≠ 0) (bound : t.bits0.n ≤ 8) :
    ∃ b tail, (t.writes (ws ++ [.aligned final])).data = t.data ++ b :: tail ∧
      ∀ i < t.bits0.n, bitAt b i = bitAt t.bits0.buffer i := by
  induction ws generalizing t with
  | nil =>
    obtain ⟨tail, written⟩ := data_append_writes waiting final.content []
    refine ⟨_, tail, ?_, fun _ _ => rfl⟩
    rw [← written, ← write_aligned]
    rfl
  | cons w ws ih =>
    cases w with
    | aligned w =>
      obtain ⟨tail, written⟩ := data_append_writes waiting w.content (ws ++ [.aligned final])
      refine ⟨_, tail, ?_, fun _ _ => rfl⟩
      rw [← written, ← write_aligned]
      rfl
    | bit a =>
      change ∃ b tail, ((t.storeBit a).writes (ws ++ [.aligned final])).data = _ ∧ _
      by_cases full : t.bits0.n = 8
      · obtain ⟨tail, written⟩ :=
          data_append_writes waiting [] (.bit a :: (ws ++ [.aligned final]))
        rw [storeBit_of_full a full]
        exact ⟨_, tail, written, fun _ _ => rfl⟩
      · have room : t.bits0.n < 8 := Nat.lt_of_le_of_ne bound full
        have more : (t.storeBit a).bits0.n = t.bits0.n + 1 := by rw [storeBit_of_lt a room]
        have same : (t.storeBit a).data = t.data := by rw [storeBit_of_lt a room]
        obtain ⟨b, tail, written, kept⟩ := ih (t := t.storeBit a) (by omega) (by omega)
        refine ⟨b, tail, ?_, ?_⟩
        · rw [written, same]
        · intro i below
          rw [kept i (by omega), bitAt_storeBit a room (by omega), if_neg (Nat.ne_of_lt below),
            UInt8.or_zero]

/-! ## The reader -/

/-- The reader stands where the writer stood: behind the byte of the bits that
were waiting, with as many bits left as were still to come. -/
structure Follows (t r : OctetStream) : Prop where
  idle : t.bits0.n = 0 → r.ptr = t.data.length ∧ r.bits1.n = 0
  waiting : t.bits0.n ≠ 0 → r.ptr = t.data.length + 1 ∧ r.bits1.n = 8 - t.bits0.n ∧
    r.data[t.data.length]? = some r.bits1.buffer

/-- What `consume` returns in front of the given bytes. -/
theorem consume_eq {r : OctetStream} {before x after : List UInt8}
    (written : r.data = before ++ (x ++ after)) (stands : r.ptr = before.length) :
    r.consume x.length =
      .ok (x, { r with ptr := r.ptr + x.length, bits1 := { r.bits1 with n := 0 } }) := by
  have available : ¬r.ptr + x.length > r.data.length := by
    rw [written, stands, List.length_append, List.length_append]
    omega
  rw [consume, if_neg available, written, stands, List.drop_left, List.take_left]

/-- A full byte buffer flushed by a bit is flushed by an empty write too. -/
theorem Follows.flush {t r : OctetStream} (follows : Follows t r) (full : t.bits0.n = 8) :
    Follows (t.append []) r := by
  obtain ⟨stands, left, -⟩ := follows.waiting (by omega)
  rw [append_of_ne [] (by omega)]
  constructor
  · intro _
    rw [stands, left, full, List.length_append]
    exact ⟨rfl, rfl⟩
  · intro impossible
    exact absurd rfl impossible

/-- Reading a bit of a byte that has room for it. -/
theorem read_bit {t r : OctetStream} {b : UInt8} {tail : List UInt8} (a : UInt8)
    (room : t.bits0.n < 8) (follows : Follows t r) (written : r.data = t.data ++ b :: tail)
    (kept : bitAt b t.bits0.n = bitAt (t.storeBit a).bits0.buffer t.bits0.n) :
    ∃ r', r.read (.bit a) = .ok (.bit (bitAt t.bits0.buffer t.bits0.n ||| (a &&& 1)), r') ∧
      Follows (t.storeBit a) r' ∧ r'.data = r.data := by
  rw [bitAt_storeBit a room room, if_pos rfl] at kept
  have found : r.data[t.data.length]? = some b := by
    rw [written, List.getElem?_append_right (Nat.le_refl _), Nat.sub_self]
    rfl
  rw [storeBit_of_lt a room]
  by_cases idle : t.bits0.n = 0
  · obtain ⟨stands, none⟩ := follows.idle idle
    have taken : r.getInt 1 = .ok (UInt64.ofNat (ofLe [b]),
        { r with ptr := r.ptr + 1, bits1 := { r.bits1 with n := 0 } }) := by
      have consumed : r.consume 1 = .ok ([b],
          { r with ptr := r.ptr + 1, bits1 := { r.bits1 with n := 0 } }) :=
        @consume_eq r t.data [b] tail written stands
      rw [getInt, consumed, Outcome.ok_bind]
      rfl
    have byte : UInt8.ofNat (UInt64.ofNat (ofLe [b])).toNat = b := by
      have small : b.toNat < 2 ^ 64 := Nat.lt_trans b.toNat_lt (by decide)
      rw [ofLe, ofLe, Nat.mul_zero, Nat.add_zero, UInt64.toNat_ofNat_of_lt' small,
        UInt8.ofNat_toNat]
    refine ⟨{ r with ptr := r.ptr + 1, bits1 := ⟨7, b⟩ }, ?_, ?_, rfl⟩
    · rw [← kept, idle, read, getBit, if_pos none, taken, Outcome.ok_bind]
      dsimp only
      rw [byte]
      rfl
    · constructor
      · intro impossible
        exact absurd impossible (Nat.succ_ne_zero _)
      · intro _
        rw [idle, stands]
        exact ⟨rfl, rfl, found⟩
  · obtain ⟨stands, left, buffer⟩ := follows.waiting idle
    have same : r.bits1.buffer = b := Option.some.inj (buffer.symm.trans found)
    have place : 8 - r.bits1.n = t.bits0.n := by omega
    refine ⟨{ r with bits1 := ⟨r.bits1.n - 1, b⟩ }, ?_, ?_, rfl⟩
    · rw [← kept, read, getBit, if_neg (by omega), ← same, ← place]
      rfl
    · constructor
      · intro impossible
        exact absurd impossible (Nat.succ_ne_zero _)
      · intro _
        exact ⟨stands, by rw [left]; rfl, found⟩

/-- Reading what an aligned write has written. -/
theorem read_aligned {t r : OctetStream} {tail : List UInt8} (w : ByteWrite)
    (follows : Follows t r) (written : r.data = (t.append w.content).data ++ tail) :
    ∃ r', r.read (.aligned w) = .ok ((Write.aligned w).value, r') ∧
      Follows (t.append w.content) r' ∧ r'.data = r.data := by
  have flushed : ∃ before, (t.append w.content).data = before ++ w.content ∧
      r.ptr = before.length ∧ (t.append w.content).bits0.n = 0 := by
    by_cases idle : t.bits0.n = 0
    · refine ⟨t.data, ?_, (follows.idle idle).1, ?_⟩
      · rw [append_of_zero _ idle]
      · rw [append_of_zero _ idle]
        exact idle
    · refine ⟨t.data ++ [t.bits0.buffer], ?_, ?_, ?_⟩
      · rw [append_of_ne _ idle, List.append_assoc, List.singleton_append]
      · rw [(follows.waiting idle).1, List.length_append, List.length_singleton]
      · rw [append_of_ne _ idle]
  obtain ⟨before, content, stands, none⟩ := flushed
  rw [content, List.append_assoc] at written
  have taken := consume_eq written stands
  refine ⟨{ r with ptr := r.ptr + w.content.length, bits1 := { r.bits1 with n := 0 } }, ?_, ?_, rfl⟩
  · cases w with
    | bytes x =>
      change (r.consume x.length >>= _) = _
      rw [show r.consume x.length = _ from taken, Outcome.ok_bind]
      rfl
    | int l nBytes =>
      have width : (ByteWrite.int l nBytes).content.length = nBytes.val := length_leBytes _ _
      rw [width] at taken
      change (r.getInt nBytes >>= _) = _
      rw [getInt, taken, Outcome.ok_bind, width]
      dsimp only [ByteWrite.content]
      rw [ofLe_leBytes_mod]
      rfl
  · constructor
    · intro _
      rw [content, List.length_append, stands]
      exact ⟨rfl, rfl⟩
    · intro impossible
      exact absurd none impossible

/-! ## Reading back -/

/-- No one that stands in the buffer, from place `n` on, meets a zero. -/
def Kept (buffer : UInt8) (n : Nat) (group : List UInt8) : Prop :=
  ∀ p a, group[p]? = some a → bitAt buffer (n + p) = 1 → a &&& 1 = 1

theorem kept_nil (buffer : UInt8) (n : Nat) : Kept buffer n [] := by
  intro p a found
  cases found

theorem kept_cons {buffer a : UInt8} {n : Nat} {group : List UInt8} :
    Kept buffer n (a :: group) ↔
      (bitAt buffer n = 1 → a &&& 1 = 1) ∧ Kept buffer (n + 1) group := by
  constructor
  · intro kept
    refine ⟨kept 0 a rfl, fun p b found set => kept (p + 1) b found ?_⟩
    rwa [Nat.add_right_comm] at set
  · rintro ⟨first, later⟩ p b found set
    cases p with
    | zero =>
      cases found
      exact first set
    | succ p => exact later p b found (by rwa [Nat.add_right_comm])

/-- Nothing is kept from being zero by an empty buffer. -/
theorem kept_zero (n : Nat) (group : List UInt8) : Kept 0 n group := by
  intro p a _ set
  rw [bitAt_zero] at set
  exact absurd set (by decide)

/-- The bits that share a byte with those that are waiting. -/
def group (n : Nat) (ws : List Write) : List UInt8 :=
  if n = 0 then firstGroup ws else takeBits (8 - n) ws

@[simp] theorem takeBits_nil (k : Nat) : takeBits k [] = [] := by
  cases k <;> rfl

@[simp] theorem takeBits_aligned (k : Nat) (w : ByteWrite) (ws : List Write) :
    takeBits k (.aligned w :: ws) = [] := by
  cases k <;> rfl

theorem length_takeBits (k : Nat) (ws : List Write) : (takeBits k ws).length ≤ k := by
  fun_induction takeBits k ws with
  | case1 k a ws ih => exact Nat.succ_le_succ ih
  | case2 => exact Nat.zero_le _

/-- A bit joins its group as long as there is room. -/
theorem group_bit {n : Nat} (room : n < 8) (a : UInt8) (ws : List Write) :
    group n (.bit a :: ws) = a :: group (n + 1) ws := by
  have rest : 8 - n = 8 - (n + 1) + 1 := by omega
  have front : takeBits (8 - n) (.bit a :: ws) = a :: takeBits (8 - (n + 1)) ws := by
    rw [rest, takeBits]
  unfold group
  rw [if_neg (Nat.succ_ne_zero n), ← front]
  split
  · next idle =>
    rw [idle]
    rfl
  · rfl

/-- A bit goes into the buffer behind the places that are still to be filled. -/
theorem kept_storeBit {t : OctetStream} (a : UInt8) (ws : List Write) (room : t.bits0.n < 8) :
    Kept (t.storeBit a).bits0.buffer (t.bits0.n + 1) (group (t.bits0.n + 1) ws) ↔
      Kept t.bits0.buffer (t.bits0.n + 1) (group (t.bits0.n + 1) ws) := by
  have short : (group (t.bits0.n + 1) ws).length ≤ 8 - (t.bits0.n + 1) := by
    rw [group, if_neg (Nat.succ_ne_zero _)]
    exact length_takeBits _ ws
  have same : ∀ p a', (group (t.bits0.n + 1) ws)[p]? = some a' →
      bitAt (t.storeBit a).bits0.buffer (t.bits0.n + 1 + p) =
        bitAt t.bits0.buffer (t.bits0.n + 1 + p) := by
    intro p a' found
    have inside := (List.getElem?_eq_some_iff.mp found).1
    rw [bitAt_storeBit a room (by omega), if_neg (by omega), UInt8.or_zero]
  unfold Kept
  constructor
  · intro kept p a' found set
    exact kept p a' found (by rwa [same p a' found])
  · intro kept p a' found set
    exact kept p a' found (by rwa [← same p a' found])

/-- An aligned write ends the group that is waiting, or leaves the buffer as it is. -/
theorem kept_flush (waiting : BitBuffer) (w : ByteWrite) (ws : List Write) :
    Kept (if waiting.n = 0 then waiting.buffer else 0) 0 (group 0 ws) ↔
      Kept waiting.buffer waiting.n (group waiting.n (.aligned w :: ws)) := by
  by_cases idle : waiting.n = 0
  · rw [if_pos idle, idle]
    rfl
  · have ended : group waiting.n (.aligned w :: ws) = [] := by
      rw [group, if_neg idle, takeBits_aligned]
    rw [if_neg idle, ended]
    exact iff_of_true (kept_zero _ _) (kept_nil _ _)

/-- What a reader at `r` gets of the writes that the writer `t` still makes: it
reads them all, and reads the values written exactly if nothing in the buffer is
in the way. -/
def ReadsAlong (t r : OctetStream) (ws : List Write) (final : ByteWrite) : Prop :=
  ∃ values r', r.reads (ws ++ [.aligned final]) = .ok (values, r') ∧
    r'.ptr = r'.data.length ∧
    (values = (ws ++ [Write.aligned final]).map Write.value ↔
      Kept t.bits0.buffer t.bits0.n (group t.bits0.n ws))

section ReadsAlong

variable {ws : List Write} {final : ByteWrite} {t r : OctetStream}

/-- The last call is read back. -/
theorem readsAlong_last (follows : Follows t r) (written : r.data = (t.append final.content).data) :
    ReadsAlong t r [] final := by
  obtain ⟨r', read, behind, same⟩ := read_aligned final follows (by rw [written, List.append_nil])
  refine ⟨[(Write.aligned final).value], r', ?_, ?_, iff_of_true rfl ?_⟩
  · rw [List.nil_append, reads, read, Outcome.ok_bind]
    rfl
  · rw [same, written]
    refine (behind.idle ?_).1
    rw [bits0_append]
  · have empty : group t.bits0.n [] = [] := by
      unfold group
      split
      · exact takeBits_nil 8
      · exact takeBits_nil _
    rw [empty]
    exact kept_nil _ _

/-- A call that stores bytes is read back, and the rest behind it. -/
theorem readsAlong_aligned (w : ByteWrite) (follows : Follows t r)
    (written : r.data = ((t.append w.content).writes (ws ++ [.aligned final])).data)
    (later : ∀ {r'}, Follows (t.append w.content) r' →
      r'.data = ((t.append w.content).writes (ws ++ [.aligned final])).data →
      ReadsAlong (t.append w.content) r' ws final) :
    ReadsAlong t r (.aligned w :: ws) final := by
  obtain ⟨tail, grown⟩ := (t.append w.content).data_writes (ws ++ [.aligned final])
  obtain ⟨r', read, behind, same⟩ := read_aligned w follows (by rw [written, grown])
  obtain ⟨values, last, ran, ended, right⟩ := later behind (by rw [same, written])
  refine ⟨(Write.aligned w).value :: values, last, ?_, ended, ?_⟩
  · rw [List.cons_append, reads, read, Outcome.ok_bind]
    dsimp only
    rw [ran, Outcome.ok_bind]
    rfl
  · rw [List.cons_append, List.map_cons, List.cons.injEq, eq_self_iff_true, true_and, right,
      bits0_append]
    exact kept_flush t.bits0 w ws

/-- A bit is read back, and the rest behind it. -/
theorem readsAlong_bit (a : UInt8) (room : t.bits0.n < 8) (follows : Follows t r)
    (written : r.data = ((t.storeBit a).writes (ws ++ [.aligned final])).data)
    (later : ∀ {r'}, Follows (t.storeBit a) r' →
      r'.data = ((t.storeBit a).writes (ws ++ [.aligned final])).data →
      ReadsAlong (t.storeBit a) r' ws final) :
    ReadsAlong t r (.bit a :: ws) final := by
  have more : (t.storeBit a).bits0.n = t.bits0.n + 1 := by rw [storeBit_of_lt a room]
  have data : (t.storeBit a).data = t.data := by rw [storeBit_of_lt a room]
  obtain ⟨b, tail, flushed, kept⟩ := @flushed_byte (t.storeBit a) ws final (by omega) (by omega)
  obtain ⟨r', read, behind, same⟩ := read_bit a room follows
    (by rw [written, ← data]; exact flushed) (kept _ (by omega))
  obtain ⟨values, last, ran, ended, right⟩ := later behind (by rw [same, written])
  refine ⟨.bit (bitAt t.bits0.buffer t.bits0.n ||| (a &&& 1)) :: values, last, ?_, ended, ?_⟩
  · rw [List.cons_append, reads, read, Outcome.ok_bind]
    dsimp only
    rw [ran, Outcome.ok_bind]
    rfl
  · rw [group_bit room, kept_cons, List.cons_append, List.map_cons, List.cons.injEq, right,
      more, kept_storeBit a ws room]
    refine and_congr_left fun _ => ?_
    rw [← or_eq_right (bitAt_cases _ _) (low_cases a), Write.value, ReadValue.bit.injEq]

/-- A full byte goes out before the next write and is not in its way. -/
theorem readsAlong_full (full : t.bits0.n = 8) (along : ReadsAlong (t.append []) r ws final) :
    ReadsAlong t r ws final := by
  have emptied : (t.append []).bits0 = ⟨0, 0⟩ := by
    rw [bits0_append, if_neg (by omega)]
  obtain ⟨values, last, ran, ended, right⟩ := along
  refine ⟨values, last, ran, ended, iff_of_true (right.mpr ?_) ?_⟩
  · rw [emptied]
    exact kept_zero _ _
  · have none : group 8 ws = [] := List.length_eq_zero_iff.mp (Nat.le_zero.mp (length_takeBits 0 ws))
    rw [full, none]
    exact kept_nil _ _

end ReadsAlong

/-- The reader that follows a writer reads along all its later writes. -/
theorem reads_writes (ws : List Write) (final : ByteWrite) {t r : OctetStream}
    (bound : t.bits0.n ≤ 8) (follows : Follows t r)
    (written : r.data = (t.writes (ws ++ [.aligned final])).data) :
    ReadsAlong t r ws final := by
  induction ws generalizing t r with
  | nil =>
    refine readsAlong_last follows ?_
    rw [written, ← write_aligned]
    rfl
  | cons w ws ih =>
    cases w with
    | aligned w =>
      have next : t.writes (.aligned w :: ws ++ [Write.aligned final]) =
          (t.append w.content).writes (ws ++ [.aligned final]) := by
        rw [← write_aligned]
        rfl
      rw [next] at written
      exact readsAlong_aligned w follows written (ih (by rw [bits0_append]; exact Nat.zero_le 8))
    | bit a =>
      have step : ∀ {t : OctetStream}, t.bits0.n < 8 → (t.storeBit a).bits0.n ≤ 8 := by
        intro t room
        rw [storeBit_of_lt a room]
        exact room
      by_cases full : t.bits0.n = 8
      · have room : (t.append []).bits0.n < 8 := by
          rw [bits0_append]
          exact Nat.zero_lt_succ 7
        have next : t.writes (.bit a :: ws ++ [Write.aligned final]) =
            ((t.append []).storeBit a).writes (ws ++ [.aligned final]) := by
          rw [← storeBit_of_full a full]
          rfl
        rw [next] at written
        exact readsAlong_full full
          (readsAlong_bit a room (follows.flush full) written (ih (step room)))
      · have room : t.bits0.n < 8 := Nat.lt_of_le_of_ne bound full
        exact readsAlong_bit a room follows written (ih (step room))

/-! ## What resets leave behind -/

/-- Bit `p` of a group, or zero behind its end. -/
def bitIn (group : List UInt8) (p : Nat) : UInt8 := group.getD p 0 &&& 1

@[simp] theorem bitIn_nil (p : Nat) : bitIn [] p = 0 := by
  rw [bitIn, List.getD_nil, UInt8.zero_and]

theorem bitIn_append (group : List UInt8) (a : UInt8) (p : Nat) :
    bitIn (group ++ [a]) p = bitIn group p ||| if p = group.length then a &&& 1 else 0 := by
  unfold bitIn
  rw [List.getD_eq_getElem?_getD, List.getD_eq_getElem?_getD]
  by_cases front : p < group.length
  · rw [List.getElem?_append_left front, if_neg (Nat.ne_of_lt front), UInt8.or_zero]
  · rw [List.getElem?_append_right (Nat.le_of_not_lt front),
      List.getElem?_eq_none (Nat.le_of_not_lt front)]
    by_cases last : p = group.length
    · rw [if_pos last, last, Nat.sub_self]
      simp
    · rw [if_neg last, List.getElem?_eq_none (by rw [List.length_singleton]; omega)]
      simp

/-- A one in a group comes from an odd argument. -/
theorem bitIn_eq_one {group : List UInt8} {p : Nat} :
    bitIn group p = 1 ↔ ∃ a, group[p]? = some a ∧ a &&& 1 = 1 := by
  unfold bitIn
  rw [List.getD_eq_getElem?_getD]
  cases found : group[p]? with
  | none => simp
  | some a => simp

/-- The buffer after some writes: the bits that wait, over what it held before
unless some bits have been flushed since. -/
structure Holding (stale : UInt8) (ws : List Write) (t : OctetStream) : Prop where
  count : t.bits0.n = (pending ws).length
  short : (pending ws).length ≤ 8
  listed : (pending ws).length ≤ (bitsOf ws).length
  bits : ∀ p < 8, bitAt t.bits0.buffer p =
    (if pending ws = bitsOf ws then bitAt stale p else 0) ||| bitIn (pending ws) p

/-- A bit starts a new byte when eight are pending. -/
theorem pending_bit (ws : List Write) (a : UInt8) : pending (ws ++ [.bit a]) =
    if (pending ws).length = 8 then [a] else pending ws ++ [a] := by
  rw [pending, List.foldl_append]
  rfl

/-- Bytes leave nothing pending. -/
theorem pending_aligned (ws : List Write) (w : ByteWrite) :
    pending (ws ++ [.aligned w]) = [] := by
  rw [pending, List.foldl_append]
  rfl

/-- A bit adds to the bits. -/
theorem bitsOf_bit (ws : List Write) (a : UInt8) : bitsOf (ws ++ [.bit a]) = bitsOf ws ++ [a] := by
  rw [bitsOf, List.filterMap_append]
  rfl

/-- Bytes do not. -/
theorem bitsOf_aligned (ws : List Write) (w : ByteWrite) :
    bitsOf (ws ++ [.aligned w]) = bitsOf ws := by
  rw [bitsOf, List.filterMap_append]
  exact List.append_nil _

/-- A bit is held in the pending byte. -/
theorem Holding.bit {stale : UInt8} {ws : List Write} {t : OctetStream} (a : UInt8)
    (holding : Holding stale ws t) : Holding stale (ws ++ [.bit a]) (t.storeBit a) := by
  obtain ⟨count, short, listed, bits⟩ := holding
  by_cases full : (pending ws).length = 8
  · have emptied : (t.append []).bits0 = ⟨0, 0⟩ := by
      rw [bits0_append, if_neg (by omega)]
    have room : (t.append []).bits0.n < 8 := by
      rw [emptied]
      decide
    have next : pending (ws ++ [.bit a]) = [a] := by rw [pending_bit, if_pos full]
    have more : [a] ≠ bitsOf ws ++ [a] := by
      intro same
      have lengths := congrArg List.length same
      rw [List.length_append, List.length_singleton] at lengths
      omega
    rw [storeBit_of_full a (count.trans full)]
    constructor
    · rw [next, storeBit_of_lt a room, emptied]
      rfl
    · rw [next, List.length_singleton]
      exact Nat.one_le_of_lt (show 1 < 8 by decide)
    · rw [next, bitsOf_bit, List.length_append]
      exact Nat.le_add_left _ _
    · intro p inside
      rw [next, bitsOf_bit, if_neg more, bitAt_storeBit a room inside, emptied, bitAt_zero]
      have alone := bitIn_append [] a p
      rw [bitIn_nil, List.nil_append, UInt8.zero_or] at alone
      rw [alone]
      rfl
  · have room : t.bits0.n < 8 := by omega
    have next : pending (ws ++ [.bit a]) = pending ws ++ [a] := by rw [pending_bit, if_neg full]
    constructor
    · rw [next, storeBit_of_lt a room, List.length_append, count]
      rfl
    · rw [next, List.length_append, List.length_singleton]
      omega
    · rw [next, bitsOf_bit, List.length_append, List.length_append]
      exact Nat.add_le_add_right listed _
    · intro p inside
      rw [next, bitsOf_bit, bitAt_storeBit a room inside, bits p inside, bitIn_append, count,
        UInt8.or_assoc]
      simp only [List.append_left_inj]

/-- Bytes flush what is held. -/
theorem Holding.aligned {stale : UInt8} {ws : List Write} {t : OctetStream} (w : ByteWrite)
    (holding : Holding stale ws t) :
    Holding stale (ws ++ [.aligned w]) (t.append w.content) := by
  obtain ⟨count, short, listed, bits⟩ := holding
  constructor
  · rw [pending_aligned, bits0_append]
    rfl
  · rw [pending_aligned]
    exact Nat.zero_le 8
  · rw [pending_aligned]
    exact Nat.zero_le _
  · intro p inside
    rw [pending_aligned, bitsOf_aligned, bits0_append]
    by_cases idle : pending ws = []
    · rw [if_pos (by rw [count, idle]; rfl), bits p inside, idle]
    · have waiting : t.bits0.n ≠ 0 := by
        rw [count]
        exact fun none => idle (List.length_eq_zero_iff.mp none)
      have some : [] ≠ bitsOf ws := by
        intro same
        rw [← same, ← count] at listed
        exact waiting (Nat.le_zero.mp listed)
      rw [if_neg waiting, if_neg some, bitAt_zero, bitIn_nil, UInt8.zero_or]

/-- After any calls the stream holds the pending bits. -/
theorem holding_writes {stale : UInt8} {t : OctetStream} (fresh : t.bits0 = ⟨0, stale⟩)
    (ws : List Write) : Holding stale ws (t.writes ws) := by
  induction ws using List.reverseRecOn with
  | nil =>
    refine ⟨by rw [writes, List.foldl_nil, fresh]; rfl, Nat.zero_le 8, Nat.le_refl 0, ?_⟩
    intro p _
    have start : pending [] = bitsOf [] := rfl
    rw [if_pos start, writes, List.foldl_nil, fresh]
    exact (congrArg _ (bitIn_nil p)).trans UInt8.or_zero |>.symm
  | append_singleton ws w ih =>
    have last : t.writes (ws ++ [w]) = (t.writes ws).write w := by
      rw [writes, List.foldl_append]
      rfl
    rw [last]
    cases w with
    | bit a => exact ih.bit a
    | aligned w =>
      rw [write_aligned]
      exact ih.aligned w

/-- After a reset no bits are in use and no data is left. -/
theorem fresh_afterResets (earlier : List (List Write)) :
    (afterResets earlier).bits0.n = 0 ∧ (afterResets earlier).data = [] ∧
      (afterResets earlier).ptr = 0 ∧ (afterResets earlier).bits1.n = 0 := by
  cases earlier using List.reverseRecOn with
  | nil => exact ⟨rfl, rfl, rfl, rfl⟩
  | append_singleton earlier ws =>
    rw [afterResets, List.foldl_append]
    exact ⟨rfl, rfl, rfl, rfl⟩

/-- The byte that the last reset leaves has the ones of the abandoned groups. -/
theorem bitAt_afterResets (earlier : List (List Write)) {p : Nat} (inside : p < 8) :
    bitAt (afterResets earlier).bits0.buffer p = 1 ↔
      ∃ group ∈ abandoned earlier, bitIn group p = 1 := by
  induction earlier using List.reverseRecOn with
  | nil =>
    refine iff_of_false ?_ (fun ⟨group, member, _⟩ => List.not_mem_nil member)
    rw [afterResets, List.foldl_nil, new, bitAt_zero]
    decide
  | append_singleton earlier ws ih =>
    have fresh : (afterResets earlier).bits0 = ⟨0, (afterResets earlier).bits0.buffer⟩ := by
      rw [← (fresh_afterResets earlier).1]
    have bits := (holding_writes fresh ws).bits p inside
    have last : (afterResets (earlier ++ [ws])).bits0.buffer =
        ((afterResets earlier).writes ws).bits0.buffer := by
      rw [afterResets, List.foldl_append]
      rfl
    rw [last, bits, abandoned, List.foldl_append, List.foldl_cons, List.foldl_nil]
    by_cases unflushed : pending ws = bitsOf ws
    · have low : bitIn (pending ws) p = 0 ∨ bitIn (pending ws) p = 1 := low_cases _
      rw [if_pos unflushed, if_pos unflushed, or_eq_one (bitAt_cases _ _) low, ih]
      simp only [List.mem_append, List.mem_singleton, or_and_right, exists_or, exists_eq_left]
      rfl
    · rw [if_neg unflushed, if_neg unflushed, UInt8.zero_or]
      simp only [List.mem_singleton, exists_eq_left]

end OctetStream

/-- Writing leaves the read side alone. -/
theorem OctetStream.frame_writes (t : OctetStream) (ws : List Write) :
    (t.writes ws).ptr = t.ptr ∧ (t.writes ws).bits1 = t.bits1 := by
  have append : ∀ (t : OctetStream) (x : List UInt8),
      (t.append x).ptr = t.ptr ∧ (t.append x).bits1 = t.bits1 := by
    intro t x
    unfold OctetStream.append
    split <;> exact ⟨rfl, rfl⟩
  induction ws generalizing t with
  | nil => exact ⟨rfl, rfl⟩
  | cons w ws ih =>
    have one : (t.write w).ptr = t.ptr ∧ (t.write w).bits1 = t.bits1 := by
      cases w with
      | aligned w =>
        rw [write_aligned]
        exact append t w.content
      | bit a =>
        change (t.storeBit a).ptr = t.ptr ∧ (t.storeBit a).bits1 = t.bits1
        unfold OctetStream.storeBit
        split
        · exact append t []
        · exact ⟨rfl, rfl⟩
    rw [← one.1, ← one.2]
    exact ih (t.write w)

theorem takeBits_append (k : Nat) (ws : List Write) (final : ByteWrite) :
    takeBits k (ws ++ [.aligned final]) = takeBits k ws := by
  fun_induction takeBits k ws with
  | case1 k a ws ih => rw [List.cons_append, takeBits, ih]
  | case2 k ws other =>
    cases ws with
    | nil => exact OctetStream.takeBits_aligned k final []
    | cons w ws =>
      cases w with
      | aligned w => exact OctetStream.takeBits_aligned k w _
      | bit a =>
        cases k with
        | zero => rfl
        | succ k => exact absurd rfl (other k a ws rfl)

theorem firstGroup_append (ws : List Write) (final : ByteWrite) :
    firstGroup (ws ++ [.aligned final]) = firstGroup ws := by
  fun_induction firstGroup ws with
  | case1 w ws ih => exact ih
  | case2 ws other =>
    cases ws with
    | nil => rfl
    | cons w ws =>
      cases w with
      | aligned w => exact absurd rfl (other w ws)
      | bit a => exact takeBits_append 8 (.bit a :: ws) final

theorem length_firstGroup (ws : List Write) : (firstGroup ws).length ≤ 8 := by
  fun_induction firstGroup ws with
  | case1 w ws ih => exact ih
  | case2 ws other => exact OctetStream.length_takeBits 8 ws

/-- A stream is clobbered exactly when the stale byte does not keep the first group. -/
theorem clobbered_iff {earlier : List (List Write)} {last : List Write} :
    Clobbered earlier last ↔ ¬OctetStream.Kept
      (OctetStream.afterResets earlier).bits0.buffer 0 (firstGroup last) := by
  have left : ∀ p a, (firstGroup last)[p]? = some a →
      (OctetStream.bitAt (OctetStream.afterResets earlier).bits0.buffer (0 + p) = 1 ↔
        ∃ group ∈ abandoned earlier, OctetStream.bitIn group p = 1) := by
    intro p a found
    have inside := (List.getElem?_eq_some_iff.mp found).1
    rw [Nat.zero_add, OctetStream.bitAt_afterResets earlier
      (Nat.lt_of_lt_of_le inside (length_firstGroup last))]
  constructor
  · rintro ⟨group, member, p, stale, a, dropped, found, set, zero⟩ kept
    have one := kept p a found ((left p a found).mpr
      ⟨group, member, OctetStream.bitIn_eq_one.mpr ⟨stale, dropped, set⟩⟩)
    rw [zero] at one
    exact absurd one (by decide)
  · intro broken
    by_contra clean
    apply broken
    intro p a found set
    obtain ⟨group, member, one⟩ := (left p a found).mp set
    obtain ⟨stale, dropped, set⟩ := OctetStream.bitIn_eq_one.mp one
    refine (OctetStream.low_cases a).resolve_left fun zero => ?_
    exact clean ⟨group, member, p, stale, a, dropped, found, set, zero⟩

open OctetStream in
/-- The writes after the last reset read back exactly if no one that a reset left
in the byte meets a zero of the first group of bits. -/
theorem readsBack_iff (earlier : List (List Write)) (front : List Write) (final : ByteWrite) :
    ReadsBack earlier (front ++ [.aligned final]) ↔
      ¬Clobbered earlier (front ++ [.aligned final]) := by
  obtain ⟨idle, empty, start, aligned⟩ := fresh_afterResets earlier
  obtain ⟨ptr, bits1⟩ := (afterResets earlier).frame_writes (front ++ [.aligned final])
  have follows : Follows (afterResets earlier)
      ((afterResets earlier).writes (front ++ [.aligned final])) := by
    constructor
    · intro _
      rw [ptr, bits1, start, aligned, empty]
      exact ⟨rfl, rfl⟩
    · intro impossible
      exact absurd idle impossible
  obtain ⟨values, r', ran, ended, right⟩ := reads_writes front final (by omega) follows rfl
  rw [clobbered_iff, not_not, firstGroup_append]
  rw [idle] at right
  refine Iff.trans ?_ right
  constructor
  · rintro ⟨s, back, -⟩
    rw [ran] at back
    exact congrArg Prod.fst (Except.ok.inj back)
  · intro same
    exact ⟨r', same ▸ ran, ended⟩

/-- A bit that is dropped before the stream is used again comes back. -/
theorem dropped_bit_returns :
    ¬∀ (earlier : List (List Write)) (front : List Write) (final : ByteWrite),
      ReadsBack earlier (front ++ [.aligned final]) := by
  intro all
  have back := all [[.bit 1]] [.bit 0] (.bytes [])
  rw [readsBack_iff] at back
  exact back ⟨[1], List.mem_singleton.mpr rfl, 0, 1, 0, rfl, rfl, by decide, by decide⟩

end SimpleOprf.Tools
