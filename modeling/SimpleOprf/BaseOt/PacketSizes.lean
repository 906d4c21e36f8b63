import SimpleOprf.BaseOt.ExecBase

/-!
# The sizes of received packets

`get_bytes` copies as many bytes as the message announces, and only then do the
loops of `exec_base` compare their number with the size of the array.

A loop so stays inside its arrays exactly when every announced length that is
reached is at most the length of the array, which `SizesChecked` states for any
stream of bytes.
-/

namespace SimpleOprf.BaseOt

open SimpleOprf.Basis

/-! ## One call -/

/-- A stream that is read. It is an allocation, so its length is a signed number. -/
structure ReadHead where
  len : UInt64
  ptr : UInt64
  sized : len.toNat < 2 ^ 63
  inside : ptr.toNat ≤ len.toNat

/-- The test of `consume` that lets `l` bytes pass. -/
def ReadHead.passes (head : ReadHead) (l : UInt64) : Prop := ¬head.ptr + l > head.len

/-- A length of four bytes cannot wrap the test. -/
theorem ReadHead.passes_iff (head : ReadHead) (l : UInt32) :
    head.passes l.toUInt64 ↔ head.ptr.toNat + l.toNat ≤ head.len.toNat := by
  have small := l.toNat_lt
  have sized := head.sized
  have inside := head.inside
  have exact_ : (head.ptr + l.toUInt64).toNat = head.ptr.toNat + l.toNat := by
    rw [UInt64.toNat_add, UInt32.toNat_toUInt64, Nat.mod_eq_of_lt]
    omega
  rw [passes, gt_iff_lt, UInt64.lt_iff_toNat_lt, exact_, Nat.not_lt]

/-- What `get_bytes` copies, whatever the size of the array. -/
def copied : Reader (List UInt8) := do
  let len ← ofLe <$> Reader.bytes (.thrown "insufficient data") 4
  Reader.bytes (.thrown "insufficient data") len

/-- The numbers of bytes that `count` calls copy; a wrong number is the last one. -/
def copies (n : Nat) (input : List UInt8) : Nat → Nat → List Nat
  | 0, _ => []
  | count + 1, offset =>
    match copied input offset with
    | .error _ => []
    | .ok (bytes, offset) =>
      bytes.length :: if bytes.length = n then copies n input count offset else []

/-- The length that a packet announces, if there are four bytes to read. -/
def announced (input : List UInt8) (offset : Nat) : Option Nat :=
  if offset + 4 ≤ input.length then some (ofLe ((input.drop offset).take 4)) else none

/-- Among `count` packets one announces more than the array holds, is there, and
stands behind packets of the right size only. -/
def Overlong (n count : Nat) (input : List UInt8) (offset : Nat) : Prop :=
  ∃ i < count, (∀ j < i, announced input (offset + j * (4 + n)) = some n) ∧
    ∃ len, announced input (offset + i * (4 + n)) = some len ∧ n < len ∧
      offset + i * (4 + n) + 4 + len ≤ input.length

/-- The first step of a call. -/
theorem announced_cases (input : List UInt8) (offset : Nat) :
    (announced input offset = none ∧
      (ofLe <$> Reader.bytes (.thrown "insufficient data") 4) input offset =
        .error (.thrown "insufficient data")) ∨
    ∃ len, announced input offset = some len ∧ offset + 4 ≤ input.length ∧
      (ofLe <$> Reader.bytes (.thrown "insufficient data") 4) input offset =
        .ok (len, offset + 4) := by
  unfold announced
  by_cases inside : offset + 4 ≤ input.length
  · rw [if_pos inside]
    refine .inr ⟨_, rfl, inside, ?_⟩
    exact Reader.map_eq_ok.mpr ⟨_, Reader.bytes_eq_ok.mpr ⟨inside, rfl, rfl⟩, rfl⟩
  · rw [if_neg inside]
    exact .inl ⟨rfl, Reader.bind_of_error (Reader.bytes_of_lt (Nat.lt_of_not_le inside)) _⟩

/-- The second step of a call: the announced bytes, if they are there. -/
theorem bytes_cases (input : List UInt8) (offset len : Nat) :
    (input.length < offset + len ∧ Reader.bytes (.thrown "insufficient data") len input offset =
      .error (.thrown "insufficient data")) ∨
    (offset + len ≤ input.length ∧ ∃ bytes, bytes.length = len ∧
      Reader.bytes (.thrown "insufficient data") len input offset = .ok (bytes, offset + len)) := by
  rcases Nat.lt_or_ge input.length (offset + len) with short | available
  · exact .inl ⟨short, Reader.bytes_of_lt short⟩
  · refine .inr ⟨available, _, ?_, Reader.bytes_eq_ok.mpr ⟨available, rfl, rfl⟩⟩
    rw [List.length_take, List.length_drop]
    omega

/-- A call ends in one of four ways: the stream is too short, the array is, the
number is too small, or it is right. -/
theorem getBytes_cases (n : Nat) (input : List UInt8) (offset : Nat) :
    ((∀ len, announced input offset = some len → input.length < offset + 4 + len) ∧
      copied input offset = .error (.thrown "insufficient data") ∧
      getBytes n input offset = .error (.thrown "insufficient data")) ∨
    ∃ len bytes, announced input offset = some len ∧ offset + 4 + len ≤ input.length ∧
      bytes.length = len ∧ copied input offset = .ok (bytes, offset + 4 + len) ∧
      getBytes n input offset =
        if n < len then .error .outOfBounds
        else if len ≠ n then .error (.exited "Received invalid length in base OT")
        else .ok (ofBytes n bytes, offset + 4 + len) := by
  rcases announced_cases input offset with ⟨none, failed⟩ | ⟨len, found, inside, read⟩
  · refine .inl ⟨?_, Reader.bind_of_error failed _, Reader.bind_of_error failed _⟩
    intro len found
    rw [none] at found
    cases found
  rcases bytes_cases input (offset + 4) len with ⟨short, failed⟩ | ⟨available, bytes, sized, taken⟩
  · refine .inl ⟨?_, ?_, ?_⟩
    · intro other same
      rw [found] at same
      cases same
      exact short
    · rw [copied, Reader.bind_of_ok read, failed]
    · rw [getBytes, Reader.bind_of_ok read, Reader.bind_of_error failed]
  · refine .inr ⟨len, bytes, found, available, sized, ?_, ?_⟩
    · rw [copied, Reader.bind_of_ok read, taken]
    · rw [getBytes, Reader.bind_of_ok read, Reader.bind_of_ok taken]
      split
      · rfl
      · split <;> rfl

/-! ## A loop of calls -/

/-- A reader that makes `count` calls for arrays of `n` bytes and computes in
between. -/
inductive PacketLoop {α : Type} (n : Nat) : Nat → Reader α → Prop
  | done (value : α) : PacketLoop n 0 (pure value)
  | round {count : Nat} {next : Vector UInt8 n → Reader α}
      (each : ∀ pack, PacketLoop n count (next pack)) :
      PacketLoop n (count + 1) (getBytes n >>= next)

/-- Sizes are checked before anything is copied: no call copies more than the array
holds, and a loop that does not stop has copied as much every time. -/
structure SizesChecked {α : Type} (n count : Nat) (input : List UInt8) (offset : Nat)
    (ran : Outcome α) : Prop where
  fits : ∀ size ∈ copies n input count offset, size ≤ n
  stops : (∃ message, ran = .error (.exited message)) ∨ (∃ what, ran = .error (.thrown what)) ∨
    copies n input count offset = List.replicate count n

variable {n : Nat} {input : List UInt8}

/-- Either the first packet is too long, or it is right and a later one is. -/
theorem overlong_succ {count offset : Nat} : Overlong n (count + 1) input offset ↔
    (∃ len, announced input offset = some len ∧ n < len ∧ offset + 4 + len ≤ input.length) ∨
    (announced input offset = some n ∧ Overlong n count input (offset + 4 + n)) := by
  have next : ∀ i, offset + (i + 1) * (4 + n) = offset + 4 + n + i * (4 + n) := by
    intro i
    rw [Nat.succ_mul]
    omega
  unfold Overlong
  constructor
  · rintro ⟨i, inside, right, len, found, long, available⟩
    cases i with
    | zero =>
      rw [Nat.zero_mul, Nat.add_zero] at found available
      exact .inl ⟨len, found, long, available⟩
    | succ i =>
      have first := right 0 (Nat.succ_pos i)
      rw [Nat.zero_mul, Nat.add_zero] at first
      rw [next] at found available
      refine .inr ⟨first, i, Nat.lt_of_succ_lt_succ inside, ?_, len, found, long, available⟩
      intro j earlier
      rw [← next]
      exact right (j + 1) (Nat.succ_lt_succ earlier)
  · rintro (⟨len, found, long, available⟩ | ⟨first, i, inside, right, len, found, long, available⟩)
    · refine ⟨0, Nat.succ_pos count, fun j impossible => absurd impossible (Nat.not_lt_zero j), len,
        ?_, long, ?_⟩
      · rwa [Nat.zero_mul, Nat.add_zero]
      · rwa [Nat.zero_mul, Nat.add_zero]
    · refine ⟨i + 1, Nat.succ_lt_succ inside, ?_, len, ?_, long, ?_⟩
      · intro j earlier
        cases j with
        | zero => rwa [Nat.zero_mul, Nat.add_zero]
        | succ j =>
          rw [next]
          exact right j (Nat.lt_of_succ_lt_succ earlier)
      · rwa [next]
      · rwa [next]

theorem length_of_announced {offset len : Nat} (found : announced input offset = some len) :
    offset + 4 ≤ input.length := by
  unfold announced at found
  split at found
  · next inside => exact inside
  · cases found

/-- What is too long is there. -/
theorem Overlong.inside {count offset : Nat} (overlong : Overlong n count input offset) :
    offset ≤ input.length := by
  obtain ⟨i, -, -, len, found, -, -⟩ := overlong
  have inside := length_of_announced found
  omega

/-- The sizes of a loop whose first packet is right. -/
theorem sizesChecked_succ {α : Type} {count offset : Nat} {bytes : List UInt8} {ran : Outcome α}
    (first : copied input offset = .ok (bytes, offset + 4 + n)) (sized : bytes.length = n) :
    SizesChecked n (count + 1) input offset ran ↔
      SizesChecked n count input (offset + 4 + n) ran := by
  have unfolded : copies n input (count + 1) offset =
      n :: copies n input count (offset + 4 + n) := by
    rw [copies, first]
    dsimp only
    rw [sized, if_pos rfl]
  constructor
  · rintro ⟨fits, stops⟩
    rw [unfolded] at fits stops
    refine ⟨fun size member => fits size (List.mem_cons_of_mem _ member), ?_⟩
    refine stops.imp_right (Or.imp_right fun all => ?_)
    exact (List.cons.inj all).2
  · rintro ⟨fits, stops⟩
    constructor
    · rw [unfolded]
      exact List.forall_mem_cons.mpr ⟨Nat.le_refl n, fits⟩
    · rw [unfolded]
      exact stops.imp_right (Or.imp_right fun all => congrArg (n :: ·) all)

/-- A loop checks the sizes exactly if none of its packets is too long. -/
theorem PacketLoop.sizesChecked_iff {α : Type} {count : Nat} {reader : Reader α}
    (loop : PacketLoop n count reader) (offset : Nat) :
    SizesChecked n count input offset (reader input offset) ↔ ¬Overlong n count input offset := by
  induction loop generalizing offset with
  | done value =>
    refine iff_of_true ⟨fun size member => ?_, .inr (.inr rfl)⟩ ?_
    · exact absurd member List.not_mem_nil
    · rintro ⟨i, impossible, -⟩
      exact absurd impossible (Nat.not_lt_zero i)
  | @round count next each ih =>
    rcases getBytes_cases n input offset with ⟨cut, failed, stopped⟩ |
      ⟨len, bytes, found, available, sized, taken, ran⟩
    · have none : copies n input (count + 1) offset = [] := by
        rw [copies, failed]
      refine iff_of_true ⟨?_, .inr (.inl ⟨_, Reader.bind_of_error stopped _⟩)⟩ ?_
      · rw [none]
        exact fun size member => absurd member List.not_mem_nil
      · rw [overlong_succ]
        rintro (⟨len, found, -, available⟩ | ⟨right, later⟩)
        · exact absurd available (Nat.not_le_of_lt (cut len found))
        · exact absurd later.inside (Nat.not_le_of_lt (cut n right))
    rcases Nat.lt_trichotomy len n with shorter | rfl | longer
    · rw [if_neg (by omega), if_pos (by omega)] at ran
      have one : copies n input (count + 1) offset = [len] := by
        rw [copies, taken]
        dsimp only
        rw [sized, if_neg (by omega)]
      refine iff_of_true ⟨?_, .inl ⟨_, Reader.bind_of_error ran _⟩⟩ ?_
      · rw [one]
        exact List.forall_mem_singleton.mpr (Nat.le_of_lt shorter)
      · rw [overlong_succ, found]
        rintro (⟨other, same, long, -⟩ | ⟨right, -⟩)
        · cases same
          omega
        · cases right
          omega
    · rw [if_neg (Nat.lt_irrefl _), if_neg (not_not.mpr rfl)] at ran
      rw [sizesChecked_succ taken sized, Reader.bind_of_ok ran, ih, overlong_succ, found]
      refine not_congr ⟨fun later => .inr ⟨rfl, later⟩, ?_⟩
      rintro (⟨other, same, long, -⟩ | ⟨-, later⟩)
      · cases same
        omega
      · exact later
    · refine iff_of_false ?_ (not_not.mpr (overlong_succ.mpr (.inl ⟨len, found, longer, available⟩)))
      rintro ⟨fits, -⟩
      have first : len ∈ copies n input (count + 1) offset := by
        rw [copies, taken, ← sized]
        exact List.mem_cons_self
      exact absurd (fits len first) (Nat.not_le_of_lt longer)

/-- Post-processing the result calls nothing. -/
theorem PacketLoop.map {α β : Type} {count : Nat} {reader : Reader α} (f : α → β)
    (loop : PacketLoop n count reader) :
    PacketLoop n count (do let value ← reader; return f value) := by
  induction loop with
  | done value => exact .done (f value)
  | @round count next each ih =>
    rw [Reader.bind_assoc]
    exact .round ih

variable (k : Indcpa)

/-- The second loop reads one packet of two public keys a round. -/
theorem packetLoop_senderLoop (count : Nat) (entropy : Entropy) :
    PacketLoop (pkLength + pkLength) count (senderLoop k count entropy) := by
  induction count generalizing entropy with
  | zero => exact .done _
  | succ count ih => exact .round fun pack => (ih _).map _

/-- The third loop reads one packet of two ciphertexts a round. -/
theorem packetLoop_stringsLoop (recver : KyberOTRecver) (srPacks : List SrPack) :
    PacketLoop (ctLength + ctLength) srPacks.length (stringsLoop k recver srPacks) := by
  induction srPacks generalizing recver with
  | nil => exact .done _
  | cons srPack rest ih => exact .round fun pack => (ih _).map _

/-- A run from the front is the reader at offset zero. -/
theorem SizesChecked.of_run {α : Type} {count : Nat} {reader : Reader α} :
    SizesChecked n count input 0 (reader.parse input) ↔
      SizesChecked n count input 0 (reader input 0) := by
  have same : ∀ fault, reader.parse input = .error fault ↔ reader input 0 = .error fault := by
    intro fault
    unfold Reader.parse
    rcases reader input 0 with other | ⟨value, final⟩
    · exact Iff.intro (fun ran => congrArg _ (Except.error.inj ran))
        (fun ran => congrArg _ (Except.error.inj ran))
    · exact iff_of_false (fun impossible => by cases impossible) (fun impossible => by cases impossible)
  constructor
  · rintro ⟨fits, stops⟩
    simp only [same] at stops
    exact ⟨fits, stops⟩
  · rintro ⟨fits, stops⟩
    refine ⟨fits, ?_⟩
    simp only [same]
    exact stops

/-- On any bytes that a peer sends, the loops of `exec_base` check the sizes of the
packets exactly if no packet behind right ones announces more than the array holds
and is there. The test of `consume` lets only those lengths pass that are there. -/
theorem exec_base_sizes_checked_iff (nOT : Nat) (os1 : List UInt8) :
    (∀ entropy, SizesChecked (pkLength + pkLength) nOT os1 0
        ((senderLoop k nOT entropy).parse os1) ↔
      ¬Overlong (pkLength + pkLength) nOT os1 0) ∧
    (∀ (recver : KyberOTRecver) (srPack : Vector SrPack nOT),
      SizesChecked (ctLength + ctLength) nOT os1 0
        ((stringsLoop k recver srPack.toList).parse os1) ↔
      ¬Overlong (ctLength + ctLength) nOT os1 0) ∧
    ∀ (head : ReadHead) (l : UInt32), head.passes l.toUInt64 ↔
      head.ptr.toNat + l.toNat ≤ head.len.toNat := by
  refine ⟨fun entropy => ?_, fun recver srPack => ?_, ReadHead.passes_iff⟩
  · rw [SizesChecked.of_run]
    exact (packetLoop_senderLoop k nOT entropy).sizesChecked_iff 0
  · have loop := packetLoop_stringsLoop k recver srPack.toList
    rw [Vector.length_toList] at loop
    rw [SizesChecked.of_run]
    exact loop.sizesChecked_iff 0

/-- One byte too many is written behind the array. -/
theorem oversized_packet_overflows : ¬∀ (k : Indcpa) (nOT : Nat) (os1 : List UInt8) (entropy : Entropy),
    SizesChecked (pkLength + pkLength) nOT os1 0 ((senderLoop k nOT entropy).parse os1) := by
  intro all
  let size := pkLength + pkLength + 1
  let os1 := leBytes 4 size ++ List.replicate size 0
  have checked := all transparent 1 os1 (Stream'.const (Vector.replicate 32 0))
  rw [(exec_base_sizes_checked_iff transparent 1 os1).1] at checked
  have length : os1.length = 4 + size := by
    rw [List.length_append, length_leBytes, List.length_replicate]
  refine checked ⟨0, Nat.one_pos, fun j impossible => absurd impossible (Nat.not_lt_zero j), size,
    ?_, Nat.lt_succ_self _, ?_⟩
  · rw [announced, if_pos (by omega), Nat.zero_mul, List.drop_zero,
      List.take_left' (length_leBytes 4 size), ofLe_leBytes (by decide)]
  · omega

end SimpleOprf.BaseOt
