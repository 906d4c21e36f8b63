import SimpleOprf.Basis.LittleEndian

/-!
# Readers that walk a buffer by offset

The code parses its messages with an offset that every step advances by
reference. A `Reader` is such a step and `Reader.bind` sequences two of them on
one offset. `Reads` says that a reader consumes exactly one given encoding and
returns the value it stands for, wherever the encoding sits in a buffer, so a
whole parser is verified by composing its steps.
-/

namespace SimpleOprf.Basis

variable {α β : Type}

/-- One parsing step: from a buffer and an offset to a value and the next offset. -/
def Reader (α : Type) := List UInt8 → Nat → Outcome (α × Nat)

namespace Reader

instance : Monad Reader where
  pure value := fun _ offset => .ok (value, offset)
  bind first next := fun input offset =>
    match first input offset with
    | .ok (value, offset) => next value input offset
    | .error fault => .error fault

/-- Run a reader from the front of a buffer, dropping the final offset. -/
def parse (reader : Reader α) (input : List UInt8) : Outcome α :=
  match reader input 0 with
  | .ok (value, _) => .ok value
  | .error fault => .error fault

/-- `reader` returns `value` and steps over `encoding` in every surrounding buffer. -/
def Reads (reader : Reader α) (encoding : List UInt8) (value : α) : Prop :=
  ∀ before after, reader (before ++ (encoding ++ after)) before.length =
    .ok (value, before.length + encoding.length)

/-- After a step has read its encoding the next step stands behind it. -/
theorem Reads.bind_apply {first : Reader α} {head : List UInt8} {value : α}
    (firstReads : first.Reads head value) (next : α → Reader β) (before after : List UInt8) :
    (first >>= next) (before ++ (head ++ after)) before.length =
      next value ((before ++ head) ++ after) (before ++ head).length := by
  change (match first (before ++ (head ++ after)) before.length with
    | .ok (value, offset) => next value (before ++ (head ++ after)) offset
    | .error fault => .error fault) = _
  rw [firstReads, List.append_assoc, List.length_append]

/-- A sequence that succeeds on an encoding continues behind it. -/
theorem Reads.of_bind {first : Reader α} {next : α → Reader β} {head before after : List UInt8}
    {value : α} {result : β} {final : Nat} (firstReads : first.Reads head value)
    (ran : (first >>= next) (before ++ (head ++ after)) before.length = .ok (result, final)) :
    next value ((before ++ head) ++ after) (before ++ head).length = .ok (result, final) := by
  rwa [firstReads.bind_apply] at ran

/-- A step followed by another reads the two encodings one after the other. -/
theorem Reads.bind {first : Reader α} {next : α → Reader β} {head tail : List UInt8}
    {value : α} {result : β} (firstReads : first.Reads head value)
    (nextReads : (next value).Reads tail result) :
    (first >>= next).Reads (head ++ tail) result := by
  intro before after
  rw [List.append_assoc head, firstReads.bind_apply, nextReads]
  simp only [List.length_append, Nat.add_assoc]

/-- Returning a value reads nothing. -/
theorem Reads.pure (value : α) : (pure value : Reader α).Reads [] value := by
  intro before after
  rfl

/-- Post-processing the value of a step leaves its encoding unchanged. -/
theorem Reads.map {reader : Reader α} {encoding : List UInt8} {value : α}
    (reads : reader.Reads encoding value) (f : α → β) :
    (f <$> reader).Reads encoding (f value) := by
  have composed : Reads (do let value ← reader; Pure.pure (f value))
      (encoding ++ []) (f value) := reads.bind (Reads.pure (f value))
  rwa [List.append_nil] at composed

/-- A reader at the front of a buffer ignores what follows its encoding. -/
theorem Reads.parse_append {reader : Reader α} {encoding : List UInt8} {value : α}
    (reads : reader.Reads encoding value) (after : List UInt8) :
    reader.parse (encoding ++ after) = .ok value := by
  have atFront := reads [] after
  simp only [List.nil_append, List.length_nil, Nat.zero_add] at atFront
  simp [parse, atFront]

/-- A reader given exactly its encoding returns the encoded value. -/
theorem Reads.parse_eq {reader : Reader α} {encoding : List UInt8} {value : α}
    (reads : reader.Reads encoding value) : reader.parse encoding = .ok value := by
  simpa using reads.parse_append []

/-- `count` bytes, ending the process with `fault` when the buffer is too short. -/
def bytes (fault : Fault) (count : Nat) : Reader (List UInt8) := fun input offset =>
  match slice fault input offset count with
  | .ok taken => .ok (taken, offset + count)
  | .error fault => .error fault

/-- A run of bytes is read as it is. -/
theorem reads_bytes (fault : Fault) {count : Nat} {encoding : List UInt8}
    (sized : encoding.length = count) : (bytes fault count).Reads encoding encoding := by
  subst sized
  intro before after
  simp [bytes, slice_append]

/-- A step that computes without reading. -/
def computing (outcome : Outcome α) : Reader α := fun _ offset =>
  match outcome with
  | .ok value => .ok (value, offset)
  | .error fault => .error fault

/-- A computation reads nothing. -/
theorem Reads.computing {outcome : Outcome α} {value : α} (computed : outcome = .ok value) :
    (computing outcome).Reads [] value := by
  intro before after
  rw [computed]
  rfl

/-- Repeat a step, collecting its values in order. -/
def repeated (reader : Reader α) : Nat → Reader (List α)
  | 0 => pure []
  | count + 1 => do
    let value ← reader
    let rest ← repeated reader count
    pure (value :: rest)

/-- A loop of steps reads the concatenated encodings of a list. -/
theorem Reads.repeated {reader : Reader α} {encode : α → List UInt8} (values : List α)
    (reads : ∀ value ∈ values, reader.Reads (encode value) value) :
    (reader.repeated values.length).Reads (values.flatMap encode) values := by
  induction values with
  | nil => exact Reads.pure []
  | cons value rest ih =>
    have headReads := reads value List.mem_cons_self
    have restReads := ih fun other member => reads other (List.mem_cons_of_mem _ member)
    rw [List.flatMap_cons]
    exact headReads.bind (restReads.map (value :: ·))

/-- A 64-bit little-endian word. -/
def word (fault : Fault) : Reader UInt64 := ofLe64 <$> bytes fault 8

/-- A stored word is read back. -/
theorem reads_word (fault : Fault) (value : UInt64) : (word fault).Reads (le64 value) value := by
  simpa [word] using (reads_bytes fault (length_le64 value)).map ofLe64

/-- A fixed-size byte array. -/
def array (fault : Fault) (size : Nat) : Reader (Vector UInt8 size) :=
  ofBytes size <$> bytes fault size

/-- A stored array is read back. -/
theorem reads_array (fault : Fault) {size : Nat} (value : Vector UInt8 size) :
    (array fault size).Reads value.toList value := by
  have sized : value.toList.length = size := Vector.length_toList
  simpa [array] using (reads_bytes fault sized).map (ofBytes size)

/-! ## Inverting a successful read -/

/-- What a value without reading gives. -/
theorem pure_eq_ok {input : List UInt8} {offset final : Nat} {value result : α} :
    (pure value : Reader α) input offset = .ok (result, final) ↔
      result = value ∧ final = offset := by
  change Except.ok (value, offset) = Except.ok (result, final) ↔ _
  rw [Except.ok.injEq, Prod.mk.injEq]
  exact and_congr eq_comm eq_comm

/-- A sequence goes on where its first step stops. -/
theorem bind_of_ok {first : Reader α} {input : List UInt8} {offset mark : Nat} {value : α}
    (started : first input offset = .ok (value, mark)) (next : α → Reader β) :
    (first >>= next) input offset = next value input mark := by
  change (match first input offset with
    | .ok (value, offset) => next value input offset
    | .error fault => .error fault) = _
  rw [started]

/-- A sequence fails with its first step. -/
theorem bind_of_error {first : Reader α} {input : List UInt8} {offset : Nat} {fault : Fault}
    (failed : first input offset = .error fault) (next : α → Reader β) :
    (first >>= next) input offset = .error fault := by
  change (match first input offset with
    | .ok (value, offset) => next value input offset
    | .error fault => .error fault) = _
  rw [failed]

/-- Compositions associate. -/
theorem bind_assoc {γ : Type} (first : Reader α) (next : α → Reader β) (last : β → Reader γ) :
    first >>= next >>= last = first >>= fun value => next value >>= last := by
  funext input offset
  rcases ran : first input offset with fault | ⟨value, mark⟩
  · rw [bind_of_error (bind_of_error ran _), bind_of_error ran]
  · rw [bind_of_ok ran]
    change (match (first >>= next) input offset with
      | .ok (value, offset) => last value input offset
      | .error fault => .error fault) = _
    rw [bind_of_ok ran]
    rfl

/-- A sequence succeeds exactly when both steps do, the second from where the first ended. -/
theorem bind_eq_ok {first : Reader α} {next : α → Reader β} {input : List UInt8}
    {offset final : Nat} {result : β} :
    (first >>= next) input offset = .ok (result, final) ↔
      ∃ value middle, first input offset = .ok (value, middle) ∧
        next value input middle = .ok (result, final) := by
  change (match first input offset with
    | .ok (value, offset) => next value input offset
    | .error fault => .error fault) = _ ↔ _
  rcases first input offset with fault | ⟨value, middle⟩
  · simp
  · simp [and_assoc]

/-- What a function of a result gives. -/
theorem map_eq_ok {reader : Reader α} {f : α → β} {input : List UInt8} {offset final : Nat}
    {result : β} :
    (f <$> reader) input offset = .ok (result, final) ↔
      ∃ value, reader input offset = .ok (value, final) ∧ result = f value := by
  change (reader >>= fun value => pure (f value)) input offset = _ ↔ _
  rw [bind_eq_ok]
  constructor
  · rintro ⟨value, middle, ran, returned⟩
    obtain ⟨rfl, rfl⟩ := pure_eq_ok.mp returned
    exact ⟨value, ran, rfl⟩
  · rintro ⟨value, ran, rfl⟩
    exact ⟨value, final, ran, pure_eq_ok.mpr ⟨rfl, rfl⟩⟩

/-- When reading bytes succeeds, and what it gives. -/
theorem bytes_eq_ok {fault : Fault} {count : Nat} {input taken : List UInt8} {offset final : Nat} :
    bytes fault count input offset = .ok (taken, final) ↔
      offset + count ≤ input.length ∧ taken = (input.drop offset).take count ∧
        final = offset + count := by
  rw [← and_assoc, ← @slice_eq_ok _ fault]
  unfold bytes
  cases slice fault input offset count with
  | error fault => simp
  | ok found => simp [eq_comm]

/-- Too few bytes are the given fault. -/
theorem bytes_of_lt {fault : Fault} {count : Nat} {input : List UInt8} {offset : Nat}
    (short : input.length < offset + count) : bytes fault count input offset = .error fault := by
  rw [bytes, slice, if_neg (Nat.not_le_of_lt short)]

/-- When reading an array succeeds, and what it gives. -/
theorem array_eq_ok {fault : Fault} {size : Nat} {input : List UInt8} {offset final : Nat}
    {value : Vector UInt8 size} :
    array fault size input offset = .ok (value, final) ↔
      offset + size ≤ input.length ∧ value = ofBytes size ((input.drop offset).take size) ∧
        final = offset + size := by
  unfold array
  rw [map_eq_ok]
  constructor
  · rintro ⟨taken, ran, rfl⟩
    obtain ⟨inside, rfl, rfl⟩ := bytes_eq_ok.mp ran
    exact ⟨inside, rfl, rfl⟩
  · rintro ⟨inside, rfl, rfl⟩
    exact ⟨_, bytes_eq_ok.mpr ⟨inside, rfl, rfl⟩, rfl⟩

/-- A computation succeeds where it stands. -/
theorem computing_eq_ok {outcome : Outcome α} {input : List UInt8} {offset final : Nat}
    {value : α} :
    computing outcome input offset = .ok (value, final) ↔ outcome = .ok value ∧ final = offset := by
  unfold computing
  cases outcome with
  | error fault => simp
  | ok found => simp [eq_comm]

/-! ## What a successful read says of its value -/

/-- Every value that the reader returns satisfies `post`, on any buffer. -/
def Ensures (reader : Reader α) (post : α → Prop) : Prop :=
  ∀ input offset value final, reader input offset = .ok (value, final) → post value

theorem Ensures.pure {post : α → Prop} {value : α} (holds : post value) :
    (pure value : Reader α).Ensures post := by
  intro input offset result final ran
  cases ran
  exact holds

/-- What the first reader ensures, the second may use. -/
theorem Ensures.bind {first : Reader α} {next : α → Reader β} {mid : α → Prop} {post : β → Prop}
    (head : first.Ensures mid) (tail : ∀ value, mid value → (next value).Ensures post) :
    (first >>= next).Ensures post := by
  intro input offset result final ran
  obtain ⟨value, middle, started, ran⟩ := bind_eq_ok.mp ran
  exact tail value (head input offset value middle started) input middle result final ran

/-- A step whose value does not matter. -/
theorem Ensures.skip {first : Reader α} {next : α → Reader β} {post : β → Prop}
    (tail : ∀ value, (next value).Ensures post) : (first >>= next).Ensures post := by
  have anything : first.Ensures fun _ => True := fun _ _ _ _ _ => trivial
  exact anything.bind fun value _ => tail value

/-- As many bytes as asked for. -/
theorem ensures_bytes (fault : Fault) (count : Nat) :
    (bytes fault count).Ensures fun taken => taken.length = count := by
  intro input offset taken final ran
  obtain ⟨inside, rfl, -⟩ := bytes_eq_ok.mp ran
  simp only [List.length_take, List.length_drop]
  omega

/-- A computation ensures its own result. -/
theorem ensures_computing (outcome : Outcome α) :
    (computing outcome).Ensures fun value => outcome = .ok value := by
  intro input offset value final ran
  exact (computing_eq_ok.mp ran).1

/-- As many values as repetitions. -/
theorem ensures_repeated (reader : Reader α) (count : Nat) :
    (reader.repeated count).Ensures fun values => values.length = count := by
  induction count with
  | zero => exact Ensures.pure rfl
  | succ count ih =>
    refine Ensures.skip fun value => ih.bind fun rest counted => Ensures.pure ?_
    rw [List.length_cons, counted]

/-- A successful parse is a run from the front of the buffer. -/
theorem run_of_parse {reader : Reader α} {input : List UInt8} {value : α}
    (parsed : reader.parse input = .ok value) : ∃ final, reader input 0 = .ok (value, final) := by
  unfold parse at parsed
  rcases ran : reader input 0 with fault | ⟨found, final⟩
  · rw [ran] at parsed
    cases parsed
  · rw [ran] at parsed
    cases parsed
    exact ⟨final, rfl⟩

/-- A successful parse returns a value that the reader ensures. -/
theorem Ensures.of_parse {reader : Reader α} {post : α → Prop} (ensures_ : reader.Ensures post)
    {input : List UInt8} {value : α} (parsed : reader.parse input = .ok value) : post value := by
  obtain ⟨final, ran⟩ := run_of_parse parsed
  exact ensures_ input 0 value final ran

/-! ## How much of the buffer a read uses -/

/-- A read that starts inside the buffer ends inside it, and the value and the
number of bytes it used are related by `post`. -/
def Consumes (reader : Reader α) (post : α → Nat → Prop) : Prop :=
  ∀ input offset value final, reader input offset = .ok (value, final) → offset ≤ input.length →
    final ≤ input.length ∧ ∃ used, final = offset + used ∧ post value used

theorem Consumes.pure {post : α → Nat → Prop} {value : α} (holds : post value 0) :
    (pure value : Reader α).Consumes post := by
  intro input offset result final ran inside
  cases ran
  exact ⟨inside, 0, rfl, holds⟩

/-- What two readers consume adds up. -/
theorem Consumes.bind {first : Reader α} {next : α → Reader β} {mid : α → Nat → Prop}
    {post : β → Nat → Prop} (head : first.Consumes mid)
    (tail : ∀ value front, mid value front →
      (next value).Consumes fun result used => post result (front + used)) :
    (first >>= next).Consumes post := by
  intro input offset result final ran inside
  obtain ⟨value, mark, started, ran⟩ := bind_eq_ok.mp ran
  obtain ⟨within, front, middle, holds⟩ := head input offset value mark started inside
  obtain ⟨done, used, ends, carried⟩ := tail value front holds input mark result final ran within
  exact ⟨done, front + used, by omega, carried⟩

/-- A function of the result consumes nothing more. -/
theorem Consumes.map {reader : Reader α} {mid : α → Nat → Prop} {post : β → Nat → Prop} {f : α → β}
    (consumes : reader.Consumes mid) (carries : ∀ value used, mid value used → post (f value) used) :
    (f <$> reader).Consumes post :=
  consumes.bind fun value used holds => Consumes.pure (carries value used holds)

/-- `count` bytes consume `count`. -/
theorem consumes_bytes (fault : Fault) (count : Nat) :
    (bytes fault count).Consumes fun taken used => taken.length = count ∧ used = count := by
  intro input offset taken final ran inside
  obtain ⟨within, rfl, rfl⟩ := bytes_eq_ok.mp ran
  refine ⟨within, count, rfl, ?_, rfl⟩
  simp only [List.length_take, List.length_drop]
  omega

/-- A computation consumes nothing. -/
theorem consumes_computing (outcome : Outcome α) :
    (computing outcome).Consumes fun value used => outcome = .ok value ∧ used = 0 := by
  intro input offset value final ran inside
  obtain ⟨computed, rfl⟩ := computing_eq_ok.mp ran
  exact ⟨inside, 0, rfl, computed, rfl⟩

/-- A loop of reads of one size. -/
theorem Consumes.repeated {reader : Reader α} {size : Nat}
    (each : reader.Consumes fun _ used => used = size) (count : Nat) :
    (reader.repeated count).Consumes fun values used =>
      values.length = count ∧ used = size * count := by
  induction count with
  | zero => exact Consumes.pure ⟨rfl, rfl⟩
  | succ count ih =>
    refine each.bind fun value front sized => ih.bind fun rest used counted => Consumes.pure ?_
    obtain ⟨length, total⟩ := counted
    refine ⟨by rw [List.length_cons, length], ?_⟩
    rw [sized, total, Nat.mul_succ]
    omega

/-- A successful parse uses no more bytes than there are. -/
theorem Consumes.of_parse {reader : Reader α} {post : α → Nat → Prop}
    (consumes : reader.Consumes post) {input : List UInt8} {value : α}
    (parsed : reader.parse input = .ok value) : ∃ used, used ≤ input.length ∧ post value used := by
  obtain ⟨final, ran⟩ := run_of_parse parsed
  obtain ⟨within, used, ends, holds⟩ := consumes input 0 value final ran (Nat.zero_le _)
  exact ⟨used, by omega, holds⟩

end Reader

end SimpleOprf.Basis
