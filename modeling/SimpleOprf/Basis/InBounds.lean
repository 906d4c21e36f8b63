import SimpleOprf.Basis.Inbox
import SimpleOprf.Basis.Reader

/-!
# Staying inside buffers

`InBounds` says that a computation does not end in an access outside a buffer;
it may return, or end in any other way. It distributes over sequencing exactly,
so the condition under which a whole program stays inside its buffers is put
together from those of its accesses.

`Sized` readers consume a fixed number of bytes, so such a reader is inside
exactly when that number is left. `OnlyOutOfBounds` marks the computations that
have no other way to fail.
-/

namespace SimpleOprf.Basis

variable {α β : Type}

namespace Outcome

/-- The computation makes no access outside a buffer. -/
def InBounds (outcome : Outcome α) : Prop := outcome ≠ .error .outOfBounds

@[simp] theorem inBounds_ok (value : α) : InBounds (.ok value) := by
  intro fault
  cases fault

@[simp] theorem inBounds_thrown (what : String) : InBounds (.error (.thrown what) : Outcome α) := by
  intro fault
  cases fault

@[simp] theorem inBounds_exited (message : String) :
    InBounds (.error (.exited message) : Outcome α) := by
  intro fault
  cases fault

/-- A sequence stays inside when its first half does and, on whatever that
returns, its second half. -/
theorem inBounds_bind {first : Outcome α} {next : α → Outcome β} :
    InBounds (first >>= next) ↔
      InBounds first ∧ ∀ value, first = .ok value → InBounds (next value) := by
  cases first with
  | error fault =>
    constructor
    · intro inside
      refine ⟨fun same => inside ?_, fun value returned => ?_⟩
      · cases same
        rfl
      · cases returned
    · rintro ⟨inside, -⟩ same
      cases same
      exact inside rfl
  | ok value =>
    constructor
    · intro inside
      refine ⟨inBounds_ok value, fun other same => ?_⟩
      cases same
      exact inside
    · rintro ⟨-, inside⟩
      exact inside value rfl

/-- What holds of the value, or of the fault, that a computation ends with. -/
def Ends (done : α → Prop) (fails : Fault → Prop) : Outcome α → Prop
  | .ok value => done value
  | .error fault => fails fault

/-- Nothing but an access outside a buffer can go wrong. -/
def OnlyOutOfBounds (outcome : Outcome α) : Prop :=
  ∀ fault, outcome = .error fault → fault = .outOfBounds

/-- Where nothing else can go wrong, staying inside is returning. -/
theorem OnlyOutOfBounds.inBounds_iff {outcome : Outcome α} (only : OnlyOutOfBounds outcome) :
    InBounds outcome ↔ ∃ value, outcome = .ok value := by
  cases outcome with
  | ok value => simp
  | error fault =>
    have same : fault = .outOfBounds := only fault rfl
    subst same
    constructor
    · intro inside
      exact absurd rfl inside
    · rintro ⟨value, returned⟩
      cases returned

/-- A composition fails as its parts do. -/
theorem OnlyOutOfBounds.bind {first : Outcome α} {next : α → Outcome β}
    (head : OnlyOutOfBounds first) (tail : ∀ value, OnlyOutOfBounds (next value)) :
    OnlyOutOfBounds (first >>= next) := by
  cases first with
  | ok value => exact tail value
  | error fault =>
    intro other same
    cases same
    exact head _ rfl

/-- A result does not fail. -/
theorem OnlyOutOfBounds.ok (value : α) : OnlyOutOfBounds (.ok value : Outcome α) := by
  intro fault same
  cases same

/-- A sequence of which the second half needs the same of every value. -/
theorem OnlyOutOfBounds.inBounds_bind {first : Outcome α} {next : α → Outcome β} {needs : Prop}
    (only : OnlyOutOfBounds first)
    (tail : ∀ value, first = .ok value → (InBounds (next value) ↔ needs)) :
    InBounds (first >>= next) ↔ InBounds first ∧ needs := by
  rw [Outcome.inBounds_bind]
  refine and_congr_right fun inside => ?_
  obtain ⟨value, returned⟩ := only.inBounds_iff.mp inside
  constructor
  · intro rest
    exact (tail value returned).mp (rest value returned)
  · intro holds other same
    exact (tail other same).mpr holds

/-- A loop over a list fails as its body does. -/
theorem mapM_only {body : α → Outcome β} {items : List α}
    (only : ∀ item ∈ items, OnlyOutOfBounds (body item)) : OnlyOutOfBounds (items.mapM body) := by
  induction items with
  | nil => exact OnlyOutOfBounds.ok []
  | cons item rest ih =>
    have later := ih fun other member => only other (List.mem_cons_of_mem _ member)
    rw [List.mapM_cons]
    exact (only item List.mem_cons_self).bind fun _ => later.bind fun _ => .ok _

/-- A map over accesses stays inside when every one of them does. -/
theorem inBounds_mapM {body : α → Outcome β} {items : List α}
    (only : ∀ item ∈ items, OnlyOutOfBounds (body item)) :
    InBounds (items.mapM body) ↔ ∀ item ∈ items, InBounds (body item) := by
  induction items with
  | nil => simp [pure, Except.pure]
  | cons item rest ih =>
    have here := (only item List.mem_cons_self).inBounds_iff
    have later := ih fun other member => only other (List.mem_cons_of_mem _ member)
    rw [List.mapM_cons, inBounds_bind, List.forall_mem_cons]
    refine and_congr_right fun inside => ?_
    obtain ⟨value, returned⟩ := here.mp inside
    rw [← later]
    constructor
    · intro tail
      exact (inBounds_bind.mp (tail value returned)).1
    · intro tail value _
      rw [inBounds_bind]
      exact ⟨tail, fun values _ => inBounds_ok _⟩

/-- Post-processing a result makes no access. -/
theorem inBounds_bind_ok {first : Outcome α} {f : α → β} :
    InBounds (first >>= fun value => .ok (f value)) ↔ InBounds first := by
  rw [inBounds_bind]
  exact and_iff_left fun value _ => inBounds_ok _

/-- A loop whose steps keep an invariant, and under it stay inside exactly when
their item allows, stays inside exactly when every item allows. -/
theorem inBounds_foldlM {State Item : Type} {body : State → Item → Outcome State}
    {allowed : Item → Prop} {items : List Item} (inv : State → Prop)
    (only : ∀ state item, OnlyOutOfBounds (body state item))
    (step : ∀ state, inv state → ∀ item ∈ items, InBounds (body state item) ↔ allowed item)
    (kept : ∀ state, inv state → ∀ item next, body state item = .ok next → inv next)
    {state : State} (start : inv state) :
    InBounds (items.foldlM body state) ↔ ∀ item ∈ items, allowed item := by
  induction items generalizing state with
  | nil => simp [pure, Except.pure]
  | cons item rest ih =>
    have later := fun state holds other member =>
      step state holds other (List.mem_cons_of_mem _ member)
    rw [List.foldlM_cons, inBounds_bind, List.forall_mem_cons,
      step state start item List.mem_cons_self]
    refine and_congr_right fun allows => ?_
    obtain ⟨next, ran⟩ := (only state item).inBounds_iff.mp
      ((step state start item List.mem_cons_self).mpr allows)
    have rest_iff := ih later (kept state start item next ran)
    constructor
    · exact fun tail => rest_iff.mp (tail next ran)
    · intro allowsRest other same
      rw [ran] at same
      cases same
      exact rest_iff.mpr allowsRest

/-- So does a loop with an accumulator. -/
theorem foldlM_only {State Item : Type} {body : State → Item → Outcome State}
    (only : ∀ state item, OnlyOutOfBounds (body state item)) (items : List Item) (state : State) :
    OnlyOutOfBounds (items.foldlM body state) := by
  induction items generalizing state with
  | nil => exact OnlyOutOfBounds.ok state
  | cons item rest ih =>
    rw [List.foldlM_cons]
    exact (only state item).bind ih

/-- What every step keeps holds of the result of a loop. -/
theorem foldlM_keeps {State Item : Type} {body : State → Item → Outcome State}
    {items : List Item} (inv : State → Prop)
    (kept : ∀ state, inv state → ∀ item ∈ items, ∀ next, body state item = .ok next → inv next)
    {state final : State} (start : inv state) (ran : items.foldlM body state = .ok final) :
    inv final := by
  induction items generalizing state with
  | nil =>
    cases ran
    exact start
  | cons item rest ih =>
    rw [List.foldlM_cons] at ran
    obtain ⟨next, first, ran⟩ := bind_eq_ok.mp ran
    have later := fun state holds other member =>
      kept state holds other (List.mem_cons_of_mem _ member)
    exact ih later (kept state start item List.mem_cons_self next first) ran

end Outcome

open Outcome

/-- A read fails out of bounds only. -/
theorem readAt_only (xs : List α) (index : Nat) : OnlyOutOfBounds (readAt xs index) := by
  unfold readAt
  intro fault failed
  cases found : xs[index]? with
  | none =>
    rw [found] at failed
    cases failed
    rfl
  | some value =>
    rw [found] at failed
    cases failed

/-- A write fails out of bounds only. -/
theorem writeAt_only (xs : List α) (index : Nat) (value : α) :
    OnlyOutOfBounds (writeAt xs index value) := by
  unfold writeAt
  intro fault failed
  split at failed
  · cases failed
  · cases failed
    rfl

/-- A read is inside exactly below the length. -/
theorem inBounds_readAt {xs : List α} {index : Nat} :
    InBounds (readAt xs index) ↔ index < xs.length := by
  rw [(readAt_only xs index).inBounds_iff]
  constructor
  · rintro ⟨value, found⟩
    exact (List.getElem?_eq_some_iff.mp (readAt_eq_ok.mp found)).1
  · exact fun inside => ⟨_, readAt_of_lt inside⟩

/-- A write is inside exactly below the length. -/
theorem inBounds_writeAt {xs : List α} {index : Nat} {value : α} :
    InBounds (writeAt xs index value) ↔ index < xs.length := by
  unfold writeAt
  by_cases inside : index < xs.length
  · simp [inside]
  · simp [inside, InBounds]

theorem length_of_writeAt {xs ys : List α} {index : Nat} {value : α}
    (written : writeAt xs index value = .ok ys) : ys.length = xs.length := by
  unfold writeAt at written
  split at written
  · cases written
    exact List.length_set
  · cases written

/-- A slice is inside exactly when its end is. -/
theorem inBounds_slice {xs : List α} {start count : Nat} :
    InBounds (slice .outOfBounds xs start count) ↔ start + count ≤ xs.length := by
  unfold slice
  by_cases inside : start + count ≤ xs.length
  · simp [inside]
  · simp [inside, InBounds]

/-- A store to the front is inside exactly when the values fit. -/
theorem inBounds_storeFront {xs values : List α} :
    InBounds (storeFront xs values) ↔ values.length ≤ xs.length := by
  unfold storeFront
  by_cases inside : values.length ≤ xs.length
  · simp [inside]
  · simp [inside, InBounds]

/-- A slice fails out of bounds only. -/
theorem slice_only (xs : List α) (start count : Nat) :
    OnlyOutOfBounds (slice .outOfBounds xs start count) := by
  unfold slice
  intro fault failed
  split at failed
  · cases failed
  · cases failed
    rfl

/-- A store to the front fails out of bounds only. -/
theorem storeFront_only (xs values : List α) : OnlyOutOfBounds (storeFront xs values) := by
  unfold storeFront
  intro fault failed
  split at failed
  · cases failed
  · cases failed
    rfl

theorem length_of_storeFront {xs values ys : List α} (stored : storeFront xs values = .ok ys) :
    values.length ≤ xs.length ∧ ys.length = xs.length := by
  unfold storeFront at stored
  split at stored
  · rename_i fits
    cases stored
    refine ⟨fits, ?_⟩
    rw [List.length_append, List.length_drop]
    omega
  · cases stored

/-! ## Readers of a fixed size -/

namespace Reader

/-- The reader reads `size` bytes wherever there are that many, and leaves the
buffer where there are fewer. -/
structure Sized (reader : Reader α) (size : Nat) : Prop where
  reads : ∀ input offset, offset + size ≤ input.length →
    ∃ value, reader input offset = .ok (value, offset + size)
  leaves : ∀ input offset, offset ≤ input.length → input.length < offset + size →
    reader input offset = .error .outOfBounds

/-- Reading `count` bytes consumes `count`. -/
theorem sized_bytes (count : Nat) : (bytes .outOfBounds count).Sized count where
  reads input offset inside := ⟨_, bytes_eq_ok.mpr ⟨inside, rfl, rfl⟩⟩
  leaves input offset _ outside := by
    have beyond : ¬ offset + count ≤ input.length := Nat.not_le.mpr outside
    simp only [bytes, slice, if_neg beyond]

theorem Sized.pure (value : α) : (pure value : Reader α).Sized 0 where
  reads _ _ _ := ⟨value, rfl⟩
  leaves _ _ inside outside := absurd outside (Nat.not_lt.mpr inside)

/-- Sizes add up. -/
theorem Sized.bind {first : Reader α} {next : α → Reader β} {front back : Nat}
    (head : first.Sized front) (tail : ∀ value, (next value).Sized back) :
    (first >>= next).Sized (front + back) where
  reads input offset inside := by
    obtain ⟨value, started⟩ := head.reads input offset (by omega)
    obtain ⟨result, ran⟩ := (tail value).reads input (offset + front) (by omega)
    refine ⟨result, bind_eq_ok.mpr ⟨value, _, started, ?_⟩⟩
    rw [ran, Nat.add_assoc]
  leaves input offset inside outside := by
    by_cases enough : offset + front ≤ input.length
    · obtain ⟨value, started⟩ := head.reads input offset enough
      rw [bind_of_ok started]
      exact (tail value).leaves input _ enough (by omega)
    · exact bind_of_error (head.leaves input offset inside (by omega)) next

/-- A function of the result does not change the size. -/
theorem Sized.map {reader : Reader α} {size : Nat} (sized : reader.Sized size) (f : α → β) :
    (f <$> reader).Sized size :=
  sized.bind fun value => Sized.pure (f value)

/-- A word takes eight bytes. -/
theorem sized_word : (word .outOfBounds).Sized 8 := (sized_bytes 8).map ofLe64

/-- An array takes its size. -/
theorem sized_array (size : Nat) : (array .outOfBounds size).Sized size :=
  (sized_bytes size).map (ofBytes size)

/-- Repetition multiplies the size. -/
theorem Sized.repeated {reader : Reader α} {size : Nat} (sized : reader.Sized size)
    (count : Nat) : (reader.repeated count).Sized (size * count) := by
  induction count with
  | zero => exact Sized.pure []
  | succ count ih =>
    have both : size * (count + 1) = size + (size * count + 0) := by
      rw [Nat.mul_succ]
      omega
    rw [both]
    exact sized.bind fun value => ih.bind fun rest => Sized.pure (value :: rest)

/-- Where a reader of a fixed size stops. -/
theorem Sized.final_eq {reader : Reader α} {size offset final : Nat} {input : List UInt8} {value : α}
    (sized : reader.Sized size) (inside : offset ≤ input.length)
    (ran : reader input offset = .ok (value, final)) :
    final = offset + size ∧ final ≤ input.length := by
  by_cases enough : offset + size ≤ input.length
  · obtain ⟨found, read⟩ := sized.reads input offset enough
    rw [read] at ran
    cases ran
    exact ⟨rfl, enough⟩
  · rw [sized.leaves input offset inside (by omega)] at ran
    cases ran

/-- A loop of such reads returns what each of them reads at its own position. -/
theorem Sized.repeated_getElem {reader : Reader α} {size count offset final i : Nat}
    {input : List UInt8} {values : List α} (sized : reader.Sized size)
    (inside : offset ≤ input.length)
    (ran : reader.repeated count input offset = .ok (values, final)) (bounded : i < count) :
    ∃ value, values[i]? = some value ∧
      reader input (offset + size * i) = .ok (value, offset + size * i + size) := by
  induction count generalizing offset values i with
  | zero => exact absurd bounded (Nat.not_lt_zero i)
  | succ count ih =>
    obtain ⟨value, middle, read, ran⟩ := bind_eq_ok.mp ran
    obtain ⟨rest, last, later, ran⟩ := bind_eq_ok.mp ran
    cases ran
    obtain ⟨rfl, within⟩ := sized.final_eq inside read
    cases i with
    | zero => exact ⟨value, rfl, by rwa [Nat.mul_zero, Nat.add_zero]⟩
    | succ i =>
      obtain ⟨found, present, here⟩ := ih within later (Nat.lt_of_succ_lt_succ bounded)
      have position : offset + size + size * i = offset + size * (i + 1) := by
        rw [Nat.mul_succ]
        omega
      rw [position] at here
      exact ⟨found, present, here⟩

/-- A sequence behind a reader of a fixed size ends short of the buffer's end, or
as its second half does. -/
theorem Sized.ends_bind {first : Reader α} {next : α → Reader β} {size offset : Nat}
    {input : List UInt8} {done : β × Nat → Prop} {fails : Fault → Prop} (sized : first.Sized size)
    (inside : offset ≤ input.length) (short : input.length < offset + size → fails .outOfBounds)
    (long : offset + size ≤ input.length → ∀ value,
      first input offset = .ok (value, offset + size) →
        Ends done fails (next value input (offset + size))) :
    Ends done fails ((first >>= next) input offset) := by
  by_cases enough : offset + size ≤ input.length
  · obtain ⟨value, started⟩ := sized.reads input offset enough
    rw [bind_of_ok started]
    exact long enough value started
  · rw [bind_of_error (sized.leaves input offset inside (by omega))]
    exact short (by omega)

/-- A reader of a fixed size ends short of the buffer's end, or with a value. -/
theorem Sized.ends {reader : Reader α} {size offset : Nat} {input : List UInt8}
    {done : α × Nat → Prop} {fails : Fault → Prop} (sized : reader.Sized size)
    (inside : offset ≤ input.length) (short : input.length < offset + size → fails .outOfBounds)
    (long : offset + size ≤ input.length → ∀ value,
      reader input offset = .ok (value, offset + size) → done (value, offset + size)) :
    Ends done fails (reader input offset) := by
  by_cases enough : offset + size ≤ input.length
  · obtain ⟨value, ran⟩ := sized.reads input offset enough
    rw [ran]
    exact long enough value ran
  · rw [sized.leaves input offset inside (by omega)]
    exact short (by omega)

/-- A sequence behind a step that only computes. -/
theorem ends_computing_bind {outcome : Outcome α} {next : α → Reader β} {offset : Nat}
    {input : List UInt8} {done : β × Nat → Prop} {fails : Fault → Prop}
    (failed : ∀ fault, outcome = .error fault → fails fault)
    (computed : ∀ value, outcome = .ok value → Ends done fails (next value input offset)) :
    Ends done fails ((computing outcome >>= next) input offset) := by
  cases outcome with
  | error fault => exact failed fault rfl
  | ok value => exact computed value rfl

/-- The ends of a reader at the front are those of the parse. -/
theorem Ends.parse {reader : Reader α} {input : List UInt8} {done : α → Prop}
    {fails : Fault → Prop} (ends_ : Ends (fun pair => done pair.1) fails (reader input 0)) :
    Ends done fails (reader.parse input) := by
  unfold Reader.parse
  rcases ran : reader input 0 with fault | pair
  · rwa [ran] at ends_
  · rwa [ran] at ends_

/-- A parse is inside exactly when the reader at the front is. -/
theorem inBounds_parse {reader : Reader α} {input : List UInt8} :
    InBounds (reader.parse input) ↔ InBounds (reader input 0) := by
  unfold parse
  cases reader input 0 with
  | error fault => simp [InBounds]
  | ok pair => simp

/-- A sized reader is inside exactly when its size is left. -/
theorem Sized.inBounds_iff {reader : Reader α} {size offset : Nat} {input : List UInt8}
    (sized : reader.Sized size) (inside : offset ≤ input.length) :
    InBounds (reader input offset) ↔ offset + size ≤ input.length := by
  by_cases enough : offset + size ≤ input.length
  · obtain ⟨value, ran⟩ := sized.reads input offset enough
    simp [ran, enough]
  · rw [sized.leaves input offset inside (by omega)]
    simp [InBounds, enough]

/-- A parser of a fixed size stays inside exactly the inputs that are long enough. -/
theorem Sized.inBounds_parse {reader : Reader α} {size : Nat} {input : List UInt8}
    (sized : reader.Sized size) : InBounds (reader.parse input) ↔ size ≤ input.length := by
  rw [Reader.inBounds_parse, sized.inBounds_iff (Nat.zero_le _), Nat.zero_add]

/-- A sized reader fails out of bounds only. -/
theorem Sized.parse_only {reader : Reader α} {size : Nat} (sized : reader.Sized size)
    (input : List UInt8) : OnlyOutOfBounds (reader.parse input) := by
  intro fault failed
  unfold parse at failed
  by_cases enough : 0 + size ≤ input.length
  · obtain ⟨value, ran⟩ := sized.reads input 0 enough
    rw [ran] at failed
    cases failed
  · rw [sized.leaves input 0 (Nat.zero_le _) (by omega)] at failed
    cases failed
    rfl

end Reader

end SimpleOprf.Basis
