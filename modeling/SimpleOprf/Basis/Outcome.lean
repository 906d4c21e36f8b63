import Mathlib.Data.List.GetD

/-!
# Outcomes of imperative code

Every modelled function returns an `Outcome`: a value, or the `Fault` that ends
the process. An access outside the buffer it addresses is a fault of its own,
so that a program which runs off a buffer can never be mistaken for one which
returns. `readAt`, `writeAt` and `slice` are the three ways the code touches a
buffer; their specification lemmas are all that later proofs use of them.
-/

namespace SimpleOprf.Basis

/-- The ways a modelled process can end without a result. -/
inductive Fault where
  /-- An access outside the addressed buffer; undefined behaviour in C++. -/
  | outOfBounds
  /-- A C++ exception carrying its message. -/
  | thrown (what : String)
  /-- An explicit `exit(1)` after the given message. -/
  | exited (message : String)
  /-- A Rust panic. -/
  | panicked (what : String)
  /-- A receive on a channel that holds no matching message. -/
  | starved
deriving DecidableEq, Repr

/-- A value or the fault that replaced it. -/
abbrev Outcome := Except Fault

namespace Outcome

variable {α β : Type}

/-- Sequencing succeeds exactly when both halves do. -/
theorem bind_eq_ok {first : Outcome α} {next : α → Outcome β} {result : β} :
    (first >>= next) = .ok result ↔ ∃ value, first = .ok value ∧ next value = .ok result := by
  cases first with
  | error fault => simp [bind, Except.bind]
  | ok value => simp [bind, Except.bind]

@[simp] theorem ok_bind (value : α) (next : α → Outcome β) :
    ((Except.ok value : Outcome α) >>= next) = next value := rfl

/-- Forgetting the fault keeps the results. -/
theorem toOption_eq_some {outcome : Outcome α} {value : α} :
    outcome.toOption = some value ↔ outcome = .ok value := by
  cases outcome with
  | error fault => simp [Except.toOption]
  | ok result => simp [Except.toOption]

/-- A loop whose body simulates one step of an abstract machine on every item
runs to the end and simulates the whole abstract run. -/
theorem foldlM_simulates {State Abstract Item : Type} {body : State → Item → Outcome State}
    {abstractBody : Abstract → Item → Abstract} (related : State → Abstract → Prop)
    (items : List Item)
    (step : ∀ state abstract, related state abstract → ∀ item ∈ items,
      ∃ next, body state item = .ok next ∧ related next (abstractBody abstract item))
    {state : State} {abstract : Abstract} (start : related state abstract) :
    ∃ final, items.foldlM body state = .ok final ∧
      related final (items.foldl abstractBody abstract) := by
  induction items generalizing state abstract with
  | nil => exact ⟨state, rfl, start⟩
  | cons item rest ih =>
    obtain ⟨next, ran, kept⟩ := step state abstract start item List.mem_cons_self
    have later := fun state abstract holds item member =>
      step state abstract holds item (List.mem_cons_of_mem _ member)
    obtain ⟨final, rested, finished⟩ := ih later kept
    exact ⟨final, by rw [List.foldlM_cons, ran, ok_bind, rested], finished⟩

/-- A map whose body succeeds on every item collects the values. -/
theorem mapM_eq_map {body : α → Outcome β} {value : α → β} {items : List α}
    (succeeds : ∀ item ∈ items, body item = .ok (value item)) :
    items.mapM body = .ok (items.map value) := by
  induction items with
  | nil => rfl
  | cons item rest ih =>
    have tail := ih fun other member => succeeds other (List.mem_cons_of_mem _ member)
    rw [List.mapM_cons, succeeds item List.mem_cons_self, ok_bind, tail]
    rfl

/-- A map returns one value for each item. -/
theorem length_of_mapM {body : α → Outcome β} {items : List α} {values : List β}
    (ran : items.mapM body = .ok values) : values.length = items.length := by
  induction items generalizing values with
  | nil =>
    cases ran
    rfl
  | cons item rest ih =>
    rw [List.mapM_cons] at ran
    obtain ⟨value, -, ran⟩ := bind_eq_ok.mp ran
    obtain ⟨later, tail, ran⟩ := bind_eq_ok.mp ran
    cases ran
    rw [List.length_cons, List.length_cons, ih tail]

/-- A loop of checks passes exactly when every check does. -/
theorem forM_eq_ok {ε : Type} {check : α → Except ε Unit} {items : List α} :
    items.forM check = .ok () ↔ ∀ item ∈ items, check item = .ok () := by
  induction items with
  | nil => simp [List.forM, pure, Except.pure]
  | cons item rest ih =>
    change (check item >>= fun _ => rest.forM check) = .ok () ↔ _
    rw [List.forall_mem_cons, ← ih]
    cases check item with
    | error fault => simp [bind, Except.bind]
    | ok value => simp [bind, Except.bind]

end Outcome

variable {α : Type}

/-- `xs[i]` on a vector. -/
def readAt (xs : List α) (index : Nat) : Outcome α :=
  match xs[index]? with
  | some value => .ok value
  | none => .error .outOfBounds

/-- `xs[i] = value` on a vector. -/
def writeAt (xs : List α) (index : Nat) (value : α) : Outcome (List α) :=
  if index < xs.length then .ok (xs.set index value) else .error .outOfBounds

/-- `count` elements from `start`, the source of a `memcpy` or of a slice. -/
def slice (fault : Fault) (xs : List α) (start count : Nat) : Outcome (List α) :=
  if start + count ≤ xs.length then .ok ((xs.drop start).take count) else .error fault

/-- The loop `for i < values.size(): xs[i] = values[i]`. -/
def storeFront (xs values : List α) : Outcome (List α) :=
  if values.length ≤ xs.length then .ok (values ++ xs.drop values.length) else .error .outOfBounds

/-- A read gives the element at the index. -/
theorem readAt_eq_ok {xs : List α} {index : Nat} {value : α} :
    readAt xs index = .ok value ↔ xs[index]? = some value := by
  unfold readAt
  cases found : xs[index]? <;> simp

/-- A read below the length succeeds. -/
theorem readAt_of_lt {xs : List α} {index : Nat} (inside : index < xs.length) :
    readAt xs index = .ok xs[index] := by
  rw [readAt_eq_ok, List.getElem?_eq_getElem inside]

/-- A total view of a vector: its entries, and `default` past its end. -/
theorem readAt_getD {xs : List α} {index : Nat} (fallback : α) (inside : index < xs.length) :
    readAt xs index = .ok (xs.getD index fallback) := by
  rw [readAt_of_lt inside, List.getD_eq_getElem _ _ inside]

/-- A write below the length succeeds. -/
theorem writeAt_of_lt {xs : List α} {index : Nat} (value : α) (inside : index < xs.length) :
    writeAt xs index value = .ok (xs.set index value) := by
  simp [writeAt, inside]

/-- Writing one entry updates the total view of the vector at that entry only. -/
theorem getD_set {xs : List α} {index : Nat} (value fallback : α) (inside : index < xs.length)
    (other : Nat) :
    (xs.set index value).getD other fallback =
      if other = index then value else xs.getD other fallback := by
  simp only [List.getD_eq_getElem?_getD, List.getElem?_set]
  by_cases same : index = other
  · subst same
    simp [inside]
  · simp [same, Ne.symm same]

/-- Values that fit replace the front. -/
theorem storeFront_of_le {xs values : List α} (fits : values.length ≤ xs.length) :
    storeFront xs values = .ok (values ++ xs.drop values.length) := by
  simp [storeFront, fits]

theorem slice_append {fault : Fault} (before middle after : List α) :
    slice fault (before ++ (middle ++ after)) before.length middle.length = .ok middle := by
  simp [slice]

/-- The slice of a field whose position and size are known. -/
theorem slice_field {fault : Fault} {before middle after : List α} {start count : Nat}
    (position : before.length = start) (size : middle.length = count) :
    slice fault (before ++ (middle ++ after)) start count = .ok middle := by
  subst position size
  exact slice_append before middle after

/-- A slice succeeds exactly when its end is inside. -/
theorem slice_eq_ok {fault : Fault} {xs ys : List α} {start count : Nat} :
    slice fault xs start count = .ok ys ↔
      start + count ≤ xs.length ∧ ys = (xs.drop start).take count := by
  unfold slice
  by_cases bounded : start + count ≤ xs.length
  · simp [bounded, eq_comm]
  · simp [bounded]

/-- The slice at the front of a long enough vector. -/
theorem slice_front {fault : Fault} {xs : List α} {count : Nat} (enough : count ≤ xs.length) :
    slice fault xs 0 count = .ok (xs.take count) := by
  rw [slice_eq_ok, Nat.zero_add, List.drop_zero]
  exact ⟨enough, rfl⟩

/-- The slice of the whole vector. -/
theorem slice_whole {fault : Fault} {xs : List α} {count : Nat} (sized : xs.length = count) :
    slice fault xs 0 count = .ok xs := by
  rw [slice_front (Nat.le_of_eq sized.symm), ← sized, List.take_length]

end SimpleOprf.Basis
