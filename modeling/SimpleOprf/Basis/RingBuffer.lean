import Mathlib.Data.Nat.ModEq
import Mathlib.Logic.Function.Basic
import SimpleOprf.Basis.Outcome

/-!
# Ring buffers and queues

A ring buffer keeps up to `n` elements in the slots behind a moving start. A
store is a queue when every push appends to what it holds and every pop takes
from its front; any sequence of calls then pops what was pushed, in order.
-/

namespace SimpleOprf.Basis

/-- Elements in the slots from `start` on, wrapping at the end. -/
structure RingBuffer (α : Type) (n : Nat) where
  slots : Fin n → α
  start : Nat
  size : Nat
  startInside : start < n
  fits : size ≤ n

namespace RingBuffer

variable {α : Type} {n : Nat}

/-- The slot of the element at distance `i` from the start. -/
def place (r : RingBuffer α n) (i : Nat) : Fin n :=
  ⟨(r.start + i) % n, Nat.mod_lt _ (Nat.zero_lt_of_lt r.startInside)⟩

/-- The elements, the oldest first. -/
def contents (r : RingBuffer α n) : List α := (List.range r.size).map fun i => r.slots (r.place i)

/-- The buffer with a value at its end. -/
def push (r : RingBuffer α n) (x : α) (room : r.size < n) : RingBuffer α n where
  slots := Function.update r.slots (r.place r.size) x
  start := r.start
  size := r.size + 1
  startInside := r.startInside
  fits := room

/-- Free the first slot, which is left with the given value. -/
def pop (r : RingBuffer α n) (vacated : α) : α × RingBuffer α n :=
  (r.slots (r.place 0), {
    slots := Function.update r.slots (r.place 0) vacated
    start := (r.start + 1) % n
    size := r.size - 1
    startInside := Nat.mod_lt _ (Nat.zero_lt_of_lt r.startInside)
    fits := Nat.le_trans (Nat.sub_le _ _) r.fits })

/-- Different positions lie in different slots. -/
theorem place_inj (r : RingBuffer α n) {i j : Nat} (left : i < n) (right : j < n) :
    r.place i = r.place j ↔ i = j := by
  constructor
  · intro same
    have congruent : Nat.ModEq n i j :=
      Nat.ModEq.add_left_cancel' r.start (Fin.val_eq_of_eq same)
    exact congruent.eq_of_lt_of_lt left right
  · rintro rfl
    rfl

theorem contents_eq_nil (r : RingBuffer α n) : r.contents = [] ↔ r.size = 0 := by
  rw [contents, List.map_eq_nil_iff, List.range_eq_nil]

/-- A push appends to the contents. -/
theorem contents_push (r : RingBuffer α n) (x : α) (room : r.size < n) :
    (r.push x room).contents = r.contents ++ [x] := by
  have kept : ∀ i ∈ List.range r.size, (r.push x room).slots ((r.push x room).place i) =
      r.slots (r.place i) := by
    intro i member
    have earlier := List.mem_range.mp member
    apply Function.update_of_ne
    intro same
    have equal := (r.place_inj (Nat.lt_trans earlier room) room).mp same
    omega
  have last : (r.push x room).slots ((r.push x room).place r.size) = x := Function.update_self ..
  rw [contents, show (r.push x room).size = r.size + 1 from rfl, List.range_succ, List.map_append,
    List.map_congr_left kept, List.map_singleton, last]
  rfl

/-- A pop takes the first of the contents. -/
theorem contents_pop (r : RingBuffer α n) (vacated : α) (nonempty : r.size ≠ 0) :
    r.contents = (r.pop vacated).1 :: (r.pop vacated).2.contents := by
  obtain ⟨size, sized⟩ := Nat.exists_eq_succ_of_ne_zero nonempty
  have moved : ∀ i, (r.pop vacated).2.place i = r.place (i + 1) := by
    intro i
    apply Fin.ext
    change ((r.start + 1) % n + i) % n = (r.start + (i + 1)) % n
    rw [Nat.mod_add_mod, Nat.add_assoc, Nat.add_comm 1 i]
  have kept : ∀ i ∈ List.range size,
      (r.pop vacated).2.slots ((r.pop vacated).2.place i) = r.slots (r.place (i + 1)) := by
    intro i member
    have later := List.mem_range.mp member
    have inside := r.fits
    rw [moved]
    apply Function.update_of_ne
    intro same
    have equal := (r.place_inj (show i + 1 < n by omega) (Nat.zero_lt_of_lt r.startInside)).mp same
    omega
  rw [contents, contents, show (r.pop vacated).2.size = r.size - 1 from rfl, sized,
    List.range_succ_eq_map, List.map_cons, List.map_map, Nat.succ_sub_one,
    List.map_congr_left kept]
  rfl

end RingBuffer

/-! ## Queues -/

/-- A call on a store: a message to push, or a variable to pop into. -/
inductive Call (μ : Type) where
  | push (m : μ)
  | pop (into : μ)

/-- The operations of a store. A push gives back what is left of the message, a
pop says whether it found one. -/
structure Store (σ μ : Type) where
  push : σ → μ → Outcome (μ × σ)
  pop : σ → μ → Outcome (Bool × μ × σ)

namespace Store

variable {σ μ ν : Type}

/-- The messages that the calls pop, in order, and the store after them. -/
def run (store : Store σ μ) : List (Call μ) → σ → Outcome (List μ × σ)
  | [], s => .ok ([], s)
  | .push m :: rest, s => do
    let (_, s) ← store.push s m
    store.run rest s
  | .pop into :: rest, s => do
    let (found, m, s) ← store.pop s into
    let (later, s) ← store.run rest s
    return (if found then m :: later else later, s)

/-- The messages that the calls push. -/
def pushed : List (Call μ) → List μ
  | [] => []
  | .push m :: rest => m :: pushed rest
  | .pop _ :: rest => pushed rest

/-- The store holds a queue of what `view` sees of the messages. -/
structure IsQueue (store : Store σ μ) (view : μ → ν) (holds : σ → List ν → Prop) : Prop where
  push : ∀ s queue m, holds s queue → ∃ left next, store.push s m = .ok (left, next) ∧
    holds next (queue ++ [view m])
  pop_nil : ∀ s into, holds s [] → ∃ m next, store.pop s into = .ok (false, m, next) ∧
    holds next []
  pop_cons : ∀ s front queue into, holds s (front :: queue) →
    ∃ m next, store.pop s into = .ok (true, m, next) ∧ view m = front ∧ holds next queue

/-- What was popped and what is still held is what was held and what was pushed. -/
theorem IsQueue.run {store : Store σ μ} {view : μ → ν} {holds : σ → List ν → Prop}
    (isQueue : store.IsQueue view holds) (calls : List (Call μ)) {s : σ} {queue : List ν}
    (start : holds s queue) : ∃ popped final rest, store.run calls s = .ok (popped, final) ∧
      holds final rest ∧ queue ++ (pushed calls).map view = popped.map view ++ rest := by
  induction calls generalizing s queue with
  | nil => exact ⟨[], s, queue, rfl, start, List.append_nil queue⟩
  | cons call calls ih =>
    cases call with
    | push m =>
      obtain ⟨left, next, ran, held⟩ := isQueue.push s queue m start
      obtain ⟨popped, final, rest, later, finished, order⟩ := ih held
      refine ⟨popped, final, rest, ?_, finished, ?_⟩
      · rw [Store.run, ran, Outcome.ok_bind]
        exact later
      · rw [← order, pushed, List.map_cons, List.append_cons]
    | pop into =>
      cases queue with
      | nil =>
        obtain ⟨m, next, ran, held⟩ := isQueue.pop_nil s into start
        obtain ⟨popped, final, rest, later, finished, order⟩ := ih held
        refine ⟨popped, final, rest, ?_, finished, order⟩
        rw [Store.run, ran, Outcome.ok_bind]
        dsimp only
        rw [later, Outcome.ok_bind]
        rfl
      | cons front queue =>
        obtain ⟨m, next, ran, same, held⟩ := isQueue.pop_cons s front queue into start
        obtain ⟨popped, final, rest, later, finished, order⟩ := ih held
        refine ⟨m :: popped, final, rest, ?_, finished, ?_⟩
        · rw [Store.run, ran, Outcome.ok_bind]
          dsimp only
          rw [later, Outcome.ok_bind]
          rfl
        · rw [List.map_cons, same, List.cons_append, List.cons_append, ← order, pushed]

end Store

end SimpleOprf.Basis
