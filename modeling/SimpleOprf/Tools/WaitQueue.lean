import SimpleOprf.Basis.Outcome

/-!
# Queues between two threads

`WaitQueue` as its only popping thread goes through it. The mutex makes a critical section
one step. `pop` has three: from `lock` to `wait` or `unlock`, from the end of `wait` to
`unlock`, and the `return running` after it.

`pthread_cond_wait` may end without a signal. `pop` tests its condition with `if`, so it
goes on as if there were a value. This is a step of its own here, `wake`.
-/

namespace SimpleOprf.Tools

open SimpleOprf.Basis

/-- Where the popping thread is. -/
inductive Consumer where
  | outside
  /-- In `pthread_cond_wait`. -/
  | waiting
  /-- Signalled, but without the mutex. -/
  | woken
  /-- Before `return running`. -/
  | leaving
deriving DecidableEq, Repr

/-- `WaitQueue`: its deque, its flag, and where its popping thread is. -/
structure WaitQueue (T : Type) where
  queue : List T
  running : Bool
  consumer : Consumer
deriving DecidableEq, Repr

namespace WaitQueue

variable {T : Type}

/-- A queue that has just been built. -/
def empty : WaitQueue T := ⟨[], true, .outside⟩

/-- `signal`: wakes the popping thread if it waits. -/
def signal (q : WaitQueue T) : WaitQueue T :=
  { q with consumer := if q.consumer = .waiting then .woken else q.consumer }

/-- `push`: the value joins the deque, and the popping thread is woken. -/
def push (q : WaitQueue T) (value : T) : WaitQueue T :=
  signal { q with queue := q.queue ++ [value] }

/-- `stop`. -/
def stop (q : WaitQueue T) : WaitQueue T := signal { q with running := false }

/-- What the popping thread has got from a step: the value that it has taken, and the
result of `pop` when it has returned. -/
structure Popped (T : Type) where
  value : Option T
  result : Option Bool
  queue : WaitQueue T
deriving DecidableEq, Repr

/-- `pop` after it has the mutex and does not wait. -/
def take (q : WaitQueue T) : Outcome (Popped T) :=
  if q.running then
    match q.queue with
    | [] => .error .outOfBounds
    | value :: rest => .ok ⟨some value, none, { q with queue := rest, consumer := .leaving }⟩
  else
    .ok ⟨none, none, { q with consumer := .leaving }⟩

/-- The next step of the thread that calls `pop`; a waiting thread has none. -/
def popStep (q : WaitQueue T) : Option (Outcome (Popped T)) :=
  match q.consumer with
  | .outside =>
    if q.running = true ∧ q.queue.isEmpty = true then
      some (.ok ⟨none, none, { q with consumer := .waiting }⟩)
    else
      some q.take
  | .waiting => none
  | .woken => some q.take
  | .leaving => some (.ok ⟨none, some q.running, { q with consumer := .outside }⟩)

/-- The wait ends without a signal. -/
def wake (q : WaitQueue T) : Option (WaitQueue T) :=
  if q.consumer = .waiting then some { q with consumer := .woken } else none

/-- After a wait that ends without a signal, `pop` takes the front of an empty queue. -/
theorem popStep_of_wake {q q' : WaitQueue T} (woken : q.wake = some q')
    (running : q.running = true) (empty : q.queue = []) :
    q'.popStep = some (.error .outOfBounds) := by
  obtain ⟨-, same⟩ := Option.ite_none_right_eq_some.mp woken
  cases same
  obtain ⟨queue, running, consumer⟩ := q
  cases running
  cases empty
  rfl

/-- After a signal nobody waits. -/
theorem consumer_signal_ne (q : WaitQueue T) : q.signal.consumer ≠ .waiting := by
  unfold signal
  dsimp only
  split
  · exact Consumer.noConfusion
  · assumption

end WaitQueue

end SimpleOprf.Tools
