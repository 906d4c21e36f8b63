import SimpleOprf.Basis.ForkJoin
import SimpleOprf.Tools.WaitQueue

/-!
# Worker threads

`YaoAndJob` with its `Worker`, and the thread that dispatches jobs to the workers and
waits for them. Threads take their steps in any order.

`Shows` relates the threads to the machine of the library and `Settles` brings them
back to a state that the machine has. A measure that every step lowers shows that
every run ends.
-/

namespace SimpleOprf.Yao

open Relation SimpleOprf.Basis SimpleOprf.Tools

/-- Where the thread of a worker is in `Worker::run`. -/
inductive WorkerThread (α : Type) where
  | popping
  /-- Before `job->run()`. -/
  | starting
  | running (rest : List α)
  | pushing (res : Int)
  | exited
deriving DecidableEq, Repr

/-- A job object with its worker. -/
structure YaoAndJob (α : Type) where
  /-- The tasks that the type and the arguments stand for; `none` for `YAO_NO_JOB`. -/
  job : Option (List α)
  /-- The only job that a worker is given is the one that it belongs to. -/
  input : WaitQueue Unit
  output : WaitQueue Int
  thread : WorkerThread α
  /-- The local variable of `Worker::run`, at first null. -/
  pointer : Option Unit
deriving DecidableEq, Repr

namespace YaoAndJob

variable {α : Type}

/-- A worker that has just been built. -/
def new : YaoAndJob α := ⟨none, .empty, .empty, .popping, none⟩

/-- The next step of the worker's thread, with the task that it performs. -/
def step (w : YaoAndJob α) : Option (Outcome (Option α × YaoAndJob α)) :=
  match w.thread with
  | .popping => w.input.popStep.map fun outcome => outcome.map fun popped =>
      (none, { w with
        input := popped.queue
        pointer := popped.value.or w.pointer
        thread := match popped.result with
          | none => .popping
          | some true => .starting
          | some false => .exited })
  | .starting => some <| match w.pointer, w.job with
    | none, _ => .error .outOfBounds
    | some _, none => .error (.thrown "job not specified: 2")
    | some _, some tasks => .ok (none, { w with thread := .running tasks })
  | .running (task :: rest) => some (.ok (some task, { w with thread := .running rest }))
  | .running [] => some (.ok (none, { w with job := none, thread := .pushing 0 }))
  | .pushing res => some (.ok (none, { w with output := w.output.push res, thread := .popping }))
  | .exited => none

end YaoAndJob

/-- The thread that runs the instructions, and the workers. -/
structure YaoThreads (α : Type) where
  program : List (Command α)
  /-- The worker that `dispatch` has still to request, its fields being written. -/
  requesting : Option Nat
  workers : Nat → YaoAndJob α
  trace : List α

namespace YaoThreads

variable {α : Type}

/-- The threads with another state of worker `i`. -/
def setWorker (s : YaoThreads α) (i : Nat) (w : YaoAndJob α) : YaoThreads α :=
  { s with workers := Function.update s.workers i w }

/-- The next step of the main thread, of `n` workers. A job is forked by `dispatch` and
joined by `Worker::done`. The destructor of a worker stops and reaps it. -/
def mainStep (n : Nat) (s : YaoThreads α) : Option (Outcome (YaoThreads α)) :=
  match s.requesting, s.program with
  | some i, _ =>
    let w := s.workers i
    some (.ok { s.setWorker i { w with input := w.input.push () } with requesting := none })
  | none, [] => none
  | none, .perform task :: program => some (.ok { s with program, trace := s.trace ++ [task] })
  | none, .fork i job :: program =>
    if i < n then
      let w := s.workers i
      some (.ok { s.setWorker i { w with job := some job } with program, requesting := some i })
    else some (.error .outOfBounds)
  | none, .join i :: program =>
    if i < n then
      let w := s.workers i
      w.output.popStep.map fun outcome => outcome.map fun popped =>
        { s.setWorker i { w with output := popped.queue } with
          program := if popped.result.isSome then program else s.program }
    else some (.error .outOfBounds)
  | none, .stop i :: program =>
    if i < n then
      let w := s.workers i
      some (.ok { s.setWorker i { w with input := w.input.stop } with program })
    else some (.error .outOfBounds)
  | none, .reap i :: program =>
    if i < n then
      match (s.workers i).thread with
      | .exited => some (.ok { s with program })
      | _ => none
    else some (.error .outOfBounds)

/-- A thread of the party. -/
inductive Id where
  | main
  | worker (i : Nat)
deriving DecidableEq, Repr

/-- The next step of a thread, unless it is blocked or has ended. -/
def step (n : Nat) (s : YaoThreads α) : Id → Option (Outcome (YaoThreads α))
  | .main => s.mainStep n
  | .worker i =>
    if i < n then
      (s.workers i).step.map fun outcome => outcome.map fun (task, w) =>
        { s.setWorker i w with trace := s.trace ++ task.toList }
    else none

/-- A wait of a thread ends without a signal: that of the main thread in `Worker::done`, or
that of a worker for its next job. -/
def wake (n : Nat) (s : YaoThreads α) : Id → Option (YaoThreads α)
  | .main =>
    match s.requesting, s.program with
    | none, .join i :: _ =>
      (s.workers i).output.wake.map fun output => s.setWorker i { s.workers i with output }
    | _, _ => none
  | .worker i =>
    if i < n then
      match (s.workers i).thread with
      | .popping =>
        (s.workers i).input.wake.map fun input => s.setWorker i { s.workers i with input }
      | _ => none
    else none

/-- Any thread takes a step. Waits end by a signal only; `wake` is not one of the steps. -/
def Step (n : Nat) (s s' : YaoThreads α) : Prop := ∃ thread, s.step n thread = some (.ok s')

/-- `YaoCommon::init`, some blocks, and the destructor. -/
def start (n : Nat) (blocks : List (Block α)) : YaoThreads α where
  program := blocks.flatMap Block.commands ++ Machine.shutdown n
  requesting := none
  workers _ := .new
  trace := []

end YaoThreads

/-! ## What a worker stands for -/

/-- The phase that a worker is in; the flag says that it is still to be requested. -/
inductive YaoAndJob.Represents {α : Type} : Bool → YaoAndJob α → Phase α → Prop
  | idle {c : Consumer} {p : Option Unit} (quiet : c = .outside ∨ c = .waiting) :
      Represents false ⟨none, ⟨[], true, c⟩, .empty, .popping, p⟩ .idle
  | written {tasks : List α} {c : Consumer} {p : Option Unit}
      (quiet : c = .outside ∨ c = .waiting) :
      Represents true ⟨some tasks, ⟨[], true, c⟩, .empty, .popping, p⟩ (.busy tasks)
  | requested {tasks : List α} {c d : Consumer} {p : Option Unit}
      (called : c = .outside ∨ c = .woken) (awaited : d = .outside ∨ d = .waiting) :
      Represents false ⟨some tasks, ⟨[()], true, c⟩, ⟨[], true, d⟩, .popping, p⟩ (.busy tasks)
  | taken {tasks : List α} {d : Consumer} (awaited : d = .outside ∨ d = .waiting) :
      Represents false ⟨some tasks, ⟨[], true, .leaving⟩, ⟨[], true, d⟩, .popping, some ()⟩
        (.busy tasks)
  | starting {tasks : List α} {d : Consumer} (awaited : d = .outside ∨ d = .waiting) :
      Represents false ⟨some tasks, .empty, ⟨[], true, d⟩, .starting, some ()⟩ (.busy tasks)
  | running {job rest : List α} {d : Consumer} (awaited : d = .outside ∨ d = .waiting) :
      Represents false ⟨some job, .empty, ⟨[], true, d⟩, .running rest, some ()⟩ (.busy rest)
  | pushing {d : Consumer} (awaited : d = .outside ∨ d = .waiting) :
      Represents false ⟨none, .empty, ⟨[], true, d⟩, .pushing 0, some ()⟩ (.busy [])
  | finished {c d : Consumer} (quiet : c = .outside ∨ c = .waiting)
      (called : d = .outside ∨ d = .woken) :
      Represents false ⟨none, ⟨[], true, c⟩, ⟨[0], true, d⟩, .popping, some ()⟩ .finished
  | collected {c : Consumer} (quiet : c = .outside ∨ c = .waiting) :
      Represents false ⟨none, ⟨[], true, c⟩, ⟨[], true, .leaving⟩, .popping, some ()⟩ .finished
  | stopped {c : Consumer} {p : Option Unit} (called : c ≠ .waiting) :
      Represents false ⟨none, ⟨[], false, c⟩, .empty, .popping, p⟩ .stopped
  | exited {p : Option Unit} :
      Represents false ⟨none, ⟨[], false, .outside⟩, .empty, .exited, p⟩ .stopped
  | reaped {p : Option Unit} :
      Represents false ⟨none, ⟨[], false, .outside⟩, .empty, .exited, p⟩ .reaped

namespace YaoAndJob

variable {α : Type} {w : YaoAndJob α} {p : Phase α} {flag : Bool}

/-- A step of a worker's thread keeps its phase, performs the next task of the job, or
finishes it. It never fails. -/
inductive Moves (flag : Bool) (p : Phase α) : Option α → YaoAndJob α → Prop
  | stays {w' : YaoAndJob α} (same : Represents flag w' p) : Moves flag p none w'
  | task {task : α} {rest : List α} {w' : YaoAndJob α} (next : p = .busy (task :: rest))
      (later : Represents flag w' (.busy rest)) : Moves flag p (some task) w'
  | finish {w' : YaoAndJob α} (last : p = .busy []) (done : Represents flag w' .finished) :
      Moves flag p none w'

/-- A step of a worker that shows a phase moves the phase. -/
theorem Represents.step (shown : Represents flag w p) {r : Outcome (Option α × YaoAndJob α)}
    (moved : w.step = some r) : ∃ task w', r = .ok (task, w') ∧ Moves flag p task w' := by
  cases shown with
  | idle quiet =>
    rcases quiet with rfl | rfl
    · cases moved
      exact ⟨none, _, rfl, .stays (.idle (.inr rfl))⟩
    · cases moved
  | written quiet =>
    rcases quiet with rfl | rfl
    · cases moved
      exact ⟨none, _, rfl, .stays (.written (.inr rfl))⟩
    · cases moved
  | requested called awaited =>
    rcases called with rfl | rfl
    · cases moved
      exact ⟨none, _, rfl, .stays (.taken awaited)⟩
    · cases moved
      exact ⟨none, _, rfl, .stays (.taken awaited)⟩
  | taken awaited =>
    cases moved
    exact ⟨none, _, rfl, .stays (.starting awaited)⟩
  | starting awaited =>
    cases moved
    exact ⟨none, _, rfl, .stays (.running awaited)⟩
  | @running job rest d awaited =>
    cases rest with
    | nil =>
      cases moved
      exact ⟨none, _, rfl, .stays (.pushing awaited)⟩
    | cons task rest =>
      cases moved
      exact ⟨some task, _, rfl, .task rfl (.running awaited)⟩
  | pushing awaited =>
    cases moved
    refine ⟨none, _, rfl, .finish rfl ?_⟩
    rcases awaited with rfl | rfl
    · exact .finished (.inl rfl) (.inl rfl)
    · exact .finished (.inl rfl) (.inr rfl)
  | finished quiet called =>
    rcases quiet with rfl | rfl
    · cases moved
      exact ⟨none, _, rfl, .stays (.finished (.inr rfl) called)⟩
    · cases moved
  | collected quiet =>
    rcases quiet with rfl | rfl
    · cases moved
      exact ⟨none, _, rfl, .stays (.collected (.inr rfl))⟩
    · cases moved
  | @stopped c q called =>
    cases c with
    | outside =>
      cases moved
      exact ⟨none, _, rfl, .stays (.stopped (by decide))⟩
    | waiting => exact absurd rfl called
    | woken =>
      cases moved
      exact ⟨none, _, rfl, .stays (.stopped (by decide))⟩
    | leaving =>
      cases moved
      exact ⟨none, _, rfl, .stays .exited⟩
  | exited => cases moved
  | reaped => cases moved

/-- `dispatch` writes the fields of a worker that does nothing. -/
theorem Represents.dispatch (shown : Represents false w .idle) (tasks : List α) :
    Represents true { w with job := some tasks } (.busy tasks) := by
  cases shown with
  | idle quiet => exact .written quiet

/-- A request starts the job that was dispatched. -/
theorem Represents.request (shown : Represents true w p) :
    Represents false { w with input := w.input.push () } p := by
  cases shown with
  | written quiet =>
    rcases quiet with rfl | rfl
    · exact .requested (.inl rfl) (.inl rfl)
    · exact .requested (.inr rfl) (.inl rfl)

/-- `Worker::done` waits for the job or goes on when it is finished. -/
theorem Represents.done (shown : Represents false w p) (working : p.turn = .working)
    {r : Outcome (WaitQueue.Popped Int)} (moved : w.output.popStep = some r) :
    ∃ popped, r = .ok popped ∧
      ((popped.result.isSome = false ∧ Represents false { w with output := popped.queue } p) ∨
        (popped.result.isSome = true ∧ p = .finished ∧
          Represents false { w with output := popped.queue } .idle)) := by
  cases shown with
  | idle quiet => cases working
  | requested called awaited =>
    rcases awaited with rfl | rfl
    · cases moved
      exact ⟨_, rfl, .inl ⟨rfl, .requested called (.inr rfl)⟩⟩
    · cases moved
  | taken awaited =>
    rcases awaited with rfl | rfl
    · cases moved
      exact ⟨_, rfl, .inl ⟨rfl, .taken (.inr rfl)⟩⟩
    · cases moved
  | starting awaited =>
    rcases awaited with rfl | rfl
    · cases moved
      exact ⟨_, rfl, .inl ⟨rfl, .starting (.inr rfl)⟩⟩
    · cases moved
  | running awaited =>
    rcases awaited with rfl | rfl
    · cases moved
      exact ⟨_, rfl, .inl ⟨rfl, .running (.inr rfl)⟩⟩
    · cases moved
  | pushing awaited =>
    rcases awaited with rfl | rfl
    · cases moved
      exact ⟨_, rfl, .inl ⟨rfl, .pushing (.inr rfl)⟩⟩
    · cases moved
  | finished quiet called =>
    rcases called with rfl | rfl
    · cases moved
      exact ⟨_, rfl, .inl ⟨rfl, .collected quiet⟩⟩
    · cases moved
      exact ⟨_, rfl, .inl ⟨rfl, .collected quiet⟩⟩
  | collected quiet =>
    cases moved
    exact ⟨_, rfl, .inr ⟨rfl, rfl, .idle quiet⟩⟩
  | stopped called => cases working
  | exited => cases working
  | reaped => cases working

/-- A stop ends an idle worker. -/
theorem Represents.stop (shown : Represents false w .idle) :
    Represents false { w with input := w.input.stop } .stopped := by
  cases shown with
  | idle quiet => exact .stopped (WaitQueue.consumer_signal_ne _)

/-- A worker that was stopped is joined once it has exited. -/
theorem Represents.reap (shown : Represents false w .stopped) (ended : w.thread = .exited) :
    Represents false w .reaped := by
  cases shown with
  | stopped called => cases ended
  | exited => exact .reaped

/-- A joined worker has exited. -/
theorem Represents.exited_of_reaped (shown : Represents flag w .reaped) : w.thread = .exited := by
  cases shown with
  | reaped => rfl

/-- While the main thread waits for a job, its worker can go on. -/
theorem Represents.step_of_waiting (shown : Represents false w p) (working : p.turn = .working)
    (waits : w.output.popStep = none) : w.step ≠ none := by
  cases shown with
  | requested called awaited => rcases called with rfl | rfl <;> exact Option.some_ne_none _
  | taken awaited => exact Option.some_ne_none _
  | starting awaited => exact Option.some_ne_none _
  | @running job rest d awaited => cases rest <;> exact Option.some_ne_none _
  | pushing awaited => exact Option.some_ne_none _
  | finished quiet called => rcases called with rfl | rfl <;> cases waits
  | collected quiet => cases waits
  | idle quiet => cases working
  | stopped called => cases working
  | exited => cases working
  | reaped => cases working

/-- A worker waits for a job when it has none. -/
theorem Represents.input_waiting (shown : Represents flag w p)
    (waits : w.input.consumer = .waiting) : w.input.running = true ∧ w.input.queue = [] := by
  cases shown with
  | idle quiet => exact ⟨rfl, rfl⟩
  | written quiet => exact ⟨rfl, rfl⟩
  | finished quiet called => exact ⟨rfl, rfl⟩
  | collected quiet => exact ⟨rfl, rfl⟩
  | requested called awaited =>
    dsimp only at waits
    rcases called with rfl | rfl <;> cases waits
  | stopped called => exact absurd waits called
  | taken awaited => cases waits
  | starting awaited => cases waits
  | running awaited => cases waits
  | pushing awaited => cases waits
  | exited => cases waits
  | reaped => cases waits

/-- The main thread waits for a job that has not been finished. -/
theorem Represents.output_waiting (shown : Represents flag w p)
    (waits : w.output.consumer = .waiting) : w.output.running = true ∧ w.output.queue = [] := by
  cases shown with
  | requested called awaited => exact ⟨rfl, rfl⟩
  | taken awaited => exact ⟨rfl, rfl⟩
  | starting awaited => exact ⟨rfl, rfl⟩
  | running awaited => exact ⟨rfl, rfl⟩
  | pushing awaited => exact ⟨rfl, rfl⟩
  | finished quiet called =>
    dsimp only at waits
    rcases called with rfl | rfl <;> cases waits
  | idle quiet => cases waits
  | written quiet => cases waits
  | collected quiet => cases waits
  | stopped called => cases waits
  | exited => cases waits
  | reaped => cases waits

/-- A stopped worker can go on until its thread has ended. -/
theorem Represents.step_of_stopped (shown : Represents false w .stopped)
    (alive : w.thread ≠ .exited) : w.step ≠ none := by
  cases shown with
  | @stopped c q called =>
    cases c with
    | waiting => exact absurd rfl called
    | _ => exact Option.some_ne_none _
  | exited => exact absurd rfl alive

end YaoAndJob

namespace YaoThreads

variable {α : Type} {n : Nat} {s : YaoThreads α} {m : Machine α}

/-- The threads stand for a fork-join machine. -/
structure Shows (s : YaoThreads α) (m : Machine α) : Prop where
  program : m.program = s.program
  trace : m.trace = s.trace
  workers : ∀ i, (s.workers i).Represents (decide (s.requesting = some i)) (m.workers i)

/-- What a worker stands for when no dispatch is under way. -/
theorem Shows.worker (shown : Shows s m) (calm : s.requesting = none) (i : Nat) :
    (s.workers i).Represents false (m.workers i) := by
  have known := shown.workers i
  rw [calm] at known
  exact known

/-- One worker changes. -/
theorem represents_update {r r' : Option Nat} {ws : Nat → YaoAndJob α} {ps : Nat → Phase α}
    {i : Nat} {w : YaoAndJob α} {p : Phase α}
    (shown : ∀ j, (ws j).Represents (decide (r = some j)) (ps j))
    (here : w.Represents (decide (r' = some i)) p)
    (same : ∀ j, j ≠ i → decide (r' = some j) = decide (r = some j)) (j : Nat) :
    (Function.update ws i w j).Represents (decide (r' = some j)) (Function.update ps i p j) := by
  by_cases at_i : j = i
  · subst at_i
    rw [Function.update_self, Function.update_self]
    exact here
  · rw [Function.update_of_ne at_i, Function.update_of_ne at_i, same j at_i]
    exact shown j

/-- One worker changes but keeps its phase. -/
theorem represents_keep {r r' : Option Nat} {ws : Nat → YaoAndJob α} {ps : Nat → Phase α}
    {i : Nat} {w : YaoAndJob α}
    (shown : ∀ j, (ws j).Represents (decide (r = some j)) (ps j))
    (here : w.Represents (decide (r' = some i)) (ps i))
    (same : ∀ j, j ≠ i → decide (r' = some j) = decide (r = some j)) (j : Nat) :
    (Function.update ws i w j).Represents (decide (r' = some j)) (ps j) := by
  have updated := represents_update shown here same j
  rwa [Function.update_eq_self] at updated

/-- A step of a worker's thread is a step of the machine or none. -/
theorem Shows.worker_step (shown : Shows s m) {i : Nat} {task : Option α} {w : YaoAndJob α}
    (moves : YaoAndJob.Moves (decide (s.requesting = some i)) (m.workers i) task w) :
    ∃ m', ReflTransGen Machine.Step m m' ∧
      Shows { s.setWorker i w with trace := s.trace ++ task.toList } m' := by
  obtain ⟨program, workers, trace⟩ := m
  obtain ⟨rfl, rfl, known⟩ := shown
  cases moves with
  | stays same =>
    exact ⟨_, .refl, ⟨rfl, (List.append_nil _).symm, represents_keep known same fun _ _ => rfl⟩⟩
  | task next later =>
    exact ⟨_, .single (.task next), ⟨rfl, rfl, represents_update known later fun _ _ => rfl⟩⟩
  | finish last done =>
    exact ⟨_, .single (.finish last),
      ⟨rfl, (List.append_nil _).symm, represents_update known done fun _ _ => rfl⟩⟩

/-- A step of the main thread is a step of the machine or none, and does not fail. -/
theorem Shows.main_step (shown : Shows s m) (legal : m.Legal n) {r : Outcome (YaoThreads α)}
    (moved : s.mainStep n = some r) :
    ∃ s', r = .ok s' ∧ ∃ m', ReflTransGen Machine.Step m m' ∧ Shows s' m' := by
  obtain ⟨program, requesting, ws, trace⟩ := s
  obtain ⟨program', workers, trace'⟩ := m
  obtain ⟨rfl, rfl, known⟩ := shown
  dsimp only at known
  cases requesting with
  | some i =>
    cases moved
    have requested := known i
    rw [decide_eq_true rfl] at requested
    refine ⟨_, rfl, _, .refl, ⟨rfl, rfl, represents_keep known requested.request fun j away => ?_⟩⟩
    exact (decide_eq_false fun same => away (Option.some.inj same).symm).symm
  | none =>
    have bound : ∀ c ∈ program', ∀ i, c.worker = some i → i < n := legal.known
    cases program' with
    | nil => cases moved
    | cons c program =>
      cases c with
      | perform task =>
        cases moved
        exact ⟨_, rfl, _, .single .perform, ⟨rfl, rfl, known⟩⟩
      | fork i job =>
        change (if i < n then _ else _) = _ at moved
        rw [if_pos (bound _ List.mem_cons_self i rfl)] at moved
        cases moved
        have free : workers i = .idle := legal.free_of_fork rfl
        have idle : (ws i).Represents false .idle := free ▸ known i
        have busy := idle.dispatch job
        refine ⟨_, rfl, _, .single (.fork free), ⟨rfl, rfl, represents_update known ?_ ?_⟩⟩
        · rw [decide_eq_true rfl]
          exact busy
        · exact fun j away => decide_eq_false fun same => away (Option.some.inj same).symm
      | join i =>
        change (if i < n then _ else _) = _ at moved
        rw [if_pos (bound _ List.mem_cons_self i rfl)] at moved
        obtain ⟨outcome, popped, rfl⟩ := Option.map_eq_some_iff.mp moved
        have working : (workers i).turn = .working := legal.working_of_join rfl
        have shown : (ws i).Represents false (workers i) := known i
        obtain ⟨popped, rfl, ⟨waits, same⟩ | ⟨ready, ended, idle⟩⟩ := shown.done working popped
        · refine ⟨_, rfl, _, .refl, ⟨?_, rfl, represents_keep known same fun _ _ => rfl⟩⟩
          exact (if_neg (by rw [waits]; exact Bool.false_ne_true)).symm
        · refine ⟨_, rfl, _, .single (.join ended), ⟨?_, rfl,
            represents_update known idle fun _ _ => rfl⟩⟩
          exact (if_pos ready).symm
      | stop i =>
        change (if i < n then _ else _) = _ at moved
        rw [if_pos (bound _ List.mem_cons_self i rfl)] at moved
        cases moved
        have free : workers i = .idle := legal.free_of_stop rfl
        have idle : (ws i).Represents false .idle := free ▸ known i
        exact ⟨_, rfl, _, .single (.stop free),
          ⟨rfl, rfl, represents_update known idle.stop fun _ _ => rfl⟩⟩
      | reap i =>
        change (if i < n then _ else _) = _ at moved
        rw [if_pos (bound _ List.mem_cons_self i rfl)] at moved
        have stopped : workers i = .stopped := legal.stopped_of_reap rfl
        have shown : (ws i).Represents false .stopped := stopped ▸ known i
        split at moved
        · cases moved
          refine ⟨_, rfl, _, .single (.reap stopped), ⟨rfl, rfl, fun j => ?_⟩⟩
          have gone : (ws i).Represents (decide (none = some i)) .reaped := shown.reap ‹_›
          have updated := represents_update known gone (fun _ _ => rfl) j
          rwa [Function.update_eq_self] at updated
        · cases moved

/-- A step of any thread is a step of the machine or none, and does not fail. -/
theorem Shows.step (shown : Shows s m) (legal : m.Legal n) {thread : Id}
    {r : Outcome (YaoThreads α)} (moved : s.step n thread = some r) :
    ∃ s', r = .ok s' ∧ ∃ m', ReflTransGen Machine.Step m m' ∧ Shows s' m' := by
  cases thread with
  | main => exact shown.main_step legal moved
  | worker i =>
    rw [YaoThreads.step] at moved
    split at moved
    · obtain ⟨outcome, went, rfl⟩ := Option.map_eq_some_iff.mp moved
      obtain ⟨task, w, rfl, moves⟩ := (shown.workers i).step went
      exact ⟨_, rfl, shown.worker_step moves⟩
    · cases moved

/-- The threads start as the machine does. -/
theorem start_shows (n : Nat) (blocks : List (Block α)) :
    Shows (start n blocks) (Machine.start n blocks) :=
  ⟨rfl, rfl, fun _ => .idle (.inl rfl)⟩

/-- Every reachable state stands for a reachable state of the machine. -/
theorem exists_machine {blocks : List (Block α)} (fits : Machine.Fits n blocks)
    (run : ReflTransGen (Step n) (start n blocks) s) :
    ∃ m, ReflTransGen Machine.Step (Machine.start n blocks) m ∧ m.Legal n ∧ Shows s m := by
  induction run with
  | refl => exact ⟨_, .refl, Machine.start_legal fits, start_shows n blocks⟩
  | tail _ step ih =>
    obtain ⟨m, reached, legal, shown⟩ := ih
    obtain ⟨thread, moved⟩ := step
    obtain ⟨s', same, m', onwards, later⟩ := shown.step legal moved
    cases same
    exact ⟨m', reached.trans onwards, Machine.legal_of_run legal onwards, later⟩

/-- No thread ever fails. -/
theorem never_fails {blocks : List (Block α)} (fits : Machine.Fits n blocks)
    (run : ReflTransGen (Step n) (start n blocks) s) (thread : Id) (fault : Fault) :
    s.step n thread ≠ some (.error fault) := by
  intro failed
  obtain ⟨m, -, legal, shown⟩ := exists_machine fits run
  obtain ⟨s', impossible, -⟩ := shown.step legal failed
  cases impossible

/-- A thread whose wait ends without a signal takes the front of an empty queue next. -/
theorem wake_fails {blocks : List (Block α)} (fits : Machine.Fits n blocks)
    (run : ReflTransGen (Step n) (start n blocks) s) {thread : Id} {s' : YaoThreads α}
    (woken : s.wake n thread = some s') : s'.step n thread = some (.error .outOfBounds) := by
  obtain ⟨m, -, legal, shown⟩ := exists_machine fits run
  have waiting : ∀ {T : Type} {q q' : WaitQueue T}, q.wake = some q' → q.consumer = .waiting :=
    fun woken => (Option.ite_none_right_eq_some.mp woken).1
  cases thread with
  | main =>
    obtain ⟨program, requesting, ws, trace⟩ := s
    rw [YaoThreads.wake] at woken
    split at woken
    · rename_i i rest calm ahead
      dsimp only at calm ahead woken
      subst calm ahead
      obtain ⟨output, awake, rfl⟩ := Option.map_eq_some_iff.mp woken
      have inside : i < n := by
        refine legal.known (.join i) ?_ i rfl
        rw [shown.program]
        exact List.mem_cons_self
      obtain ⟨running, empty⟩ := (shown.workers i).output_waiting (waiting awake)
      refine (if_pos inside).trans ?_
      simp only [setWorker, Function.update_self,
        WaitQueue.popStep_of_wake awake running empty, Option.map_some, Except.map]
    · cases woken
  | worker i =>
    obtain ⟨inside, woken⟩ := Option.ite_none_right_eq_some.mp woken
    split at woken
    · rename_i popping
      obtain ⟨input, awake, rfl⟩ := Option.map_eq_some_iff.mp woken
      obtain ⟨running, empty⟩ := (shown.workers i).input_waiting (waiting awake)
      refine (if_pos inside).trans ?_
      simp only [setWorker, Function.update_self, YaoAndJob.step, popping,
        WaitQueue.popStep_of_wake awake running empty, Option.map_some, Except.map]
    · cases woken

/-- Threads that are all blocked have come to their ends. -/
theorem Shows.ended (shown : Shows s m) (legal : m.Legal n)
    (blocked : ∀ thread, s.step n thread = none) : m.program = [] := by
  have main := blocked .main
  have workers : ∀ i, i < n → (s.workers i).step = none := by
    intro i known
    have none := blocked (.worker i)
    rw [YaoThreads.step, if_pos known] at none
    exact Option.map_eq_none_iff.mp none
  obtain ⟨program, requesting, ws, trace⟩ := s
  obtain ⟨program', phases, trace'⟩ := m
  obtain ⟨rfl, rfl, known⟩ := shown
  dsimp only at known workers
  cases requesting with
  | some i => cases main
  | none =>
    have bound : ∀ c ∈ program', ∀ i, c.worker = some i → i < n := legal.known
    cases program' with
    | nil => rfl
    | cons c program =>
      cases c with
      | perform task => cases main
      | fork i job =>
        change (if i < n then _ else _) = _ at main
        split at main <;> cases main
      | join i =>
        have inside := bound _ List.mem_cons_self i rfl
        change (if i < n then _ else _) = _ at main
        rw [if_pos inside] at main
        have working : (phases i).turn = .working := legal.working_of_join rfl
        have shown : (ws i).Represents false (phases i) := known i
        exact absurd (workers i inside)
          (shown.step_of_waiting working (Option.map_eq_none_iff.mp main))
      | stop i =>
        change (if i < n then _ else _) = _ at main
        split at main <;> cases main
      | reap i =>
        have inside := bound _ List.mem_cons_self i rfl
        change (if i < n then _ else _) = _ at main
        rw [if_pos inside] at main
        have stopped : phases i = .stopped := legal.stopped_of_reap rfl
        have shown : (ws i).Represents false .stopped := stopped ▸ known i
        refine absurd (workers i inside) (shown.step_of_stopped fun ended => ?_)
        dsimp only at main
        rw [ended] at main
        cases main

end YaoThreads

/-! ## Every run ends -/

/-- An upper bound on the steps left inside `pop`. -/
def consumerCost : Consumer → Nat
  | .outside => 3
  | .waiting => 2
  | .woken => 2
  | .leaving => 1

/-- A signal costs the popping thread nothing. -/
theorem consumerCost_signal {T : Type} (q : WaitQueue T) :
    consumerCost q.signal.consumer = consumerCost q.consumer := by
  unfold WaitQueue.signal
  dsimp only
  split
  · rw [‹q.consumer = .waiting›]
    rfl
  · rfl

namespace YaoAndJob

variable {α : Type}

/-- The steps that a job takes at most. -/
def jobCost : Option (List α) → Nat
  | none => 0
  | some tasks => tasks.length + 10

/-- The steps that a worker's thread can take before it gets another job. -/
def threadCost (w : YaoAndJob α) : Nat :=
  match w.thread with
  | .popping => consumerCost w.input.consumer + jobCost w.job
  | .starting => jobCost w.job
  | .running rest => rest.length + 6
  | .pushing _ => 5 + jobCost w.job
  | .exited => 0

/-- The steps that are left at most. -/
def cost (w : YaoAndJob α) : Nat := w.threadCost + consumerCost w.output.consumer

end YaoAndJob

/-- Every step of `pop` costs something, and returning leaves three for the next call. -/
theorem consumerCost_popStep {T : Type} {q : WaitQueue T} {popped : WaitQueue.Popped T}
    (moved : q.popStep = some (.ok popped)) :
    (popped.result = none ∧ consumerCost popped.queue.consumer < consumerCost q.consumer) ∨
      (popped.result.isSome = true ∧ consumerCost popped.queue.consumer = 3 ∧
        consumerCost q.consumer = 1) := by
  have taken : ∀ {popped : WaitQueue.Popped T}, q.take = .ok popped →
      popped.result = none ∧ popped.queue.consumer = .leaving := by
    intro popped took
    unfold WaitQueue.take at took
    split at took
    · split at took
      · cases took
      · cases took
        exact ⟨rfl, rfl⟩
    · cases took
      exact ⟨rfl, rfl⟩
  unfold WaitQueue.popStep at moved
  split at moved
  · rename_i here
    rw [here]
    split at moved
    · cases moved
      exact .inl ⟨rfl, Nat.lt_succ_self 2⟩
    · obtain ⟨empty, gone⟩ := taken (Option.some.inj moved)
      rw [gone]
      exact .inl ⟨empty, by decide⟩
  · cases moved
  · rename_i here
    rw [here]
    obtain ⟨empty, gone⟩ := taken (Option.some.inj moved)
    rw [gone]
    exact .inl ⟨empty, by decide⟩
  · rename_i here
    rw [here]
    cases moved
    exact .inr ⟨rfl, rfl, rfl⟩

namespace YaoAndJob

variable {α : Type}

/-- Every step makes the cost less. -/
theorem cost_step {w w' : YaoAndJob α} {task : Option α}
    (moved : w.step = some (.ok (task, w'))) : w'.cost < w.cost := by
  obtain ⟨job, input, output, thread, pointer⟩ := w
  cases thread with
  | popping =>
    obtain ⟨outcome, popped, mapped⟩ := Option.map_eq_some_iff.mp moved
    cases outcome with
    | error fault => cases mapped
    | ok popped =>
      cases mapped
      dsimp only at popped
      rcases consumerCost_popStep popped with ⟨inside, less⟩ | ⟨returned, -, last⟩
      · simp only [cost, threadCost, inside]
        omega
      · obtain ⟨result, returned⟩ := Option.isSome_iff_exists.mp returned
        cases result <;> simp only [cost, threadCost, returned, last] <;> omega
  | starting =>
    cases pointer with
    | none => cases moved
    | some set =>
      cases job with
      | none => cases moved
      | some tasks =>
        cases moved
        simp only [cost, threadCost, jobCost]
        omega
  | running rest =>
    cases rest with
    | nil =>
      cases moved
      simp only [cost, threadCost, jobCost, List.length_nil]
      omega
    | cons task rest =>
      cases moved
      simp only [cost, threadCost, List.length_cons]
      omega
  | pushing res =>
    cases moved
    have called : consumerCost input.consumer ≤ 3 := by cases input.consumer <;> decide
    have same := consumerCost_signal { output with queue := output.queue ++ [res] }
    simp only [cost, threadCost, WaitQueue.push, same]
    omega
  | exited => cases moved

/-- A request costs the worker nothing. -/
theorem cost_push (w : YaoAndJob α) : cost { w with input := w.input.push () } = w.cost := by
  have same := consumerCost_signal { w.input with queue := w.input.queue ++ [()] }
  simp only [cost, threadCost, WaitQueue.push, same]

/-- Neither does a stop. -/
theorem cost_stop (w : YaoAndJob α) : cost { w with input := w.input.stop } = w.cost := by
  have same := consumerCost_signal { w.input with running := false }
  simp only [cost, threadCost, WaitQueue.stop, same]

/-- A step of the main thread on the output queue. -/
theorem cost_output_lt (w : YaoAndJob α) {q : WaitQueue Int}
    (less : consumerCost q.consumer < consumerCost w.output.consumer) :
    cost { w with output := q } < w.cost :=
  Nat.add_lt_add_left less _

/-- A main thread that pops again has two more steps. -/
theorem cost_output_le (w : YaoAndJob α) {q : WaitQueue Int} (next : consumerCost q.consumer = 3)
    (last : consumerCost w.output.consumer = 1) : cost { w with output := q } ≤ w.cost + 2 := by
  change w.threadCost + consumerCost q.consumer ≤ w.threadCost + consumerCost w.output.consumer + 2
  rw [next, last]

/-- A job costs its tasks and ten more steps. -/
theorem cost_dispatch (w : YaoAndJob α) (tasks : List α) :
    cost { w with job := some tasks } ≤ w.cost + (tasks.length + 10) := by
  cases thread : w.thread <;> simp only [cost, threadCost, jobCost, thread] <;> omega

end YaoAndJob

namespace YaoThreads

variable {α : Type} {n : Nat} {s : YaoThreads α}

/-- The steps of the main thread and of its worker for a command. -/
def commandCost : Command α → Nat
  | .fork _ job => job.length + 12
  | .perform _ => 1
  | .join _ => 4
  | .stop _ => 1
  | .reap _ => 1

/-- The steps for a program. -/
def programCost : List (Command α) → Nat
  | [] => 0
  | c :: program => commandCost c + programCost program

/-- The steps of the first `n` workers. -/
def workersCost (ws : Nat → YaoAndJob α) : Nat → Nat
  | 0 => 0
  | n + 1 => workersCost ws n + (ws n).cost

/-- A bound on the steps of a run. -/
def cost (n : Nat) (s : YaoThreads α) : Nat :=
  programCost s.program + s.requesting.elim 0 (fun _ => 1) + workersCost s.workers n

/-- A worker beyond the others does not count. -/
theorem workersCost_outside (ws : Nat → YaoAndJob α) {i : Nat} (outside : n ≤ i) (w : YaoAndJob α) :
    workersCost (Function.update ws i w) n = workersCost ws n := by
  induction n with
  | zero => rfl
  | succ n ih => rw [workersCost, workersCost, ih (by omega), Function.update_of_ne (by omega)]

/-- A change of one worker changes its part of the cost. -/
theorem workersCost_update (ws : Nat → YaoAndJob α) {i : Nat} (known : i < n) (w : YaoAndJob α) :
    workersCost (Function.update ws i w) n + (ws i).cost = workersCost ws n + w.cost := by
  induction n with
  | zero => exact absurd known (Nat.not_lt_zero i)
  | succ n ih =>
    rw [workersCost, workersCost]
    rcases Nat.lt_succ_iff_lt_or_eq.mp known with earlier | rfl
    · have sums := ih earlier
      rw [Function.update_of_ne (by omega)]
      omega
    · rw [workersCost_outside ws le_rfl w, Function.update_self]
      omega

/-- A worker with `d` steps more adds at most `d`. -/
theorem workersCost_le {ws : Nat → YaoAndJob α} {i d : Nat} {w : YaoAndJob α}
    (more : w.cost ≤ (ws i).cost + d) :
    workersCost (Function.update ws i w) n ≤ workersCost ws n + d := by
  by_cases known : i < n
  · have sums := workersCost_update ws known w
    omega
  · rw [workersCost_outside ws (not_lt.mp known) w]
    exact Nat.le_add_right _ d

/-- A worker with fewer steps makes the sum less. -/
theorem workersCost_lt {ws : Nat → YaoAndJob α} {i : Nat} {w : YaoAndJob α} (known : i < n)
    (less : w.cost < (ws i).cost) :
    workersCost (Function.update ws i w) n < workersCost ws n := by
  have sums := workersCost_update ws known w
  omega

/-- A step of the main thread makes the cost less. -/
theorem cost_main {s' : YaoThreads α} (moved : s.mainStep n = some (.ok s')) :
    s'.cost n < s.cost n := by
  obtain ⟨program, requesting, ws, trace⟩ := s
  cases requesting with
  | some i =>
    cases moved
    have sums := workersCost_le (n := n) (d := 0) (ws i).cost_push.le
    simp only [cost, setWorker, Option.elim]
    omega
  | none =>
    cases program with
    | nil => cases moved
    | cons c program =>
      cases c with
      | perform task =>
        cases moved
        simp only [cost, programCost, commandCost]
        omega
      | fork i job =>
        change (if i < n then _ else _) = _ at moved
        split at moved
        · cases moved
          have sums := workersCost_le (n := n) ((ws i).cost_dispatch job)
          simp only [cost, setWorker, programCost, commandCost, Option.elim]
          omega
        · cases moved
      | join i =>
        change (if i < n then _ else _) = _ at moved
        split at moved
        · obtain ⟨outcome, popped, mapped⟩ := Option.map_eq_some_iff.mp moved
          cases outcome with
          | error fault => cases mapped
          | ok result =>
            cases mapped
            rcases consumerCost_popStep popped with ⟨inside, less⟩ | ⟨returned, three, one⟩
            · have paid := (ws i).cost_output_lt less
              have sums := workersCost_lt ‹i < n› paid
              simp only [cost, setWorker, inside, Option.isSome_none]
              simp only [Bool.false_eq_true, if_false]
              omega
            · have paid := (ws i).cost_output_le three one
              have sums := workersCost_le (n := n) paid
              simp only [cost, setWorker, returned, if_true, programCost, commandCost]
              omega
        · cases moved
      | stop i =>
        change (if i < n then _ else _) = _ at moved
        split at moved
        · cases moved
          have sums := workersCost_le (n := n) (d := 0) (ws i).cost_stop.le
          simp only [cost, setWorker, programCost, commandCost]
          omega
        · cases moved
      | reap i =>
        change (if i < n then _ else _) = _ at moved
        split at moved
        · split at moved
          · cases moved
            simp only [cost, programCost, commandCost]
            omega
          · cases moved
        · cases moved

theorem cost_step {s' : YaoThreads α} {thread : Id} (moved : s.step n thread = some (.ok s')) :
    s'.cost n < s.cost n := by
  cases thread with
  | main => exact cost_main moved
  | worker i =>
    rw [YaoThreads.step] at moved
    split at moved
    · obtain ⟨outcome, went, mapped⟩ := Option.map_eq_some_iff.mp moved
      cases outcome with
      | error fault => cases mapped
      | ok result =>
        cases mapped
        exact Nat.add_lt_add_left (workersCost_lt ‹i < n› (YaoAndJob.cost_step went)) _
    · cases moved

/-- The threads cannot go on for ever. -/
theorem every_run_ends : ¬ ∃ run : Nat → YaoThreads α, ∀ k, Step n (run k) (run (k + 1)) := by
  rintro ⟨run, steps⟩
  have bound : ∀ k, (run k).cost n + k ≤ (run 0).cost n := by
    intro k
    induction k with
    | zero => exact le_rfl
    | succ k ih =>
      obtain ⟨thread, moved⟩ := steps k
      have less := cost_step moved
      omega
  have long := bound ((run 0).cost n + 1)
  omega

/-! ## Every order of the machine -/

end YaoThreads

namespace YaoAndJob

variable {α : Type}

/-- A worker whose thread has done what it can do in its phase. -/
inductive Settled : YaoAndJob α → Phase α → Prop
  | idle {p : Option Unit} : Settled ⟨none, .empty, .empty, .popping, p⟩ .idle
  | busy {job rest : List α} :
      Settled ⟨some job, .empty, .empty, .running rest, some ()⟩ (.busy rest)
  | finished : Settled ⟨none, .empty, ⟨[0], true, .outside⟩, .popping, some ()⟩ .finished
  | stopped {p : Option Unit} : Settled ⟨none, ⟨[], false, .outside⟩, .empty, .exited, p⟩ .stopped
  | reaped {p : Option Unit} : Settled ⟨none, ⟨[], false, .outside⟩, .empty, .exited, p⟩ .reaped

/-- A step of a worker's thread that performs no task. -/
def Silent (w w' : YaoAndJob α) : Prop := w.step = some (.ok (none, w'))

/-- A worker takes its job without performing a task. -/
theorem silent_requested (tasks : List α) (p : Option Unit) :
    ReflTransGen Silent ⟨some tasks, ⟨[()], true, .outside⟩, .empty, .popping, p⟩
      ⟨some tasks, .empty, .empty, .running tasks, some ()⟩ := by
  have taken : Silent ⟨some tasks, ⟨[()], true, .outside⟩, .empty, .popping, p⟩
      ⟨some tasks, ⟨[], true, .leaving⟩, .empty, .popping, some ()⟩ := rfl
  have started : Silent ⟨some tasks, ⟨[], true, .leaving⟩, .empty, .popping, some ()⟩
      ⟨some tasks, .empty, .empty, .starting, some ()⟩ := rfl
  have running : Silent ⟨some tasks, .empty, .empty, .starting, some ()⟩
      ⟨some tasks, .empty, .empty, .running tasks, some ()⟩ := rfl
  exact .head taken (.head started (.single running))

/-- A worker reports a finished job without performing a task. -/
theorem silent_finished (job : List α) :
    ReflTransGen Silent ⟨some job, .empty, .empty, .running [], some ()⟩
      ⟨none, .empty, ⟨[0], true, .outside⟩, .popping, some ()⟩ := by
  have ended : Silent (⟨some job, .empty, .empty, .running [], some ()⟩ : YaoAndJob α)
      ⟨none, .empty, .empty, .pushing 0, some ()⟩ := rfl
  have pushed : Silent (⟨none, .empty, .empty, .pushing 0, some ()⟩ : YaoAndJob α)
      ⟨none, .empty, ⟨[0], true, .outside⟩, .popping, some ()⟩ := rfl
  exact .head ended (.single pushed)

/-- A stopped worker exits without performing a task. -/
theorem silent_stopped (p : Option Unit) :
    ReflTransGen (Silent (α := α)) ⟨none, ⟨[], false, .outside⟩, .empty, .popping, p⟩
      ⟨none, ⟨[], false, .outside⟩, .empty, .exited, p⟩ := by
  have taken : Silent (⟨none, ⟨[], false, .outside⟩, .empty, .popping, p⟩ : YaoAndJob α)
      ⟨none, ⟨[], false, .leaving⟩, .empty, .popping, p⟩ := rfl
  have left : Silent (⟨none, ⟨[], false, .leaving⟩, .empty, .popping, p⟩ : YaoAndJob α)
      ⟨none, ⟨[], false, .outside⟩, .empty, .exited, p⟩ := rfl
  exact .head taken (.single left)

end YaoAndJob

namespace YaoThreads

variable {α : Type} {n : Nat} {s : YaoThreads α} {m : Machine α}

/-- The threads stand for the machine with nothing left to do before its next step. -/
structure Settles (s : YaoThreads α) (m : Machine α) : Prop where
  program : s.program = m.program
  trace : s.trace = m.trace
  calm : s.requesting = none
  workers : ∀ i, (s.workers i).Settled (m.workers i)

/-- Settling one worker leaves the others settled. -/
theorem settled_update {ws : Nat → YaoAndJob α} {ps : Nat → Phase α} {i : Nat} {w : YaoAndJob α}
    {p : Phase α} (settled : ∀ j, (ws j).Settled (ps j)) (here : w.Settled p) (j : Nat) :
    (Function.update ws i w j).Settled (Function.update ps i p j) := by
  by_cases at_i : j = i
  · subst at_i
    rw [Function.update_self, Function.update_self]
    exact here
  · rw [Function.update_of_ne at_i, Function.update_of_ne at_i]
    exact settled j

section Main

variable {program : List (Command α)} {ws : Nat → YaoAndJob α} {trace : List α} {i : Nat}
  {w w' : YaoAndJob α}

/-- A worker's thread takes some steps by itself. -/
theorem run_silent (known : i < n) (run : ReflTransGen YaoAndJob.Silent w w') :
    ReflTransGen (Step n) ⟨program, none, Function.update ws i w, trace⟩
      ⟨program, none, Function.update ws i w', trace⟩ := by
  induction run with
  | refl => exact .refl
  | @tail w w' _ moved ih =>
    refine ih.tail ⟨.worker i, (if_pos known).trans ?_⟩
    dsimp only
    rw [Function.update_self, moved]
    simp only [Option.map_some, Except.map, setWorker, Function.update_idem, Option.toList_none,
      List.append_nil]

/-- A worker performs a task. -/
theorem step_task (known : i < n) {task : α} (moved : w.step = some (.ok (some task, w'))) :
    Step n ⟨program, none, Function.update ws i w, trace⟩
      ⟨program, none, Function.update ws i w', trace ++ [task]⟩ := by
  refine ⟨.worker i, (if_pos known).trans ?_⟩
  dsimp only
  rw [Function.update_self, moved]
  simp only [Option.map_some, Except.map, setWorker, Function.update_idem, Option.toList_some]

/-- The main thread dispatches a job. -/
theorem step_dispatch (known : i < n) (job : List α) :
    Step n ⟨.fork i job :: program, none, Function.update ws i w, trace⟩
      ⟨program, some i, Function.update ws i { w with job := some job }, trace⟩ := by
  refine ⟨.main, (if_pos known).trans ?_⟩
  simp only [setWorker, Function.update_idem, Function.update_self]

/-- The main thread requests it. -/
theorem step_request :
    Step n ⟨program, some i, Function.update ws i w, trace⟩
      ⟨program, none, Function.update ws i { w with input := w.input.push () }, trace⟩ := by
  refine ⟨.main, ?_⟩
  simp only [YaoThreads.step, mainStep, setWorker, Function.update_idem, Function.update_self]

/-- The main thread waits for a job. -/
theorem step_done (known : i < n) {popped : WaitQueue.Popped Int}
    (moved : w.output.popStep = some (.ok popped)) :
    Step n ⟨.join i :: program, none, Function.update ws i w, trace⟩
      ⟨if popped.result.isSome then program else .join i :: program, none,
        Function.update ws i { w with output := popped.queue }, trace⟩ := by
  refine ⟨.main, (if_pos known).trans ?_⟩
  simp only [setWorker, Function.update_idem, Function.update_self, moved, Option.map_some,
    Except.map]

/-- The main thread stops a worker. -/
theorem step_stop (known : i < n) :
    Step n ⟨.stop i :: program, none, Function.update ws i w, trace⟩
      ⟨program, none, Function.update ws i { w with input := w.input.stop }, trace⟩ := by
  refine ⟨.main, (if_pos known).trans ?_⟩
  simp only [setWorker, Function.update_idem, Function.update_self]

/-- The main thread joins a worker that has exited. -/
theorem step_reap (known : i < n) (exited : w.thread = .exited) :
    Step n ⟨.reap i :: program, none, Function.update ws i w, trace⟩
      ⟨program, none, Function.update ws i w, trace⟩ := by
  refine ⟨.main, (if_pos known).trans ?_⟩
  simp only [Function.update_self, exited]

end Main

/-- Settled threads are known from the machine up to their workers. -/
theorem Settles.eq_mk (settles : Settles s m) : ∃ ws, s = ⟨m.program, none, ws, m.trace⟩ ∧
    ∀ i, (ws i).Settled (m.workers i) := by
  obtain ⟨program, requesting, ws, trace⟩ := s
  obtain ⟨rfl, rfl, rfl, known⟩ := settles
  exact ⟨ws, rfl, known⟩

section Commands

variable {program : List (Command α)} {ws : Nat → YaoAndJob α} {workers : Nat → Phase α}
  {trace : List α} {i : Nat} (known : ∀ j, (ws j).Settled (workers j))

include known

/-- A worker in a known phase, singled out of the others. -/
theorem settled_focus {p : Phase α} (phase : workers i = p) :
    ∃ w, Function.update ws i w = ws ∧ w.Settled p :=
  ⟨ws i, Function.update_eq_self i ws, phase ▸ known i⟩

/-- Handing out a job: the worker takes it. -/
theorem run_fork (inside : i < n) (free : workers i = .idle) (job : List α) :
    ∃ s', ReflTransGen (Step n) ⟨.fork i job :: program, none, ws, trace⟩ s' ∧
      Settles s' ⟨program, Function.update workers i (.busy job), trace⟩ := by
  obtain ⟨w, same, here⟩ := settled_focus known free
  cases here with
  | idle =>
    rw [← same]
    exact ⟨_, .head (step_dispatch inside job) (.head step_request
      (run_silent inside (YaoAndJob.silent_requested job _))),
      ⟨rfl, rfl, rfl, settled_update known .busy⟩⟩

/-- Waiting for a finished job takes two pops. -/
theorem run_join (inside : i < n) (ready : workers i = .finished) :
    ∃ s', ReflTransGen (Step n) ⟨.join i :: program, none, ws, trace⟩ s' ∧
      Settles s' ⟨program, Function.update workers i .idle, trace⟩ := by
  obtain ⟨w, same, here⟩ := settled_focus known ready
  cases here with
  | finished =>
    rw [← same]
    exact ⟨_, .head (step_done inside rfl) (.single (step_done inside rfl)),
      ⟨rfl, rfl, rfl, settled_update known .idle⟩⟩

/-- Stopping an idle worker: its thread exits. -/
theorem run_stop (inside : i < n) (free : workers i = .idle) :
    ∃ s', ReflTransGen (Step n) ⟨.stop i :: program, none, ws, trace⟩ s' ∧
      Settles s' ⟨program, Function.update workers i .stopped, trace⟩ := by
  obtain ⟨w, same, here⟩ := settled_focus known free
  cases here with
  | @idle p =>
    rw [← same]
    exact ⟨_, .head (step_stop inside) (run_silent inside (YaoAndJob.silent_stopped p)),
      ⟨rfl, rfl, rfl, settled_update known .stopped⟩⟩

/-- Joining a stopped worker. -/
theorem run_reap (inside : i < n) (ended : workers i = .stopped) :
    ∃ s', ReflTransGen (Step n) ⟨.reap i :: program, none, ws, trace⟩ s' ∧
      Settles s' ⟨program, Function.update workers i .reaped, trace⟩ := by
  obtain ⟨w, same, here⟩ := settled_focus known ended
  cases here with
  | stopped =>
    rw [← same]
    exact ⟨_, .single (step_reap inside rfl), ⟨rfl, rfl, rfl, settled_update known .reaped⟩⟩

/-- A busy worker performs its next task. -/
theorem run_task (inside : i < n) {task : α} {rest : List α}
    (next : workers i = .busy (task :: rest)) :
    ∃ s', ReflTransGen (Step n) ⟨program, none, ws, trace⟩ s' ∧
      Settles s' ⟨program, Function.update workers i (.busy rest), trace ++ [task]⟩ := by
  obtain ⟨w, same, here⟩ := settled_focus known next
  cases here with
  | busy =>
    rw [← same]
    exact ⟨_, .single (step_task inside rfl), ⟨rfl, rfl, rfl, settled_update known .busy⟩⟩

/-- A worker without tasks reports that it has finished. -/
theorem run_finish (inside : i < n) (last : workers i = .busy []) :
    ∃ s', ReflTransGen (Step n) ⟨program, none, ws, trace⟩ s' ∧
      Settles s' ⟨program, Function.update workers i .finished, trace⟩ := by
  obtain ⟨w, same, here⟩ := settled_focus known last
  cases here with
  | @busy job =>
    rw [← same]
    exact ⟨_, run_silent inside (YaoAndJob.silent_finished job),
      ⟨rfl, rfl, rfl, settled_update known .finished⟩⟩

end Commands

/-- Every step of the machine is a run of the threads. -/
theorem Settles.step (settles : Settles s m) (legal : m.Legal n) {m' : Machine α}
    (step : m.Step m') : ∃ s', ReflTransGen (Step n) s s' ∧ Settles s' m' := by
  obtain ⟨ws, rfl, known⟩ := settles.eq_mk
  have busy_inside : ∀ {i rest}, m.workers i = .busy rest → i < n := by
    intro i rest busy
    by_contra outside
    have free := legal.free_outside (not_lt.mp outside)
    rw [busy] at free
    cases free
  cases step with
  | fork free => exact run_fork known (legal.known _ List.mem_cons_self _ rfl) free _
  | perform => exact ⟨_, .single ⟨.main, rfl⟩, ⟨rfl, rfl, rfl, known⟩⟩
  | join ready => exact run_join known (legal.known _ List.mem_cons_self _ rfl) ready
  | stop free => exact run_stop known (legal.known _ List.mem_cons_self _ rfl) free
  | reap ended => exact run_reap known (legal.known _ List.mem_cons_self _ rfl) ended
  | task next => exact run_task known (busy_inside next) next
  | finish last => exact run_finish known (busy_inside last) last

/-- A run of the machine is one of the threads. -/
theorem Settles.run (settles : Settles s m) (legal : m.Legal n) {m' : Machine α}
    (run : ReflTransGen Machine.Step m m') : ∃ s', ReflTransGen (Step n) s s' ∧ Settles s' m' := by
  induction run with
  | refl => exact ⟨s, .refl, settles⟩
  | tail reached step ih =>
    obtain ⟨s', before, here⟩ := ih
    obtain ⟨s'', last, there⟩ := here.step (Machine.legal_of_run legal reached) step
    exact ⟨s'', before.trans last, there⟩

/-- Where all threads have come to their ends. -/
def Ended (n : Nat) (s : YaoThreads α) : Prop := ∀ thread, s.step n thread = none

/-- A run that has ended performed an interleaving of every block, and all threads have
exited. -/
theorem Ended.trace {blocks : List (Block α)} (fits : Machine.Fits n blocks)
    (run : ReflTransGen (Step n) (start n blocks) s) (ended : s.Ended n) :
    (∃ orders, List.Forall₂ (fun b order => Interleaving b.threads order) blocks orders ∧
      s.trace = orders.flatten) ∧ ∀ i, i < n → (s.workers i).thread = .exited := by
  obtain ⟨m, reached, legal, shown⟩ := exists_machine fits run
  obtain ⟨⟨orders, woven, traced⟩, reaped⟩ :=
    Machine.run_trace reached (shown.ended legal ended)
  refine ⟨⟨orders, woven, shown.trace ▸ traced⟩, fun i known => ?_⟩
  have represents := shown.workers i
  rw [reaped i known] at represents
  exact represents.exited_of_reaped

/-- Every choice of interleavings is performed by some run that ends. -/
theorem exists_ended {blocks : List (Block α)} (fits : Machine.Fits n blocks)
    {orders : List (List α)}
    (woven : List.Forall₂ (fun b order => Interleaving b.threads order) blocks orders) :
    ∃ s, ReflTransGen (Step n) (start n blocks) s ∧ s.Ended n ∧ s.trace = orders.flatten := by
  obtain ⟨m, reached, finished, traced⟩ := Machine.exists_run n woven
  have settles : Settles (start n blocks) (Machine.start n blocks) :=
    ⟨rfl, rfl, rfl, fun _ => .idle⟩
  obtain ⟨s, run, there⟩ := settles.run (Machine.start_legal fits) reached
  refine ⟨s, run, fun thread => ?_, there.trace.trans traced⟩
  have program : s.program = [] := there.program.trans finished
  cases thread with
  | main => rw [YaoThreads.step, mainStep, there.calm, program]
  | worker i =>
    rw [YaoThreads.step]
    split
    · have reaped := (Machine.run_trace reached finished).2 i ‹i < n›
      have settled := there.workers i
      rw [reaped] at settled
      generalize s.workers i = w at settled
      cases settled with
      | reaped => rfl
    · rfl

/-- The workers run blocks of jobs as their wait queues let them. As long as waits end by a
signal only, no thread fails and no run goes on for ever, a run ends with every job
performed once, those of a block in any interleaving and those of different blocks in
order, and every such order occurs. A wait that ends without a signal makes its thread
fail. -/
theorem workers_run_blocks {blocks : List (Block α)} (fits : Machine.Fits n blocks) :
    (∀ s, ReflTransGen (Step n) (start n blocks) s → ∀ thread fault,
      s.step n thread ≠ some (.error fault)) ∧
    (∀ s, ReflTransGen (Step n) (start n blocks) s → ∀ thread s', s.wake n thread = some s' →
      s'.step n thread = some (.error .outOfBounds)) ∧
    (¬ ∃ run : Nat → YaoThreads α, run 0 = start n blocks ∧ ∀ k, Step n (run k) (run (k + 1))) ∧
    (∀ s, ReflTransGen (Step n) (start n blocks) s → s.Ended n →
      ∀ i, i < n → (s.workers i).thread = .exited) ∧
    ∀ trace, (∃ s, ReflTransGen (Step n) (start n blocks) s ∧ s.Ended n ∧ s.trace = trace) ↔
      ∃ orders, List.Forall₂ (fun b order => Interleaving b.threads order) blocks orders ∧
        trace = orders.flatten := by
  refine ⟨fun s run => never_fails fits run, fun s run thread s' => wake_fails fits run,
    fun ⟨run, _, steps⟩ => every_run_ends ⟨run, steps⟩,
    fun s run ended => (ended.trace fits run).2, fun trace => ⟨?_, ?_⟩⟩
  · rintro ⟨s, run, ended, rfl⟩
    exact (ended.trace fits run).1
  · rintro ⟨orders, woven, rfl⟩
    exact exists_ended fits woven

/-- Here the second worker is faster than the first, and the main thread than both. -/
theorem two_workers_run_blocks :
    ∃ s, ReflTransGen (Step 2) (start 2 [⟨[[1], [2]], [3]⟩, ⟨[[4], [5]], []⟩]) s ∧ s.Ended 2 ∧
      s.trace = [3, 2, 1, 5, 4] := by
  refine ((workers_run_blocks ?_).2.2.2.2 _).mpr ⟨[[3, 2, 1], [5, 4]], ?_, rfl⟩
  · simp [Machine.Fits]
  · refine .cons ?_ (.cons ?_ .nil)
    · exact @Interleaving.step _ [[1], [2]] [] 3 [] _ (@Interleaving.step _ [[1]] [[]] 2 [] _
        (@Interleaving.step _ [] [[], []] 1 [] _ (.done (by decide))))
    · exact @Interleaving.step _ [[4]] [[]] 5 [] _ (@Interleaving.step _ [] [[], []] 4 [] _
        (.done (by decide)))

end YaoThreads

end SimpleOprf.Yao
