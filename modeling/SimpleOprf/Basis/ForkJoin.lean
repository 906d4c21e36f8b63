import Mathlib.Algebra.Order.Group.Nat
import Mathlib.Data.List.Basic
import Mathlib.Data.List.GetD
import Mathlib.Logic.Function.Basic
import Mathlib.Logic.Relation
import SimpleOprf.Basis.Interleaving

/-!
# Forking and joining

A main thread hands jobs to workers, performs tasks itself and waits for the workers.
A block that forks some jobs and joins them again performs an interleaving of the jobs
and of the main thread's own tasks.

The machine has one step for each command of the main thread and one for each task of
a worker. `Legal` programs never hand a job to a busy worker, and what their complete
runs perform are exactly the interleavings, block by block.
-/

namespace SimpleOprf.Basis

open Relation

/-- What the main thread does next. -/
inductive Command (α : Type*) where
  | fork (worker : Nat) (job : List α)
  | perform (task : α)
  | join (worker : Nat)
  | stop (worker : Nat)
  /-- Wait for the end of a stopped worker. -/
  | reap (worker : Nat)
deriving DecidableEq, Repr

/-- What a worker does. -/
inductive Phase (α : Type*) where
  | idle
  | busy (rest : List α)
  | finished
  | stopped
  | reaped
deriving DecidableEq, Repr

/-- The phase of a worker as far as the main thread's commands change it. -/
inductive Turn where
  | free
  | working
  | stopping
  | gone
deriving DecidableEq, Repr

variable {α : Type*}

namespace Phase

/-- What a phase lets the main thread do with its worker. -/
def turn : Phase α → Turn
  | idle => .free
  | busy _ => .working
  | finished => .working
  | stopped => .stopping
  | reaped => .gone

/-- The tasks that a worker has still to perform. -/
def rest : Phase α → List α
  | busy rest => rest
  | _ => []

theorem rest_eq_nil {p : Phase α} (away : p.turn ≠ .working) : p.rest = [] := by
  cases p with
  | busy rest => exact absurd rfl away
  | _ => rfl

end Phase

namespace Command

/-- The effect of a command on a worker, if it is legal. -/
def turn (i : Nat) (t : Turn) : Command α → Option Turn
  | fork j _ => if j = i then (if t = .free then some .working else none) else some t
  | perform _ => some t
  | join j => if j = i then (if t = .working then some .free else none) else some t
  | stop j => if j = i then (if t = .free then some .stopping else none) else some t
  | reap j => if j = i then (if t = .stopping then some .gone else none) else some t

/-- The turn of a worker after some commands. -/
def turns (i : Nat) (t : Turn) (program : List (Command α)) : Option Turn :=
  program.foldlM (turn i) t

/-- The tasks that the main thread hands to a worker. -/
def jobFor (i : Nat) : Command α → List α
  | fork j job => if j = i then job else []
  | _ => []

/-- The tasks that the main thread performs itself. -/
def own : Command α → List α
  | perform task => [task]
  | _ => []

/-- The worker that a command is about. -/
def worker : Command α → Option Nat
  | fork i _ => some i
  | perform _ => none
  | join i => some i
  | stop i => some i
  | reap i => some i

/-- A command keeps the turns of the other workers. -/
theorem turn_of_ne {c : Command α} {i : Nat} (other : c.worker ≠ some i) (t : Turn) :
    c.turn i t = some t := by
  cases c with
  | perform task => rfl
  | fork j job => exact if_neg fun same => other (congrArg some same)
  | join j => exact if_neg fun same => other (congrArg some same)
  | stop j => exact if_neg fun same => other (congrArg some same)
  | reap j => exact if_neg fun same => other (congrArg some same)

theorem jobFor_of_ne {c : Command α} {i : Nat} (other : c.worker ≠ some i) : c.jobFor i = [] := by
  cases c with
  | fork j job => exact if_neg fun same => other (congrArg some same)
  | _ => rfl

theorem own_eq_nil {c : Command α} {i : Nat} (named : c.worker = some i) : c.own = [] := by
  cases c with
  | perform task => cases named
  | _ => rfl

@[simp] theorem turns_nil (i : Nat) (t : Turn) : turns i t ([] : List (Command α)) = some t := rfl

theorem turns_cons (i : Nat) (t : Turn) (c : Command α) (program : List (Command α)) :
    turns i t (c :: program) = (c.turn i t).bind fun t => turns i t program := by
  rw [turns, List.foldlM_cons]
  rfl

theorem turns_append (i : Nat) (t : Turn) (front back : List (Command α)) :
    turns i t (front ++ back) = (turns i t front).bind fun t => turns i t back := by
  rw [turns, List.foldlM_append]
  rfl

/-- A worker that is not mentioned keeps its turn. -/
theorem turns_of_forall {i : Nat} {t : Turn} {program : List (Command α)}
    (others : ∀ c ∈ program, c.turn i t = some t) : turns i t program = some t := by
  induction program with
  | nil => rfl
  | cons c program ih =>
    rw [turns_cons, others c List.mem_cons_self]
    exact ih fun later member => others later (List.mem_cons_of_mem c member)

end Command

/-! ## The machine -/

/-- The main thread's program, its workers, and the tasks performed so far. -/
structure Machine (α : Type*) where
  program : List (Command α)
  workers : Nat → Phase α
  trace : List α

namespace Machine

/-- One step of the main thread or of a worker. -/
inductive Step : Machine α → Machine α → Prop
  | fork {i : Nat} {job trace : List α} {program : List (Command α)} {workers : Nat → Phase α}
      (free : workers i = .idle) :
      Step ⟨.fork i job :: program, workers, trace⟩
        ⟨program, Function.update workers i (.busy job), trace⟩
  | perform {task : α} {trace : List α} {program : List (Command α)} {workers : Nat → Phase α} :
      Step ⟨.perform task :: program, workers, trace⟩ ⟨program, workers, trace ++ [task]⟩
  | join {i : Nat} {trace : List α} {program : List (Command α)} {workers : Nat → Phase α}
      (ready : workers i = .finished) :
      Step ⟨.join i :: program, workers, trace⟩ ⟨program, Function.update workers i .idle, trace⟩
  | stop {i : Nat} {trace : List α} {program : List (Command α)} {workers : Nat → Phase α}
      (free : workers i = .idle) :
      Step ⟨.stop i :: program, workers, trace⟩
        ⟨program, Function.update workers i .stopped, trace⟩
  | reap {i : Nat} {trace : List α} {program : List (Command α)} {workers : Nat → Phase α}
      (ended : workers i = .stopped) :
      Step ⟨.reap i :: program, workers, trace⟩
        ⟨program, Function.update workers i .reaped, trace⟩
  | task {i : Nat} {task : α} {rest trace : List α} {program : List (Command α)}
      {workers : Nat → Phase α} (next : workers i = .busy (task :: rest)) :
      Step ⟨program, workers, trace⟩
        ⟨program, Function.update workers i (.busy rest), trace ++ [task]⟩
  | finish {i : Nat} {trace : List α} {program : List (Command α)} {workers : Nat → Phase α}
      (last : workers i = .busy []) :
      Step ⟨program, workers, trace⟩ ⟨program, Function.update workers i .finished, trace⟩

/-- Every worker ends the commands with the given turn. -/
def Leads (workers : Nat → Phase α) (program : List (Command α)) (ends : Nat → Turn) : Prop :=
  ∀ i, Command.turns i (workers i).turn program = some (ends i)

/-- Only the first workers have tasks, now or later. -/
def Within (k : Nat) (program : List (Command α)) (workers : Nat → Phase α) : Prop :=
  ∀ i, k ≤ i → (workers i).rest = [] ∧ program.flatMap (Command.jobFor i) = []

/-- What every thread has still to do, the main thread being the last one. -/
def threads (k : Nat) (program : List (Command α)) (workers : Nat → Phase α) : List (List α) :=
  (List.range k).map (fun i => (workers i).rest ++ program.flatMap (Command.jobFor i)) ++
    [program.flatMap Command.own]

/-! ### What one step changes -/

variable {workers workers' : Nat → Phase α} {ends : Nat → Turn} {c : Command α}
  {q : List (Command α)} {k : Nat}

/-- A command that was performed leaves the rest of the program leading to the same
ends. -/
theorem Leads.cons_inv (leads : Leads workers (c :: q) ends)
    (turned : ∀ i, c.turn i (workers i).turn = some (workers' i).turn) : Leads workers' q ends := by
  intro i
  have whole := leads i
  rwa [Command.turns_cons, turned i] at whole

/-- Only the turn of a phase matters. -/
theorem Leads.update (leads : Leads workers q ends) {i : Nat} {p : Phase α}
    (same : p.turn = (workers i).turn) : Leads (Function.update workers i p) q ends := by
  intro j
  by_cases here : j = i
  · subst here
    rw [Function.update_self, same]
    exact leads j
  · rw [Function.update_of_ne here]
    exact leads j

/-- The threads of a state depend on the tasks of each worker and of the main thread
only. -/
theorem threads_congr {q' : List (Command α)}
    (tasks : ∀ i, (workers' i).rest ++ q'.flatMap (Command.jobFor i) =
      (workers i).rest ++ q.flatMap (Command.jobFor i))
    (own : q'.flatMap Command.own = q.flatMap Command.own) :
    threads k q' workers' = threads k q workers := by
  unfold threads
  rw [own, List.map_congr_left fun i _ => tasks i]

/-- So does the bound on the workers that have tasks. -/
theorem Within.congr {q' : List (Command α)} (within : Within k q workers)
    (tasks : ∀ i, (workers' i).rest ++ q'.flatMap (Command.jobFor i) =
      (workers i).rest ++ q.flatMap (Command.jobFor i)) : Within k q' workers' := by
  intro i outside
  obtain ⟨none, later⟩ := within i outside
  have empty := tasks i
  rw [none, later] at empty
  exact List.append_eq_nil_iff.mp empty

/-- The main thread is inside some commands, with others after them. -/
structure Inside (k : Nat) (ends : Nat → Turn) (q r : List (Command α)) (m : Machine α) : Prop where
  program : m.program = q ++ r
  leads : Leads m.workers q ends
  within : Within k q m.workers

variable {r program : List (Command α)} {trace : List α}

/-- The commands of a block end before the ones after it. -/
theorem eq_cons_of_stays (split : c :: program = q ++ r) (stays : r.length ≤ program.length) :
    ∃ q', q = c :: q' ∧ program = q' ++ r := by
  cases q with
  | nil =>
    have same : c :: program = r := split
    rw [← same, List.length_cons] at stays
    omega
  | cons first q' =>
    cases split
    exact ⟨q', rfl, rfl⟩

/-- A command about a worker performs no task. -/
theorem Inside.command (inside : Inside k ends q r ⟨c :: program, workers, trace⟩)
    (stays : r.length ≤ program.length) {i : Nat} {p : Phase α} (named : c.worker = some i)
    (turned : c.turn i (workers i).turn = some p.turn)
    (tasks : p.rest = (workers i).rest ++ c.jobFor i) :
    ∃ q', Inside k ends q' r ⟨program, Function.update workers i p, trace⟩ ∧
      threads k q' (Function.update workers i p) = threads k q workers := by
  obtain ⟨q', rfl, rest⟩ := eq_cons_of_stays inside.program stays
  have others : ∀ j, j ≠ i → c.worker ≠ some j := by
    rintro j other same
    exact other (Option.some.inj (same.symm.trans named))
  have turns : ∀ j, c.turn j (workers j).turn = some (Function.update workers i p j).turn := by
    intro j
    by_cases here : j = i
    · subst here
      rw [Function.update_self, turned]
    · rw [Function.update_of_ne here, Command.turn_of_ne (others j here)]
  have same : ∀ j, (Function.update workers i p j).rest ++ q'.flatMap (Command.jobFor j) =
      (workers j).rest ++ (c :: q').flatMap (Command.jobFor j) := by
    intro j
    rw [List.flatMap_cons]
    by_cases here : j = i
    · subst here
      rw [Function.update_self, tasks, List.append_assoc]
    · rw [Function.update_of_ne here, Command.jobFor_of_ne (others j here), List.nil_append]
  refine ⟨q', ⟨rest, inside.leads.cons_inv turns, inside.within.congr same⟩, ?_⟩
  exact threads_congr same (by rw [List.flatMap_cons, Command.own_eq_nil named, List.nil_append])

/-- A worker's task is the first of what it has still to do. -/
theorem threads_task {i : Nat} {task : α} {rest order : List α} (known : i < k)
    (next : workers i = .busy (task :: rest))
    (later : Interleaving (threads k q (Function.update workers i (.busy rest))) order) :
    Interleaving (threads k q workers) (task :: order) := by
  obtain ⟨before, after, split⟩ := List.append_of_mem (List.mem_range.mpr known)
  have once := split ▸ List.nodup_range (n := k)
  have apart : ∀ j, j ∈ before ∨ j ∈ after → j ≠ i := by
    rintro j member rfl
    rw [List.nodup_append, List.nodup_cons] at once
    rcases member with early | late
    · exact once.2.2 j early j List.mem_cons_self rfl
    · exact once.2.1.1 late
  have same : ∀ j, j ∈ before ∨ j ∈ after →
      (Function.update workers i (.busy rest) j).rest ++ q.flatMap (Command.jobFor j) =
        (workers j).rest ++ q.flatMap (Command.jobFor j) := by
    intro j member
    rw [Function.update_of_ne (apart j member)]
  unfold threads at later ⊢
  rw [split, List.map_append, List.map_cons, List.append_assoc, List.cons_append] at later ⊢
  rw [List.map_congr_left fun j member => same j (.inl member),
    List.map_congr_left fun j member => same j (.inr member), Function.update_self] at later
  rw [next]
  exact .step later

/-- What one step does to a block: it performs one task of a thread, or none. -/
theorem Step.inside {m m' : Machine α} (step : Step m m') (inside : Inside k ends q r m)
    (stays : r.length ≤ m'.program.length) :
    ∃ q' tasks, Inside k ends q' r m' ∧ m'.trace = m.trace ++ tasks ∧
      ∀ order, Interleaving (threads k q' m'.workers) order →
        Interleaving (threads k q m.workers) (tasks ++ order) := by
  have quiet : ∀ {m' : Machine α}, (∃ q', Inside k ends q' r m' ∧
      threads k q' m'.workers = threads k q m.workers) → m'.trace = m.trace →
      ∃ q' tasks, Inside k ends q' r m' ∧ m'.trace = m.trace ++ tasks ∧
        ∀ order, Interleaving (threads k q' m'.workers) order →
          Interleaving (threads k q m.workers) (tasks ++ order) := by
    rintro m' ⟨q', inside', same⟩ silent
    refine ⟨q', [], inside', silent.trans (List.append_nil _).symm, fun order later => ?_⟩
    rw [← same]
    exact later
  cases step with
  | fork free => exact quiet (inside.command stays rfl (by simp [Command.turn, free, Phase.turn])
      (by simp [Command.jobFor, free, Phase.rest])) rfl
  | join ready => exact quiet (inside.command stays rfl (by simp [Command.turn, ready, Phase.turn])
      (by simp [Command.jobFor, ready, Phase.rest])) rfl
  | stop free => exact quiet (inside.command stays rfl (by simp [Command.turn, free, Phase.turn])
      (by simp [Command.jobFor, free, Phase.rest])) rfl
  | reap ended => exact quiet (inside.command stays rfl (by simp [Command.turn, ended, Phase.turn])
      (by simp [Command.jobFor, ended, Phase.rest])) rfl
  | @perform task trace program workers =>
    obtain ⟨q', rfl, rest⟩ := eq_cons_of_stays inside.program stays
    have same : ∀ i, (workers i).rest ++ q'.flatMap (Command.jobFor i) =
        (workers i).rest ++ (Command.perform task :: q').flatMap (Command.jobFor i) :=
      fun i => rfl
    refine ⟨q', [task], ⟨rest, inside.leads.cons_inv fun i => rfl, inside.within.congr same⟩, rfl,
      fun order later => ?_⟩
    unfold threads at later ⊢
    rw [List.map_congr_left fun i _ => same i] at later
    exact .step later
  | @task i task rest trace program workers next =>
    have known : i < k := by
      by_contra outside
      have none : (workers i).rest = [] := (inside.within i (by omega)).1
      rw [next] at none
      cases none
    have same : (Phase.busy rest).turn = (workers i).turn := by rw [next]; rfl
    refine ⟨q, [task], ⟨inside.program, inside.leads.update same, fun j outside => ?_⟩,
      rfl, fun order later => threads_task known next later⟩
    dsimp only
    rw [Function.update_of_ne (by omega)]
    exact inside.within j outside
  | @finish i trace program workers last =>
    have same : ∀ j, (Function.update workers i .finished j).rest ++
        q.flatMap (Command.jobFor j) = (workers j).rest ++ q.flatMap (Command.jobFor j) := by
      intro j
      by_cases here : j = i
      · rw [here, Function.update_self, last]
        rfl
      · rw [Function.update_of_ne here]
    have turn : (Phase.finished : Phase α).turn = (workers i).turn := by rw [last]; rfl
    exact quiet ⟨q, ⟨inside.program, inside.leads.update turn, inside.within.congr same⟩,
      threads_congr same rfl⟩ rfl

/-! ### Runs -/

/-- A step is the main thread's next command, or a worker's. -/
theorem Step.program_cases {m m' : Machine α} (step : Step m m') :
    (∃ c, m.program = c :: m'.program) ∨ m'.program = m.program := by
  cases step with
  | task next => exact .inr rfl
  | finish last => exact .inr rfl
  | _ => exact .inl ⟨_, rfl⟩

theorem Step.length_le {m m' : Machine α} (step : Step m m') :
    m'.program.length ≤ m.program.length := by
  rcases step.program_cases with ⟨c, next⟩ | same
  · rw [next, List.length_cons]
    omega
  · exact same ▸ le_rfl

theorem length_le {m m' : Machine α} (run : ReflTransGen Step m m') :
    m'.program.length ≤ m.program.length := by
  induction run with
  | refl => exact le_rfl
  | tail _ step ih => exact step.length_le.trans ih

/-- A block that is run to its end performs an interleaving of its threads. -/
theorem Inside.run {m m' : Machine α} (inside : Inside k ends q r m)
    (away : ∀ i, ends i ≠ .working) (run : ReflTransGen Step m m') (ended : m'.program = r) :
    ∃ tasks, m'.trace = m.trace ++ tasks ∧ Interleaving (threads k q m.workers) tasks ∧
      ∀ i, (m'.workers i).turn = ends i := by
  induction run using ReflTransGen.head_induction_on generalizing q with
  | refl =>
    have empty : q = [] := List.append_left_eq_self.mp (inside.program.symm.trans ended)
    subst empty
    have turns : ∀ i, (m'.workers i).turn = ends i := fun i => Option.some.inj (inside.leads i)
    refine ⟨[], (List.append_nil _).symm, .done fun job member => ?_, turns⟩
    rcases List.mem_append.mp member with theirs | mine
    · obtain ⟨i, -, rfl⟩ := List.mem_map.mp theirs
      have idle : (m'.workers i).rest = [] := Phase.rest_eq_nil (by rw [turns i]; exact away i)
      rw [idle]
      rfl
    · exact List.mem_singleton.mp mine
  | head step later ih =>
    have stays := length_le later
    rw [ended] at stays
    obtain ⟨q', tasks, inside', traced, woven⟩ := step.inside inside stays
    obtain ⟨others, rest, interleaved, turns⟩ := ih inside'
    refine ⟨tasks ++ others, ?_, woven others interleaved, turns⟩
    rw [rest, traced, List.append_assoc]

/-- A run that ends passes the end of every block. -/
theorem passes_end {m m' : Machine α} (run : ReflTransGen Step m m') (split : m.program = q ++ r)
    (ended : m'.program = []) :
    ∃ mid, ReflTransGen Step m mid ∧ mid.program = r ∧ ReflTransGen Step mid m' := by
  induction run using ReflTransGen.head_induction_on generalizing q with
  | refl =>
    rw [ended] at split
    obtain ⟨rfl, rfl⟩ := List.append_eq_nil_iff.mp split.symm
    exact ⟨m', .refl, ended, .refl⟩
  | @head m mid step later ih =>
    have onwards : ∀ q', mid.program = q' ++ r → ∃ last, ReflTransGen Step m last ∧
        last.program = r ∧ ReflTransGen Step last m' := by
      intro q' rest
      obtain ⟨last, before, there, after⟩ := ih rest
      exact ⟨last, .head step before, there, after⟩
    cases q with
    | nil => exact ⟨m, .refl, split, .head step later⟩
    | cons c q =>
      rcases step.program_cases with ⟨c', next⟩ | same
      · exact onwards q (List.cons.inj (next.symm.trans split)).2
      · exact onwards (c :: q) (same.trans split)

end Machine

/-! ## Blocks -/

/-- Jobs for the first workers, and what the main thread does meanwhile. -/
structure Block (α : Type*) where
  jobs : List (List α)
  own : List α
deriving DecidableEq, Repr

namespace Block

/-- The commands that hand out the jobs, from worker `start` on. -/
def forks (jobs : List (List α)) (start : Nat) : List (Command α) :=
  (jobs.zipIdx start).map fun job => .fork job.2 job.1

/-- The program of a block: hand out the jobs, do the own tasks, join the workers. -/
def commands (b : Block α) : List (Command α) :=
  forks b.jobs 0 ++ (b.own.map .perform ++ (List.range b.jobs.length).map .join)

/-- The threads of a block: its jobs and the main thread's tasks. -/
def threads (b : Block α) : List (List α) := b.jobs ++ [b.own]

theorem forks_cons (job : List α) (jobs : List (List α)) (start : Nat) :
    forks (job :: jobs) start = .fork start job :: forks jobs (start + 1) := by
  rw [forks, List.zipIdx_cons, List.map_cons]
  rfl

theorem turns_forks_of_ne {i start : Nat} {t : Turn} {jobs : List (List α)}
    (outside : i < start ∨ start + jobs.length ≤ i) :
    Command.turns i t (forks jobs start) = some t := by
  refine Command.turns_of_forall fun c member => ?_
  obtain ⟨⟨job, j⟩, inside, rfl⟩ := List.mem_map.mp member
  obtain ⟨low, high, -⟩ := List.mem_zipIdx inside
  exact if_neg (by dsimp only; omega)

/-- A free worker in the range starts to work. -/
theorem turns_forks {i start : Nat} {jobs : List (List α)} (low : start ≤ i)
    (high : i < start + jobs.length) :
    Command.turns i .free (forks jobs start) = some .working := by
  induction jobs generalizing start with
  | nil => simp at high; omega
  | cons job jobs ih =>
    rw [forks_cons, Command.turns_cons]
    rw [List.length_cons] at high
    rcases low.eq_or_lt with rfl | later
    · rw [Command.turn, if_pos rfl, if_pos rfl, Option.bind_some]
      exact turns_forks_of_ne (.inl (Nat.lt_succ_self start))
    · rw [Command.turn, if_neg later.ne, Option.bind_some]
      exact ih later (by omega)

theorem turns_joins_of_ne {i : Nat} {t : Turn} {k : Nat} (outside : k ≤ i) :
    Command.turns i t ((List.range k).map (Command.join (α := α))) = some t := by
  refine Command.turns_of_forall fun c member => ?_
  obtain ⟨j, inside, rfl⟩ := List.mem_map.mp member
  exact if_neg ((List.mem_range.mp inside).trans_le outside).ne

/-- A joined worker is free again. -/
theorem turns_joins {i k : Nat} (known : i < k) :
    Command.turns i .working ((List.range k).map (Command.join (α := α))) = some .free := by
  induction k with
  | zero => exact absurd known (Nat.not_lt_zero i)
  | succ k ih =>
    rw [List.range_succ, List.map_append, Command.turns_append]
    rcases Nat.lt_succ_iff_lt_or_eq.mp known with earlier | rfl
    · rw [ih earlier, Option.bind_some, List.map_singleton, Command.turns_cons, Command.turn,
        if_neg earlier.ne', Option.bind_some, Command.turns_nil]
    · rw [turns_joins_of_ne le_rfl, Option.bind_some, List.map_singleton, Command.turns_cons,
        Command.turn, if_pos rfl, if_pos rfl, Option.bind_some, Command.turns_nil]

/-- A block hands a worker at most one job and joins it. -/
theorem turns_commands (b : Block α) (i : Nat) : Command.turns i .free b.commands = some .free := by
  have performs : ∀ t, Command.turns i t (b.own.map .perform) = some t := by
    intro t
    refine Command.turns_of_forall fun c member => ?_
    obtain ⟨task, -, rfl⟩ := List.mem_map.mp member
    rfl
  rw [commands, Command.turns_append]
  by_cases known : i < b.jobs.length
  · rw [turns_forks (Nat.zero_le i) (by omega), Option.bind_some, Command.turns_append, performs,
      Option.bind_some, turns_joins known]
  · rw [turns_forks_of_ne (.inr (by omega)), Option.bind_some, Command.turns_append, performs,
      Option.bind_some, turns_joins_of_ne (by omega)]

/-- Each worker is handed the job at its place. -/
theorem jobFor_forks {i start : Nat} (jobs : List (List α)) (low : start ≤ i) :
    (forks jobs start).flatMap (Command.jobFor i) = jobs.getD (i - start) [] := by
  induction jobs generalizing start with
  | nil => rfl
  | cons job jobs ih =>
    rw [forks_cons, List.flatMap_cons, Command.jobFor]
    rcases low.eq_or_lt with rfl | later
    · have others : (forks jobs (start + 1)).flatMap (Command.jobFor start) = [] := by
        refine List.flatMap_eq_nil_iff.mpr fun c member => ?_
        obtain ⟨⟨job, j⟩, inside, rfl⟩ := List.mem_map.mp member
        exact if_neg (Nat.ne_of_gt (List.mem_zipIdx inside).1)
      rw [if_pos rfl, others, List.append_nil, Nat.sub_self, List.getD_cons_zero]
    · rw [if_neg later.ne, List.nil_append, ih later]
      obtain ⟨d, rfl⟩ := Nat.exists_eq_add_of_lt later
      rw [show start + d + 1 - (start + 1) = d by omega, show start + d + 1 - start = d + 1 by omega,
        List.getD_cons_succ]

/-- A block has one job for each of its workers. -/
theorem jobFor_commands (b : Block α) (i : Nat) :
    b.commands.flatMap (Command.jobFor i) = b.jobs.getD i [] := by
  have performs : (b.own.map Command.perform).flatMap (Command.jobFor i) = [] := by
    refine List.flatMap_eq_nil_iff.mpr fun c member => ?_
    obtain ⟨task, -, rfl⟩ := List.mem_map.mp member
    rfl
  have joins : ((List.range b.jobs.length).map Command.join).flatMap
      (Command.jobFor (α := α) i) = [] := by
    refine List.flatMap_eq_nil_iff.mpr fun c member => ?_
    obtain ⟨j, -, rfl⟩ := List.mem_map.mp member
    rfl
  rw [commands, List.flatMap_append, List.flatMap_append, performs, joins, List.append_nil,
    List.append_nil, jobFor_forks b.jobs (Nat.zero_le i), Nat.sub_zero]

/-- The main thread performs its own tasks. -/
theorem own_commands (b : Block α) : b.commands.flatMap Command.own = b.own := by
  have forks : (forks b.jobs 0).flatMap Command.own = [] := by
    refine List.flatMap_eq_nil_iff.mpr fun c member => ?_
    obtain ⟨job, -, rfl⟩ := List.mem_map.mp member
    rfl
  have joins : ((List.range b.jobs.length).map Command.join).flatMap
      (Command.own (α := α)) = [] := by
    refine List.flatMap_eq_nil_iff.mpr fun c member => ?_
    obtain ⟨j, -, rfl⟩ := List.mem_map.mp member
    rfl
  have performs : (b.own.map Command.perform).flatMap Command.own = b.own := by
    rw [List.flatMap_map]
    exact List.flatMap_singleton' b.own
  rw [commands, List.flatMap_append, List.flatMap_append, forks, performs, joins, List.nil_append,
    List.append_nil]

/-- A block names one worker for every job. -/
theorem known {b : Block α} {c : Command α} {i : Nat} (member : c ∈ b.commands)
    (named : c.worker = some i) : i < b.jobs.length := by
  rw [commands] at member
  rcases List.mem_append.mp member with fork | later
  · obtain ⟨⟨job, j⟩, inside, rfl⟩ := List.mem_map.mp fork
    cases named
    exact (List.mem_zipIdx inside).2.1.trans_eq (Nat.zero_add _)
  · rcases List.mem_append.mp later with own | join
    · obtain ⟨task, -, rfl⟩ := List.mem_map.mp own
      cases named
    · obtain ⟨j, inside, rfl⟩ := List.mem_map.mp join
      cases named
      exact List.mem_range.mp inside

/-- Before a block every thread has its whole job to do. -/
theorem threads_commands (b : Block α) {workers : Nat → Phase α} (free : ∀ i, workers i = .idle) :
    Machine.threads b.jobs.length b.commands workers = b.threads := by
  rw [Machine.threads, threads, own_commands]
  refine congrArg (· ++ [b.own]) (List.ext_getElem (by simp) fun i known _ => ?_)
  rw [List.length_map, List.length_range] at known
  simp only [List.getElem_map, List.getElem_range, free, Phase.rest, jobFor_commands,
    List.nil_append, List.getD_eq_getElem b.jobs [] known]

end Block

namespace Machine

/-- A worker that is free is idle. -/
theorem eq_idle {p : Phase α} (free : p.turn = .free) : p = .idle := by
  cases p with
  | idle => rfl
  | _ => cases free

/-- Only a stopped phase is stopping. -/
theorem eq_stopped {p : Phase α} (stopping : p.turn = .stopping) : p = .stopped := by
  cases p with
  | stopped => rfl
  | _ => cases stopping

/-- Only a reaped phase is gone. -/
theorem eq_reaped {p : Phase α} (gone : p.turn = .gone) : p = .reaped := by
  cases p with
  | reaped => rfl
  | _ => cases gone

/-- Blocks one after the other perform an interleaving each. -/
theorem run_blocks {blocks : List (Block α)} {r : List (Command α)} {m m' : Machine α}
    (program : m.program = blocks.flatMap Block.commands ++ r) (free : ∀ i, m.workers i = .idle)
    (run : ReflTransGen Step m m') (ended : m'.program = []) :
    ∃ mid orders, ReflTransGen Step mid m' ∧ mid.program = r ∧ (∀ i, mid.workers i = .idle) ∧
      List.Forall₂ (fun b order => Interleaving b.threads order) blocks orders ∧
      mid.trace = m.trace ++ orders.flatten := by
  induction blocks generalizing m with
  | nil => exact ⟨m, [], run, program, free, .nil, (List.append_nil _).symm⟩
  | cons b blocks ih =>
    rw [List.flatMap_cons, List.append_assoc] at program
    obtain ⟨last, before, rest, after⟩ := passes_end run program ended
    have inside : Inside b.jobs.length (fun _ => .free) b.commands
        (blocks.flatMap Block.commands ++ r) m := by
      refine ⟨program, fun i => ?_, fun i outside => ?_⟩
      · rw [free i]
        exact b.turns_commands i
      · rw [free i, b.jobFor_commands, List.getD_eq_default _ _ outside]
        exact ⟨rfl, rfl⟩
    obtain ⟨order, traced, woven, turns⟩ := inside.run (fun i => by decide) before rest
    rw [b.threads_commands free] at woven
    obtain ⟨mid, orders, onwards, there, idle, all, trace⟩ :=
      ih rest (fun i => eq_idle (turns i)) after
    refine ⟨mid, order :: orders, onwards, there, idle, .cons woven all, ?_⟩
    rw [trace, traced, List.flatten_cons, List.append_assoc]

/-- Stop the workers one after the other. -/
def shutdown (n : Nat) : List (Command α) :=
  (List.range n).flatMap fun i => [.stop i, .reap i]

/-- All workers idle, some blocks to run and the workers to stop at the end. -/
def start (n : Nat) (blocks : List (Block α)) : Machine α where
  program := blocks.flatMap Block.commands ++ shutdown n
  workers _ := .idle
  trace := []

/-- The shutdown ends the first `n` workers. -/
theorem turns_shutdown (n i : Nat) :
    Command.turns i .free (shutdown (α := α) n) = some (if i < n then .gone else .free) := by
  induction n with
  | zero => rfl
  | succ n ih =>
    have last : shutdown (α := α) (n + 1) = shutdown n ++ [.stop n, .reap n] := by
      rw [shutdown, List.range_succ, List.flatMap_append, List.flatMap_singleton]
      rfl
    rw [last, Command.turns_append, ih, Option.bind_some]
    rcases lt_trichotomy i n with before | rfl | after
    · rw [if_pos before, if_pos (by omega)]
      simp [Command.turns_cons, Command.turn, before.ne']
    · rw [if_neg (lt_irrefl i), if_pos (Nat.lt_succ_self i)]
      simp [Command.turns_cons, Command.turn]
    · rw [if_neg (by omega), if_neg (by omega)]
      simp [Command.turns_cons, Command.turn, after.ne]

/-- It hands out no tasks. -/
theorem jobFor_shutdown (n i : Nat) : (shutdown (α := α) n).flatMap (Command.jobFor i) = [] := by
  refine List.flatMap_eq_nil_iff.mpr fun c member => ?_
  obtain ⟨j, -, inside⟩ := List.mem_flatMap.mp member
  simp only [List.mem_cons, List.not_mem_nil, or_false] at inside
  rcases inside with rfl | rfl <;> rfl

/-- It has no tasks of its own. -/
theorem own_shutdown (n : Nat) : (shutdown (α := α) n).flatMap Command.own = [] := by
  refine List.flatMap_eq_nil_iff.mpr fun c member => ?_
  obtain ⟨j, -, inside⟩ := List.mem_flatMap.mp member
  simp only [List.mem_cons, List.not_mem_nil, or_false] at inside
  rcases inside with rfl | rfl <;> rfl

/-- The whole program takes a free worker to its end. -/
theorem turns_start (n : Nat) (blocks : List (Block α)) (i : Nat) :
    Command.turns i .free (start n blocks).program = some (if i < n then .gone else .free) := by
  have all : Command.turns i .free (blocks.flatMap Block.commands) = some .free := by
    induction blocks with
    | nil => rfl
    | cons b blocks ih =>
      rw [List.flatMap_cons, Command.turns_append, b.turns_commands, Option.bind_some, ih]
  rw [start, Command.turns_append, all, Option.bind_some, turns_shutdown]

/-- A whole run performs an interleaving of every block and ends all workers. -/
theorem run_trace {n : Nat} {blocks : List (Block α)} {m : Machine α}
    (run : ReflTransGen Step (start n blocks) m) (ended : m.program = []) :
    (∃ orders, List.Forall₂ (fun b order => Interleaving b.threads order) blocks orders ∧
      m.trace = orders.flatten) ∧ ∀ i, i < n → m.workers i = .reaped := by
  obtain ⟨mid, orders, after, program, idle, all, traced⟩ :=
    run_blocks rfl (fun i => rfl) run ended
  have inside : Inside 0 (fun i => if i < n then .gone else .free) (shutdown n) [] mid := by
    refine ⟨program.trans (List.append_nil _).symm, fun i => ?_, fun i _ => ?_⟩
    · rw [idle i]
      exact turns_shutdown n i
    · rw [idle i]
      exact ⟨rfl, jobFor_shutdown n i⟩
  obtain ⟨tasks, silent, woven, turns⟩ := inside.run (fun i => by split <;> decide) after ended
  have none : tasks = [] := woven.eq_nil fun job member => by
    rw [List.mem_singleton.mp member]
    exact own_shutdown n
  refine ⟨⟨orders, all, ?_⟩, fun i known => ?_⟩
  · rw [silent, none, List.append_nil, traced, start, List.nil_append]
  · have gone := turns i
    rw [if_pos known] at gone
    exact eq_reaped gone

/-! ### Legal programs -/

/-- All jobs go to existing workers. -/
def Fits (n : Nat) (blocks : List (Block α)) : Prop := ∀ b ∈ blocks, b.jobs.length ≤ n

/-- What holds of every state of a run: the commands that are left are legal, and only
existing workers have something to do. -/
structure Legal (n : Nat) (m : Machine α) : Prop where
  leads : Leads m.workers m.program fun i => if i < n then .gone else .free
  within : Within n m.program m.workers
  known : ∀ c ∈ m.program, ∀ i, c.worker = some i → i < n

/-- The next command is legal. -/
theorem Legal.turn_isSome {n : Nat} {m : Machine α} {c : Command α} {program : List (Command α)}
    (legal : Legal n m) (next : m.program = c :: program) (i : Nat) :
    (c.turn i (m.workers i).turn).isSome := by
  have whole := legal.leads i
  rw [next, Command.turns_cons] at whole
  obtain ⟨t, turned, -⟩ := Option.bind_eq_some_iff.mp whole
  rw [turned]
  rfl

/-- A worker that is handed a job is idle. -/
theorem Legal.free_of_fork {n i : Nat} {job : List α} {m : Machine α} {program : List (Command α)}
    (legal : Legal n m) (next : m.program = .fork i job :: program) : m.workers i = .idle := by
  have turned := legal.turn_isSome next i
  rw [Command.turn, if_pos rfl] at turned
  split at turned
  · exact eq_idle ‹_›
  · cases turned

/-- A worker that is joined has been handed a job. -/
theorem Legal.working_of_join {n i : Nat} {m : Machine α} {program : List (Command α)}
    (legal : Legal n m) (next : m.program = .join i :: program) :
    (m.workers i).turn = .working := by
  have turned := legal.turn_isSome next i
  rw [Command.turn, if_pos rfl] at turned
  split at turned
  · assumption
  · cases turned

/-- A worker that is stopped is idle. -/
theorem Legal.free_of_stop {n i : Nat} {m : Machine α} {program : List (Command α)}
    (legal : Legal n m) (next : m.program = .stop i :: program) : m.workers i = .idle := by
  have turned := legal.turn_isSome next i
  rw [Command.turn, if_pos rfl] at turned
  split at turned
  · exact eq_idle ‹_›
  · cases turned

/-- A worker that is reaped has been stopped. -/
theorem Legal.stopped_of_reap {n i : Nat} {m : Machine α} {program : List (Command α)}
    (legal : Legal n m) (next : m.program = .reap i :: program) : m.workers i = .stopped := by
  have turned := legal.turn_isSome next i
  rw [Command.turn, if_pos rfl] at turned
  split at turned
  · exact eq_stopped ‹_›
  · cases turned

/-- The start is legal. -/
theorem start_legal {n : Nat} {blocks : List (Block α)} (fits : Fits n blocks) :
    Legal n (start n blocks) := by
  refine ⟨turns_start n blocks, fun i outside => ⟨rfl, ?_⟩, fun c member i named => ?_⟩
  · rw [start, List.flatMap_append, jobFor_shutdown, List.append_nil, List.flatMap_assoc]
    refine List.flatMap_eq_nil_iff.mpr fun b member => ?_
    rw [b.jobFor_commands, List.getD_eq_default _ _ ((fits b member).trans outside)]
  · rcases List.mem_append.mp member with block | last
    · obtain ⟨b, listed, inside⟩ := List.mem_flatMap.mp block
      exact (b.known inside named).trans_le (fits b listed)
    · obtain ⟨j, below, inside⟩ := List.mem_flatMap.mp last
      simp only [List.mem_cons, List.not_mem_nil, or_false] at inside
      rcases inside with rfl | rfl <;> cases named <;> exact List.mem_range.mp below

/-- A step keeps a state legal. -/
theorem Step.legal {n : Nat} {m m' : Machine α} (step : Step m m') (legal : Legal n m) :
    Legal n m' := by
  have whole : Inside n (fun i => if i < n then .gone else .free) m.program [] m :=
    ⟨(List.append_nil _).symm, legal.leads, legal.within⟩
  obtain ⟨q, -, inside, -⟩ := step.inside whole (Nat.zero_le _)
  have same : m'.program = q := inside.program.trans (List.append_nil q)
  refine ⟨same ▸ inside.leads, same ▸ inside.within, fun c member => legal.known c ?_⟩
  rcases step.program_cases with ⟨first, next⟩ | kept
  · exact next ▸ List.mem_cons_of_mem first member
  · exact kept ▸ member

/-- Other workers are never used. -/
theorem Legal.free_outside {n i : Nat} {m : Machine α} (legal : Legal n m) (outside : n ≤ i) :
    (m.workers i).turn = .free := by
  have kept : Command.turns i (m.workers i).turn m.program = some (m.workers i).turn := by
    refine Command.turns_of_forall fun c member => Command.turn_of_ne (fun named => ?_) _
    exact absurd (legal.known c member i named) (by omega)
  have ends := (legal.leads i).symm.trans kept
  dsimp only at ends
  rw [if_neg (not_lt.mpr outside)] at ends
  exact (Option.some.inj ends).symm

/-- So does a run. -/
theorem legal_of_run {n : Nat} {m m' : Machine α} (legal : Legal n m)
    (run : ReflTransGen Step m m') : Legal n m' := by
  induction run with
  | refl => exact legal
  | tail _ step ih => exact step.legal ih

/-! ### Every interleaving is possible -/

/-- The workers right after they were handed some jobs. -/
def loaded (jobs : List (List α)) (i : Nat) : Phase α := jobs[i]?.elim .idle .busy

/-- Replacing the job of one worker. -/
theorem update_loaded (before after : List (List α)) (job job' : List α) :
    Function.update (loaded (before ++ job :: after)) before.length (.busy job') =
      loaded (before ++ job' :: after) := by
  ext i
  by_cases here : i = before.length
  · subst here
    simp [loaded]
  · rw [Function.update_of_ne here, loaded, loaded]
    rcases lt_or_gt_of_ne here with low | high
    · rw [List.getElem?_append_left low, List.getElem?_append_left low]
    · obtain ⟨d, rfl⟩ := Nat.exists_eq_add_of_lt high
      rw [List.getElem?_append_right (by omega), List.getElem?_append_right (by omega),
        show before.length + d + 1 - before.length = d + 1 by omega, List.getElem?_cons_succ,
        List.getElem?_cons_succ]

/-- The jobs can be handed out first. -/
theorem run_forks (jobs before : List (List α)) (r : List (Command α)) (trace : List α) :
    ReflTransGen Step ⟨Block.forks jobs before.length ++ r, loaded before, trace⟩
      ⟨r, loaded (before ++ jobs), trace⟩ := by
  induction jobs generalizing before with
  | nil => rw [List.append_nil]; exact .refl
  | cons job jobs ih =>
    have free : loaded before before.length = .idle := by
      rw [loaded, List.getElem?_eq_none le_rfl]
      rfl
    have next : Function.update (loaded before) before.length (.busy job) =
        loaded (before ++ [job]) := by
      ext i
      by_cases here : i = before.length
      · subst here
        simp [loaded]
      · rw [Function.update_of_ne here, loaded, loaded]
        rcases lt_or_gt_of_ne here with low | high
        · rw [List.getElem?_append_left low]
        · rw [List.getElem?_eq_none high.le, List.getElem?_eq_none (by simp; omega)]
    have later := ih (before ++ [job])
    rw [List.length_append, List.length_singleton, List.append_assoc, List.singleton_append] at later
    rw [Block.forks_cons, List.cons_append]
    exact .head (.fork free) (next ▸ later)

/-- The threads perform their tasks in any order that interleaves them. -/
theorem run_tasks {threads : List (List α)} {order : List α} (woven : Interleaving threads order)
    {jobs : List (List α)} {own : List α} (split : threads = jobs ++ [own]) (r : List (Command α))
    (trace : List α) :
    ReflTransGen Step ⟨own.map .perform ++ r, loaded jobs, trace⟩
      ⟨r, loaded (List.replicate jobs.length []), trace ++ order⟩ := by
  induction woven generalizing jobs own trace with
  | done finished =>
    subst split
    have none : own = [] := finished own (List.mem_append_right _ List.mem_cons_self)
    have spent : jobs = List.replicate jobs.length [] :=
      List.eq_replicate_of_mem fun job member => finished job (List.mem_append_left _ member)
    rw [none, ← spent, List.append_nil]
    exact .refl
  | @step before after task rest order later ih =>
    rcases List.eq_nil_or_concat after with rfl | ⟨after, last, rfl⟩
    · obtain ⟨rfl, same⟩ := List.append_inj' split.symm rfl
      cases same
      have onwards := ih rfl (trace ++ [task])
      rw [List.append_assoc] at onwards
      exact .head .perform onwards
    · rw [List.concat_eq_append, ← List.cons_append, ← List.append_assoc] at split
      obtain ⟨rfl, same⟩ := List.append_inj' split.symm rfl
      cases same
      have next : loaded (before ++ (task :: rest) :: after) before.length =
          .busy (task :: rest) := by
        simp [loaded]
      have rejoined : before ++ rest :: after.concat own = (before ++ rest :: after) ++ [own] := by
        rw [List.concat_eq_append, List.append_assoc, List.cons_append]
      have onwards := ih rejoined (trace ++ [task])
      rw [List.append_assoc, ← update_loaded before after (task :: rest) rest] at onwards
      have same : (before ++ rest :: after).length = (before ++ (task :: rest) :: after).length := by
        rw [List.length_append, List.length_append, List.length_cons, List.length_cons]
      rw [same] at onwards
      exact .head (.task next) onwards

/-- Workers without tasks finish and are joined one after the other. -/
theorem run_joins (n j : Nat) (r : List (Command α)) {workers : Nat → Phase α} (trace : List α)
    (spent : ∀ i, j ≤ i → i < j + n → workers i = .busy [])
    (others : ∀ i, ¬ (j ≤ i ∧ i < j + n) → workers i = .idle) :
    ReflTransGen Step ⟨(List.range' j n).map .join ++ r, workers, trace⟩
      ⟨r, fun _ => .idle, trace⟩ := by
  induction n generalizing j workers with
  | zero =>
    have idle : workers = fun _ => .idle := funext fun i => others i (by omega)
    rw [idle]
    exact .refl
  | succ n ih =>
    have first : workers j = .busy [] := spent j le_rfl (by omega)
    have ready : Function.update workers j .finished j = .finished := Function.update_self ..
    refine .head (.finish first) (.head (.join ready) ?_)
    rw [Function.update_idem]
    refine ih (j + 1) (fun i low high => ?_) fun i outside => ?_
    · rw [Function.update_of_ne (by omega)]
      exact spent i (by omega) (by omega)
    · by_cases here : i = j
      · rw [here, Function.update_self]
      · rw [Function.update_of_ne here]
        exact others i (by omega)

/-- Every interleaving of the threads of a block is performed by some run. -/
theorem run_block (b : Block α) {order : List α} (woven : Interleaving b.threads order)
    (r : List (Command α)) (trace : List α) :
    ReflTransGen Step ⟨b.commands ++ r, fun _ => .idle, trace⟩
      ⟨r, fun _ => .idle, trace ++ order⟩ := by
  have forked := run_forks b.jobs []
    (b.own.map .perform ++ ((List.range b.jobs.length).map .join ++ r)) trace
  have performed := run_tasks woven rfl ((List.range b.jobs.length).map .join ++ r) trace
  have spent : ∀ i, 0 ≤ i → i < 0 + b.jobs.length →
      loaded (List.replicate b.jobs.length ([] : List α)) i = .busy [] := by
    intro i _ high
    simp [loaded, show i < b.jobs.length by omega]
  have others : ∀ i, ¬ (0 ≤ i ∧ i < 0 + b.jobs.length) →
      loaded (List.replicate b.jobs.length ([] : List α)) i = .idle := by
    intro i outside
    simp [loaded, show b.jobs.length ≤ i by omega]
  have joined := run_joins b.jobs.length 0 r (trace ++ order) spent others
  rw [← List.range_eq_range'] at joined
  rw [Block.commands, List.append_assoc, List.append_assoc]
  exact forked.trans (performed.trans joined)

/-- Idle workers can be stopped and reaped one by one. -/
theorem run_shutdown (n j : Nat) {workers : Nat → Phase α} (trace : List α)
    (idle : ∀ i, j ≤ i → workers i = .idle) :
    ∃ workers', ReflTransGen Step
      ⟨(List.range' j n).flatMap fun i => [.stop i, .reap i], workers, trace⟩
      ⟨[], workers', trace⟩ := by
  induction n generalizing j workers with
  | zero => exact ⟨workers, .refl⟩
  | succ n ih =>
    have stopped : Function.update workers j .stopped j = .stopped := Function.update_self ..
    have others : ∀ i, j + 1 ≤ i →
        Function.update (Function.update workers j .stopped) j .reaped i = .idle := by
      intro i later
      rw [Function.update_of_ne (by omega), Function.update_of_ne (by omega)]
      exact idle i (by omega)
    obtain ⟨workers', onwards⟩ := ih (j + 1) others
    exact ⟨workers', .head (.stop (idle j le_rfl)) (.head (.reap stopped) onwards)⟩

/-- Every choice of interleavings is performed by some run. -/
theorem exists_run (n : Nat) {blocks : List (Block α)} {orders : List (List α)}
    (woven : List.Forall₂ (fun b order => Interleaving b.threads order) blocks orders) :
    ∃ m, ReflTransGen Step (start n blocks) m ∧ m.program = [] ∧ m.trace = orders.flatten := by
  have all : ∀ trace, ReflTransGen Step
      ⟨blocks.flatMap Block.commands ++ shutdown n, fun _ => .idle, trace⟩
      ⟨shutdown n, fun _ => .idle, trace ++ orders.flatten⟩ := by
    induction woven with
    | nil => exact fun trace => (List.append_nil trace).symm ▸ .refl
    | @cons b order blocks orders first later ih =>
      intro trace
      have onwards := ih (trace ++ order)
      rw [List.append_assoc] at onwards
      rw [List.flatMap_cons, List.append_assoc, List.flatten_cons]
      exact (run_block b first _ trace).trans onwards
  obtain ⟨workers, ended⟩ := run_shutdown n 0 orders.flatten fun i _ => rfl
  rw [← List.range_eq_range'] at ended
  exact ⟨_, (all []).trans ended, rfl, rfl⟩

end Machine

end SimpleOprf.Basis
