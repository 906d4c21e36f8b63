import Mathlib.Data.List.Basic

/-!
# Threads that do not interfere

Some threads each perform a list of tasks in order, and a scheduler interleaves
them. When tasks of different threads commute, every interleaving has the effect
of one thread after the other.

`Interleaving` is an inductive relation between the threads and the order of
their tasks. Nothing is assumed of the scheduler.
-/

namespace SimpleOprf.Basis

variable {α σ : Type*}

/-- The orders in which threads may perform their tasks. -/
inductive Interleaving : List (List α) → List α → Prop
  | done {jobs : List (List α)} (finished : ∀ job ∈ jobs, job = []) : Interleaving jobs []
  | step {before after : List (List α)} {task : α} {rest order : List α}
      (later : Interleaving (before ++ rest :: after) order) :
      Interleaving (before ++ (task :: rest) :: after) (task :: order)

namespace Interleaving

/-- Finished threads in front change nothing. -/
theorem append_done {done jobs : List (List α)} {order : List α}
    (finished : ∀ job ∈ done, job = []) (interleaved : Interleaving jobs order) :
    Interleaving (done ++ jobs) order := by
  induction interleaved with
  | done others =>
    refine .done fun job member => ?_
    rcases List.mem_append.mp member with early | late
    · exact finished job early
    · exact others job late
  | step later ih =>
    rw [← List.append_assoc] at ih ⊢
    exact .step ih

/-- Threads with nothing to do perform nothing. -/
theorem eq_nil {jobs : List (List α)} {order : List α} (interleaved : Interleaving jobs order)
    (finished : ∀ job ∈ jobs, job = []) : order = [] := by
  cases interleaved with
  | done _ => rfl
  | step later => cases finished _ (List.mem_append_right _ List.mem_cons_self)

/-- The threads may run one after the other. -/
theorem flatten (jobs : List (List α)) : Interleaving jobs jobs.flatten := by
  induction jobs with
  | nil => exact .done fun job member => absurd member List.not_mem_nil
  | cons job jobs ih =>
    induction job with
    | nil =>
      have finished : ∀ job ∈ [([] : List α)], job = [] := fun job => List.mem_singleton.mp
      exact append_done finished ih
    | cons task rest inner =>
      change Interleaving ([] ++ (task :: rest) :: jobs) (task :: (rest ++ jobs.flatten))
      exact .step inner

variable {run : σ → α → σ}

/-- A task that commutes with a list of tasks may be performed first. -/
theorem foldl_comm {tasks : List α} {task : α}
    (commutes : ∀ other ∈ tasks, ∀ s, run (run s other) task = run (run s task) other) (s : σ) :
    run (tasks.foldl run s) task = tasks.foldl run (run s task) := by
  induction tasks generalizing s with
  | nil => rfl
  | cons other tasks ih =>
    rw [List.foldl_cons, List.foldl_cons, ← commutes other List.mem_cons_self]
    exact ih (fun later member => commutes later (List.mem_cons_of_mem _ member)) (run s other)

/-- When tasks of different threads commute, every interleaving has the effect of
the threads one after the other. -/
theorem foldl_eq {jobs : List (List α)} {order : List α} (interleaved : Interleaving jobs order)
    (commute : jobs.Pairwise fun a b => ∀ x ∈ a, ∀ y ∈ b, ∀ s, run (run s x) y = run (run s y) x)
    (s : σ) : order.foldl run s = jobs.flatten.foldl run s := by
  induction interleaved generalizing s with
  | @done jobs finished =>
    have empty : jobs.flatten = [] := List.flatten_eq_nil_iff.mpr finished
    rw [empty]
  | @step before after task rest order later ih =>
    rw [List.pairwise_append, List.pairwise_cons] at commute
    obtain ⟨front, ⟨middle, back⟩, across⟩ := commute
    have fewer : (before ++ rest :: after).Pairwise
        fun a b => ∀ x ∈ a, ∀ y ∈ b, ∀ s, run (run s x) y = run (run s y) x := by
      rw [List.pairwise_append, List.pairwise_cons]
      refine ⟨front, ⟨fun b member x inside => ?_, back⟩, fun a early b member => ?_⟩
      · exact middle b member x (List.mem_cons_of_mem _ inside)
      · rcases List.mem_cons.mp member with rfl | late
        · intro x first y second
          exact across a early _ List.mem_cons_self x first y (List.mem_cons_of_mem _ second)
        · exact across a early b (List.mem_cons_of_mem _ late)
    have passed : ∀ other ∈ before.flatten, ∀ s, run (run s other) task = run (run s task) other := by
      intro other member
      obtain ⟨a, early, inside⟩ := List.mem_flatten.mp member
      exact across a early _ List.mem_cons_self other inside task List.mem_cons_self
    rw [List.foldl_cons, ih fewer]
    simp only [List.flatten_append, List.flatten_cons, List.foldl_append, List.foldl_cons]
    rw [foldl_comm passed]

end Interleaving

end SimpleOprf.Basis
