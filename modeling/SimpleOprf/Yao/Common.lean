import Mathlib.Algebra.BigOperators.Group.List.Basic
import Mathlib.Algebra.Order.Group.Nat
import Mathlib.Data.Nat.Log
import Mathlib.Tactic.Ring
import SimpleOprf.Yao.HalfGate

/-!
# What both parties share

`YaoCommon`: gate ids, and the cutting of an instruction's arguments into jobs
for the worker threads. Positions in the argument list count tuples of four.

The cuts are computed with exact numbers here. `SumsFit` says when the `int`s
of the source do not overflow, and then both agree.
-/

namespace SimpleOprf.Yao

/-- How one program thread of a party is set up. -/
structure ThreadConfig where
  nThreads : Nat
  threadNum : Nat
  workers : Nat
  threshold : Int

/-- A thread of the machine, with `get_n_worker_threads` at least one. -/
structure ThreadConfig.Valid (cfg : ThreadConfig) : Prop where
  below : cfg.threadNum < cfg.nThreads
  workers : 0 < cfg.workers

/-- `floor(log2(n_threads))`. -/
def logNThreads (nThreads : Nat) : Nat := Nat.log 2 nThreads

/-- `thread_num << (64 - log_n_threads)`. -/
def threadPart (nThreads threadNum : Nat) : BitVec 64 :=
  BitVec.ofNat 64 threadNum <<< (64 - logNThreads nThreads)

/-- `gate_id`: the counter in the thread's own part. -/
def gateId (cfg : ThreadConfig) (counter : BitVec 64) : BitVec 64 :=
  counter + threadPart cfg.nThreads cfg.threadNum

/-- The four arguments of one vector operation. -/
structure Tuple where
  size : Nat
  out : Nat
  left : Nat
  right : Nat
deriving DecidableEq, Repr

/-- `check_args`: the sum of the sizes. -/
def checkArgs (args : List Tuple) : Nat := (args.map Tuple.size).sum

/-! ## Splitting the arguments -/

/-- The loop of `get_splits`, which closes a split when it is large enough and at
the end. -/
def splitLoop (maxGates : Nat) : List Tuple → Nat → Nat → List (Nat × Nat)
  | [], _, _ => []
  | t :: rest, gates, stop =>
    let gates := gates + t.size
    let stop := stop + 1
    if maxGates ≤ gates ∨ rest = [] then
      (gates, stop) :: splitLoop maxGates rest 0 stop
    else
      splitLoop maxGates rest gates stop

/-- The most gates that a worker needs to take, in exact numbers. The source adds in `int`,
which comes to the same when `SumsFit` holds. -/
def maxGatesPerThread (workers : Nat) (threshold : Int) (total : Nat) : Nat :=
  (max (threshold.tdiv 2) ((total + workers - 1) / workers : Nat)).toNat

/-- `get_splits` in exact numbers. -/
def getSplits (workers : Nat) (threshold : Int) (args : List Tuple) (total : Nat) :
    List (Nat × Nat) :=
  splitLoop (maxGatesPerThread workers threshold total) args 0 0

/-- The `int` sums of `check_args` and, from the threshold on, of `get_splits` do not
overflow. C++ leaves open what a party does on an instruction whose sums do. -/
def SumsFit (workers : Nat) (threshold : Int) (args : List Tuple) : Prop :=
  checkArgs args < 2 ^ 31 ∧ (threshold ≤ checkArgs args → checkArgs args + workers < 2 ^ 31)

instance instDecidableSumsFit (workers : Nat) (threshold : Int) (args : List Tuple) :
    Decidable (SumsFit workers threshold args) :=
  inferInstanceAs (Decidable (_ ∧ _))

/-- The arguments between the ends of consecutive splits. -/
def slices (args : List Tuple) : List (Nat × Nat) → Nat → List (Nat × List Tuple)
  | [], _ => []
  | (gates, stop) :: splits, start =>
    (gates, (args.take stop).drop start) :: slices args splits stop

@[simp] theorem checkArgs_nil : checkArgs [] = 0 := rfl

@[simp] theorem checkArgs_cons (t : Tuple) (args : List Tuple) :
    checkArgs (t :: args) = t.size + checkArgs args := by
  simp [checkArgs]

@[simp] theorem checkArgs_append (front back : List Tuple) :
    checkArgs (front ++ back) = checkArgs front + checkArgs back := by
  simp [checkArgs]

theorem splitLoop_ne_nil {maxGates : Nat} {args : List Tuple} (nonempty : args ≠ [])
    (gates stop : Nat) : splitLoop maxGates args gates stop ≠ [] := by
  induction args generalizing gates stop with
  | nil => exact absurd rfl nonempty
  | cons t rest ih =>
    rw [splitLoop]
    split
    · exact List.cons_ne_nil _ _
    · rename_i more
      exact ih (fun last => more (.inr last)) _ _

/-- All splits but the last are full, and the last one has a gate. -/
theorem length_splitLoop {maxGates : Nat} {args : List Tuple} (sizes : ∀ t ∈ args, 1 ≤ t.size)
    (nonempty : args ≠ []) (gates stop : Nat) :
    ((splitLoop maxGates args gates stop).length - 1) * maxGates + 1 ≤ gates + checkArgs args := by
  induction args generalizing gates stop with
  | nil => exact absurd rfl nonempty
  | cons t rest ih =>
    have first := sizes t List.mem_cons_self
    have later := fun other member => sizes other (List.mem_cons_of_mem t member)
    rw [splitLoop, checkArgs_cons]
    by_cases last : rest = []
    · subst last
      rw [if_pos (.inr rfl)]
      simp only [splitLoop, List.length_singleton, checkArgs_nil]
      omega
    · by_cases full : maxGates ≤ gates + t.size
      · have others := ih later last 0 (stop + 1)
        have some : 0 < (splitLoop maxGates rest 0 (stop + 1)).length :=
          List.length_pos_iff.mpr (splitLoop_ne_nil last 0 (stop + 1))
        obtain ⟨k, count⟩ : ∃ k, (splitLoop maxGates rest 0 (stop + 1)).length = k + 1 :=
          ⟨_, (Nat.sub_add_cancel some).symm⟩
        rw [if_pos (.inl full), List.length_cons, Nat.add_sub_cancel, count, Nat.add_mul]
        rw [count, Nat.add_sub_cancel] at others
        omega
      · rw [if_neg (by simp [full, last])]
        have others := ih later last (gates + t.size) (stop + 1)
        omega

/-- There are never more splits than worker threads. -/
theorem length_getSplits {workers : Nat} (positive : 0 < workers) (threshold : Int)
    {args : List Tuple} (sizes : ∀ t ∈ args, 1 ≤ t.size) :
    (getSplits workers threshold args (checkArgs args)).length ≤ workers := by
  by_cases nonempty : args = []
  · subst nonempty
    exact Nat.zero_le _
  · have bound : ((getSplits workers threshold args (checkArgs args)).length - 1) *
        maxGatesPerThread workers threshold (checkArgs args) + 1 ≤ 0 + checkArgs args :=
      length_splitLoop sizes nonempty 0 0
    have share : checkArgs args ≤ workers * maxGatesPerThread workers threshold (checkArgs args) := by
      have ceiling : (checkArgs args + workers - 1) / workers ≤
          maxGatesPerThread workers threshold (checkArgs args) := by
        unfold maxGatesPerThread
        omega
      have covered := Nat.div_add_mod (checkArgs args + workers - 1) workers
      have remainder := Nat.mod_lt (checkArgs args + workers - 1) positive
      have scaled := Nat.mul_le_mul_left workers ceiling
      omega
    by_contra many
    have enough : workers ≤ (getSplits workers threshold args (checkArgs args)).length - 1 := by
      omega
    have scaled := Nat.mul_le_mul_right
      (maxGatesPerThread workers threshold (checkArgs args)) enough
    omega

/-- The slices are the arguments in order, and each split counts the gates of its
slice. -/
theorem slices_splitLoop {maxGates : Nat} {args rest : List Tuple} {gates start stop : Nat}
    (left : args.drop stop = rest) (order : start ≤ stop)
    (counted : checkArgs ((args.take stop).drop start) = gates)
    (pending : rest = [] → start = stop) :
    ((slices args (splitLoop maxGates rest gates stop) start).map (·.2)).flatten =
        args.drop start ∧
      ∀ slice ∈ slices args (splitLoop maxGates rest gates stop) start,
        slice.1 = checkArgs slice.2 := by
  induction rest generalizing gates start stop with
  | nil =>
    have same := pending rfl
    subst same
    rw [left]
    exact ⟨rfl, fun slice impossible => absurd impossible List.not_mem_nil⟩
  | cons t rest ih =>
    have inside : stop < args.length := by
      by_contra beyond
      rw [List.drop_eq_nil_of_le (by omega)] at left
      cases left
    have next : args.drop (stop + 1) = rest := by
      rw [← List.tail_drop, left, List.tail_cons]
    have taken : args.take (stop + 1) = args.take stop ++ [t] := by
      have found : args[stop]? = some t := by
        rw [← List.head?_drop, left, List.head?_cons]
      rw [List.take_add_one, found]
      rfl
    have grown : (args.take (stop + 1)).drop start = (args.take stop).drop start ++ [t] := by
      rw [taken, List.drop_append_of_le_length (by rw [List.length_take]; omega)]
    have total : checkArgs ((args.take (stop + 1)).drop start) = gates + t.size := by
      rw [grown, checkArgs_append, counted]
      simp
    rw [splitLoop]
    split
    · have empty : checkArgs ((args.take (stop + 1)).drop (stop + 1)) = 0 := by
        rw [List.drop_eq_nil_of_le (by rw [List.length_take]; omega)]
        rfl
      obtain ⟨joined, others⟩ := ih next le_rfl empty fun _ => rfl
      constructor
      · simp only [slices, List.map_cons, List.flatten_cons]
        rw [joined, ← List.drop_append_of_le_length (by rw [List.length_take]; omega),
          List.take_append_drop]
      · intro slice member
        rcases List.mem_cons.mp member with rfl | later
        · exact total.symm
        · exact others slice later
    · rename_i more
      exact ih next (by omega) total fun last => absurd (.inr last) more

end SimpleOprf.Yao
