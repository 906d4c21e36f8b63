import Mathlib.Algebra.BigOperators.Group.List.Basic
import SimpleOprf.Basis.Outcome
import SimpleOprf.Yao.Instructions

/-!
# Cutting a batch, in machine integers

`get_splits` and the loops that hand its ranges to the workers, on the words of
the instruction and in the integer types of the source. C++ leaves open what
comes of a signed sum that does not fit its type, so this is a parameter here.
-/

namespace SimpleOprf.Yao.Words

open SimpleOprf.Basis

/-- A value of type `int`. -/
def FitsInt (x : Int) : Prop := -2 ^ 31 ≤ x ∧ x < 2 ^ 31

instance (x : Int) : Decidable (FitsInt x) := inferInstanceAs (Decidable (_ ∧ _))

/-- What comes of a sum that is not an `int`, from its exact value. -/
abbrev Overflow := Int → Outcome Int

/-- The sum wraps around, as it does in most compiled code. -/
def wraps : Overflow := fun x => .ok (x.bmod (2 ^ 32))

/-- Conversion to `size_t`. -/
def toSize (x : Int) : Nat := (x % 2 ^ 64).toNat

/-- Conversion to `int`. -/
def toInt (x : Nat) : Int := (x : Int).bmod (2 ^ 32)

section Code

variable (overflow : Overflow)

/-- `int` addition. The parameter says what an overflow gives. -/
def addInt (a b : Int) : Outcome Int :=
  if FitsInt (a + b) then .ok (a + b) else overflow (a + b)

/-- `check_args` on the arguments, with an `int` sum. -/
def Processor.checkArgs (args : List Int32) (n : Nat) : Outcome Int :=
  if args.length % n ≠ 0 then
    .error (.thrown "invalid number of arguments")
  else
    (List.range (args.length / n)).foldlM
      (fun total k => addInt overflow total (args.getD (k * n) 0).toInt) 0

/-- The loop of `get_splits`. -/
def YaoCommon.splitLoop (maxGatesPerThread : Nat) : List Int32 → Nat → Nat → List (Nat × Nat)
  | [], _, _ => []
  | size :: _ :: _ :: _ :: rest, iGate, stop =>
    let iGate := (iGate + toSize size.toInt) % 2 ^ 64
    let stop := stop + 4
    if maxGatesPerThread ≤ iGate ∨ rest = [] then
      (iGate, stop) :: splitLoop maxGatesPerThread rest 0 stop
    else
      splitLoop maxGatesPerThread rest iGate stop
  -- fewer than four words, which `check_args` excludes
  | size :: _, iGate, stop => [((iGate + toSize size.toInt) % 2 ^ 64, stop + 4)]

/-- `get_splits`, with its `int` sums. -/
def YaoCommon.getSplits (nWorkerThreads : Nat) (args : List Int32) (threshold total : Int) :
    Outcome (List (Nat × Nat)) := do
  let sum ← addInt overflow total nWorkerThreads
  let sum ← addInt overflow sum (-1)
  let maxGatesPerThread := toSize (max (threshold.tdiv 2) (sum.tdiv nWorkerThreads))
  return splitLoop maxGatesPerThread args 0 0

end Code

/-- What `YaoAndJob::dispatch` gets for `jobs[thread]`; the gate is a position in
the gates buffer. -/
structure AndJob where
  thread : Nat
  start : Nat
  stop : Nat
  nGates : Nat
  gate : Nat
  counter : BitVec 64
deriving DecidableEq, Repr

/-- The loop over the ranges; `copied` is the conversion to the type of the
loop's own copies of a range. -/
def dispatchLoop (copied : Nat → Int) (cfg : ThreadConfig) :
    List (Nat × Nat) → Nat → Int → Progress → Outcome (List AndJob)
  | [], _, _, _ => .ok []
  | (iGate, stop) :: splits, iThread, start, progress => do
    if iThread < cfg.workers then
      let later ← dispatchLoop copied cfg splits (iThread + 1)
        (toInt (toSize (copied stop))) (progress.advance (toSize (copied iGate)))
      return ⟨iThread, toSize start, toSize (copied stop), toSize (copied iGate),
        progress.position, gateId cfg progress.counter⟩ :: later
    else
      .error .outOfBounds

/-- The loop of `and_multithread`, which copies into `int`s. -/
def YaoGarbleWire.dispatchSplits (cfg : ThreadConfig) (splits : List (Nat × Nat))
    (progress : Progress) : Outcome (List AndJob) :=
  dispatchLoop toInt cfg splits 0 0 progress

/-- The loop of `YaoEvalWire::and_`, whose copies are `auto`. -/
def YaoEvalWire.dispatchSplits (cfg : ThreadConfig) (splits : List (Nat × Nat))
    (progress : Progress) : Outcome (List AndJob) :=
  dispatchLoop (fun x => x) cfg splits 0 0 progress

/-! ## What a split should be -/

/-- The first word of every tuple. -/
def sizes (args : List Int32) : List Int :=
  (List.range (args.length / 4)).map fun k => (args.getD (k * 4) 0).toInt

/-- Consecutive ranges from `start` to the end of the arguments, which break
between tuples and count the gates of their tuples. -/
inductive Ranges (args : List Int32) : Nat → List (Nat × Nat) → Prop
  | done : Ranges args args.length []
  | range {start stop gates : Nat} {splits : List (Nat × Nat)} (order : start < stop)
      (between : 4 ∣ stop) (counts : (gates : Int) = (sizes ((args.take stop).drop start)).sum)
      (rest : Ranges args stop splits) : Ranges args start ((gates, stop) :: splits)

/-- The gates of the first `k` ranges. -/
def earlier (splits : List (Nat × Nat)) (k : Nat) : Nat := ((splits.take k).map Prod.fst).sum

/-- There is a job for every range, whose gates and ids begin after those of the
earlier ranges. -/
structure Placed (cfg : ThreadConfig) (progress : Progress) (splits : List (Nat × Nat))
    (jobs : List AndJob) : Prop where
  count : jobs.length = splits.length
  thread : ∀ k (job : AndJob), jobs[k]? = some job → job.thread = k
  gate : ∀ k (job : AndJob), jobs[k]? = some job → job.gate = progress.position + earlier splits k
  counter : ∀ k (job : AndJob), jobs[k]? = some job →
    job.counter = gateId cfg (progress.counter + BitVec.ofNat 64 (earlier splits k))

/-- The batch is cut well, and both parties find a worker for every range. -/
def SplitsWell (overflow : Overflow) (cfg : ThreadConfig) (args : List Int32) (threshold : Int) :
    Prop :=
  ∃ total splits, Processor.checkArgs overflow args 4 = .ok total ∧
    YaoCommon.getSplits overflow cfg.workers args threshold total = .ok splits ∧
    total = (sizes args).sum ∧ Ranges args 0 splits ∧
    ((splits.map Prod.fst).sum : Int) = total ∧ splits.length ≤ cfg.workers ∧
    ∀ progress, (∃ jobs, YaoGarbleWire.dispatchSplits cfg splits progress = .ok jobs ∧
        Placed cfg progress splits jobs) ∧
      ∃ jobs, YaoEvalWire.dispatchSplits cfg splits progress = .ok jobs ∧
        Placed cfg progress splits jobs

/-! ## Sizes -/

theorem sizes_cons (size a b c : Int32) (rest : List Int32) :
    sizes (size :: a :: b :: c :: rest) = size.toInt :: sizes rest := by
  have count : (size :: a :: b :: c :: rest).length / 4 = rest.length / 4 + 1 := by
    simp only [List.length_cons]
    omega
  rw [sizes, count, List.range_succ_eq_map, List.map_cons, List.map_map]
  refine congrArg (size.toInt :: ·) (List.map_congr_left fun k _ => ?_)
  have place : (k + 1) * 4 = k * 4 + 1 + 1 + 1 + 1 := by omega
  simp only [Function.comp_apply, place, Nat.succ_eq_add_one, List.getD_cons_succ]

/-- An induction over arguments that come in tuples. -/
@[elab_as_elim]
theorem tuples_induction {motive : List Int32 → Prop} (nil : motive [])
    (cons : ∀ size a b c rest, 4 ∣ rest.length → motive rest →
      motive (size :: a :: b :: c :: rest)) :
    ∀ args : List Int32, 4 ∣ args.length → motive args
  | [], _ => nil
  | size :: a :: b :: c :: rest, whole =>
    have later : 4 ∣ rest.length := by
      simp only [List.length_cons] at whole
      omega
    cons size a b c rest later (tuples_induction nil cons rest later)
  | [_], whole => by simp at whole
  | [_, _], whole => by simp at whole
  | [_, _, _], whole => by simp at whole

theorem sizes_append {front : List Int32} (whole : 4 ∣ front.length) (back : List Int32) :
    sizes (front ++ back) = sizes front ++ sizes back := by
  refine tuples_induction ?_ (fun size a b c rest _ ih => ?_) front whole
  · rfl
  · simp only [List.cons_append, sizes_cons, ih]

/-! ## Sums of machine integers -/

theorem addInt_fits (overflow : Overflow) {a b : Int} (fits : FitsInt (a + b)) :
    addInt overflow a b = .ok (a + b) := if_pos fits

/-- Adding up positive sizes: the partial sums fit when the whole sum does. -/
theorem foldlM_addInt_fits (overflow : Overflow) {values : List Int} (positive : ∀ x ∈ values, 1 ≤ x)
    {total : Int} (start : 0 ≤ total) (fits : total + values.sum < 2 ^ 31) :
    values.foldlM (addInt overflow) total = .ok (total + values.sum) := by
  induction values generalizing total with
  | nil => simp [pure, Except.pure]
  | cons x rest ih =>
    have first := positive x List.mem_cons_self
    have others := fun y member => positive y (List.mem_cons_of_mem x member)
    have later : 0 ≤ rest.sum := List.sum_nonneg fun y member => by
      have := others y member
      omega
    rw [List.sum_cons] at fits ⊢
    rw [List.foldlM_cons, addInt_fits overflow ⟨by omega, by omega⟩, Outcome.ok_bind,
      ih others (by omega) (by omega), Int.add_assoc]

/-- If the whole sum does not fit, some addition is undefined and may do anything. -/
theorem foldlM_addInt_overflows {values : List Int} (positive : ∀ x ∈ values, 1 ≤ x) {total : Int}
    (start : FitsInt total) (beyond : 2 ^ 31 ≤ total + values.sum) :
    values.foldlM (addInt fun _ => .error .outOfBounds) total = .error .outOfBounds := by
  induction values generalizing total with
  | nil =>
    rw [List.sum_nil] at beyond
    exact absurd start.2 (by omega)
  | cons x rest ih =>
    have others := fun y member => positive y (List.mem_cons_of_mem x member)
    rw [List.sum_cons] at beyond
    rw [List.foldlM_cons]
    by_cases fits : FitsInt (total + x)
    · rw [addInt_fits _ fits, Outcome.ok_bind, ih others fits (by omega)]
    · rw [addInt, if_neg fits]
      rfl

/-- On whole tuples the loop adds their sizes. -/
theorem checkArgs_eq (overflow : Overflow) {args : List Int32} (whole : 4 ∣ args.length) :
    Processor.checkArgs overflow args 4 = (sizes args).foldlM (addInt overflow) 0 := by
  rw [Processor.checkArgs, if_neg (by omega), sizes, List.foldlM_map]

/-! ## The loop over the tuples -/

/-- The tuples that some words stand for. -/
def tuples : List Int32 → List Tuple
  | size :: out :: left :: right :: rest =>
    ⟨size.toInt.toNat, out.toInt.toNat, left.toInt.toNat, right.toInt.toNat⟩ :: tuples rest
  | _ => []

/-- No tuples, no arguments. -/
theorem tuples_eq_nil_iff {args : List Int32} (whole : 4 ∣ args.length) :
    tuples args = [] ↔ args = [] := by
  refine tuples_induction ?_ (fun size a b c rest _ _ => ?_) args whole
  · simp [tuples]
  · simp [tuples]

/-- A nonnegative number that fits stays the same. -/
theorem toSize_of_nonneg {x : Int} (nonneg : 0 ≤ x) (fits : x < 2 ^ 64) : toSize x = x.toNat := by
  rw [toSize, Int.emod_eq_of_lt nonneg fits]

/-- What the sizes of tuples mean for the first one. -/
theorem sizes_pos_cons {size a b c : Int32} {rest : List Int32}
    (positive : ∀ x ∈ sizes (size :: a :: b :: c :: rest), 1 ≤ x) :
    1 ≤ size.toInt ∧ ∀ x ∈ sizes rest, 1 ≤ x := by
  rw [sizes_cons] at positive
  exact List.forall_mem_cons.mp positive

/-- On positive sizes the exact total is their sum. -/
theorem checkArgs_tuples {args : List Int32} (whole : 4 ∣ args.length)
    (positive : ∀ x ∈ sizes args, 1 ≤ x) : (checkArgs (tuples args) : Int) = (sizes args).sum := by
  revert positive
  refine tuples_induction ?_ (fun size a b c rest _ ih => ?_) args whole
  · simp [tuples, sizes]
  · intro positive
    obtain ⟨first, others⟩ := sizes_pos_cons positive
    rw [tuples, checkArgs_cons, sizes_cons, List.sum_cons, ← ih others]
    push_cast
    rw [Int.toNat_of_nonneg (by omega)]

/-- A size is added without wrapping. -/
theorem add_toSize {x : Int} (positive : 1 ≤ x) {gates later : Nat}
    (fits : gates + (x.toNat + later) < 2 ^ 64) :
    (gates + toSize x) % 2 ^ 64 = gates + x.toNat := by
  rw [toSize_of_nonneg (by omega) (by omega), Nat.mod_eq_of_lt (by omega)]

/-- Positive arguments give tuples of positive size. -/
theorem tuples_pos {args : List Int32} (whole : 4 ∣ args.length)
    (positive : ∀ x ∈ sizes args, 1 ≤ x) : ∀ t ∈ tuples args, 1 ≤ t.size := by
  revert positive
  refine tuples_induction ?_ (fun size a b c rest _ ih => ?_) args whole
  · intro _ t member
    cases member
  · intro positive t member
    obtain ⟨first, others⟩ := sizes_pos_cons positive
    rcases List.mem_cons.mp member with rfl | later
    · dsimp only
      omega
    · exact ih others t later

/-- The loop over the words splits where the loop over the tuples does. -/
theorem splitLoop_eq (maxGates : Nat) {args : List Int32} (whole : 4 ∣ args.length)
    (positive : ∀ x ∈ sizes args, 1 ≤ x) {gates : Nat}
    (fits : gates + checkArgs (tuples args) < 2 ^ 64) (stop : Nat) :
    YaoCommon.splitLoop maxGates args gates (4 * stop) =
      (Yao.splitLoop maxGates (tuples args) gates stop).map fun split => (split.1, 4 * split.2) := by
  revert gates stop positive
  refine tuples_induction ?_ (fun size a b c rest later ih => ?_) args whole
  · intro _ gates _ stop
    rfl
  · intro positive gates fits stop
    obtain ⟨first, others⟩ := sizes_pos_cons positive
    rw [tuples, checkArgs_cons] at fits
    dsimp only at fits
    have grown := add_toSize first fits
    have next : 4 * stop + 4 = 4 * (stop + 1) := by omega
    rw [YaoCommon.splitLoop, tuples, Yao.splitLoop]
    simp only [grown, next, tuples_eq_nil_iff later]
    split
    · rw [List.map_cons, ih others (by omega)]
    · exact ih others (by omega) (stop + 1)

/-- The arguments of one range. -/
theorem Ranges.cut {front range rest : List Int32} {gates : Nat} {splits : List (Nat × Nat)}
    (wholeFront : 4 ∣ front.length) (wholeRange : 4 ∣ range.length) (some : range ≠ [])
    (counts : (gates : Int) = (sizes range).sum)
    (later : Ranges (front ++ (range ++ rest)) (front.length + range.length) splits) :
    Ranges (front ++ (range ++ rest)) front.length
      ((gates, front.length + range.length) :: splits) := by
  have between : ((front ++ (range ++ rest)).take (front.length + range.length)).drop
      front.length = range := by
    rw [← List.append_assoc, ← List.length_append, List.take_left, List.drop_left]
  have positive := List.length_pos_iff.mpr some
  exact .range (by omega) (Nat.dvd_add wholeFront wholeRange) (by rw [between, counts]) later

/-- One more tuple in a range. -/
theorem sum_sizes_concat {pending : List Int32} (whole : 4 ∣ pending.length) {gates : Nat}
    (counted : (gates : Int) = (sizes pending).sum) {size : Int32} (positive : 1 ≤ size.toInt)
    (a b c : Int32) : ((gates + size.toInt.toNat : Nat) : Int) =
      (sizes (pending ++ [size, a, b, c])).sum := by
  rw [sizes_append whole, List.sum_append, ← counted, sizes_cons, List.sum_cons]
  push_cast
  rw [Int.toNat_of_nonneg (by omega)]
  simp [sizes]

/-- Ranges from the end of `front` on, of which the loop has gone through `pending`. -/
theorem ranges_splitLoop (maxGates : Nat) {rest : List Int32} (whole : 4 ∣ rest.length)
    (positive : ∀ x ∈ sizes rest, 1 ≤ x) {front pending : List Int32} {gates : Nat}
    (wholeFront : 4 ∣ front.length) (wholePending : 4 ∣ pending.length)
    (counted : (gates : Int) = (sizes pending).sum)
    (fits : gates + checkArgs (tuples rest) < 2 ^ 64) (closed : rest = [] → pending = []) :
    Ranges (front ++ (pending ++ rest)) front.length
      (YaoCommon.splitLoop maxGates rest gates (front.length + pending.length)) := by
  revert front pending gates positive
  refine tuples_induction ?_ (fun size a b c rest later ih => ?_) rest whole
  · intro _ front pending gates _ _ _ _ closed
    rw [closed rfl, List.append_nil, List.append_nil]
    exact .done
  · intro positive front pending gates wholeFront wholePending counted fits _
    obtain ⟨first, others⟩ := sizes_pos_cons positive
    rw [tuples, checkArgs_cons] at fits
    dsimp only at fits
    have grown := add_toSize first fits
    have counts := sum_sizes_concat wholePending counted first a b c
    -- the tuple joins the range that the loop is in
    have moved : front ++ (pending ++ size :: a :: b :: c :: rest) =
        front ++ ((pending ++ [size, a, b, c]) ++ rest) := by simp
    have stop : front.length + pending.length + 4 =
        front.length + (pending ++ [size, a, b, c]).length := by
      simp [Nat.add_assoc]
    have wholeRange : 4 ∣ (pending ++ [size, a, b, c]).length := by
      rw [List.length_append]
      exact Nat.dvd_add wholePending (Nat.dvd_refl 4)
    rw [moved, YaoCommon.splitLoop]
    simp only [grown, stop]
    split
    · have wholeNext : 4 ∣ (front ++ (pending ++ [size, a, b, c])).length := by
        rw [List.length_append]
        exact Nat.dvd_add wholeFront wholeRange
      have next := @ih others _ [] 0 wholeNext (Nat.dvd_zero 4) rfl (by omega) fun _ => rfl
      refine .cut wholeFront wholeRange (by simp) counts ?_
      simpa only [List.nil_append, List.append_assoc, List.length_append, List.length_nil,
        Nat.add_zero] using next
    · rename_i more
      exact ih others wholeFront wholeRange counts (by omega) fun none => absurd (.inr none) more

/-- Ranges start inside the arguments. -/
theorem Ranges.start_le {args : List Int32} {start : Nat} {splits : List (Nat × Nat)}
    (ranges : Ranges args start splits) : start ≤ args.length := by
  induction ranges with
  | done => exact le_rfl
  | range order _ _ _ ih => omega

/-- The counts add up to the sizes. -/
theorem Ranges.sum_gates {args : List Int32} {start : Nat} {splits : List (Nat × Nat)}
    (ranges : Ranges args start splits) (between : 4 ∣ start) :
    ((splits.map Prod.fst).sum : Int) = (sizes (args.drop start)).sum := by
  induction ranges with
  | done => simp [sizes]
  | @range start stop gates splits order stopBetween counts rest ih =>
    have inside := rest.start_le
    have parts : args.drop start = (args.take stop).drop start ++ args.drop stop := by
      rw [← List.drop_append_of_le_length (by rw [List.length_take]; omega),
        List.take_append_drop]
    have wholeRange : 4 ∣ ((args.take stop).drop start).length := by
      rw [List.length_drop, List.length_take]
      omega
    rw [List.map_cons, List.sum_cons, parts, sizes_append wholeRange, List.sum_append, ← counts,
      ← ih stopBetween]
    push_cast
    rfl

/-! ## The share of a worker -/

/-- The limit of a range is exact where the sums fit. -/
theorem toSize_max (threshold : Int32) {total workers : Nat} (some : 0 < workers)
    (fits : (total : Int) + workers < 2 ^ 31) :
    toSize (max (threshold.toInt.tdiv 2) (((total : Int) + workers + -1).tdiv workers)) =
      maxGatesPerThread workers threshold.toInt total := by
  have ceiling : ((total : Int) + workers + -1).tdiv workers =
      ((total + workers - 1) / workers : Nat) := by
    have natural : (total : Int) + workers + -1 = ((total + workers - 1 : Nat) : Int) := by omega
    rw [natural]
    rfl
  have below := threshold.toInt_lt
  have half : threshold.toInt.tdiv 2 < 2 ^ 31 := by
    rcases le_total 0 threshold.toInt with nonneg | nonpos
    · have shrunk := Int.tdiv_le_self 2 nonneg
      omega
    · have negated := Int.tdiv_nonneg (Int.neg_nonneg_of_nonpos nonpos) (by decide : (0 : Int) ≤ 2)
      rw [Int.neg_tdiv] at negated
      omega
  have quotient := Nat.div_le_self (total + workers - 1) workers
  have small : (((total + workers - 1) / workers : Nat) : Int) < 2 ^ 31 := by omega
  rw [ceiling, maxGatesPerThread, toSize_of_nonneg]
  · exact le_max_of_le_right (Int.natCast_nonneg _)
  · exact max_lt (by omega) (by omega)

/-- As long as no sum overflows, the share of a worker is the exact one. -/
theorem getSplits_eq (overflow : Overflow) {workers : Nat} (some : 0 < workers) (args : List Int32)
    (threshold : Int32) {total : Nat} (fits : (total : Int) + workers < 2 ^ 31) :
    YaoCommon.getSplits overflow workers args threshold.toInt total =
      .ok (YaoCommon.splitLoop (maxGatesPerThread workers threshold.toInt total) args 0 0) := by
  rw [YaoCommon.getSplits, addInt_fits overflow ⟨by omega, fits⟩, Outcome.ok_bind,
    addInt_fits overflow ⟨by omega, by omega⟩, Outcome.ok_bind, toSize_max threshold some fits]
  rfl

/-- The ranges are those of the exact integers, in words. -/
theorem splitLoop_eq_getSplits {workers : Nat} {args : List Int32} (whole : 4 ∣ args.length)
    (positive : ∀ x ∈ sizes args, 1 ≤ x) (threshold : Int)
    (fits : checkArgs (tuples args) < 2 ^ 64) :
    YaoCommon.splitLoop (maxGatesPerThread workers threshold (checkArgs (tuples args))) args 0 0 =
      (Yao.getSplits workers threshold (tuples args) (checkArgs (tuples args))).map
        fun split => (split.1, 4 * split.2) := by
  have start : 0 + checkArgs (tuples args) < 2 ^ 64 := by omega
  exact splitLoop_eq _ whole positive start 0

/-- On an instruction whose sums fit, `check_args` and, from the threshold on, `get_splits`
return the exact numbers that the runs of both parties are stated with. -/
theorem exact_of_sumsFit (overflow : Overflow) {workers : Nat} (some : 0 < workers)
    {args : List Int32} (whole : 4 ∣ args.length) (positive : ∀ x ∈ sizes args, 1 ≤ x)
    (threshold : Int32) (fits : SumsFit workers threshold.toInt (tuples args)) :
    Processor.checkArgs overflow args 4 = .ok (checkArgs (tuples args) : Int) ∧
      (threshold.toInt ≤ checkArgs (tuples args) →
        YaoCommon.getSplits overflow workers args threshold.toInt (checkArgs (tuples args)) =
          .ok ((Yao.getSplits workers threshold.toInt (tuples args)
            (checkArgs (tuples args))).map fun split => (split.1, 4 * split.2))) := by
  obtain ⟨small, split⟩ := fits
  have total := checkArgs_tuples whole positive
  constructor
  · rw [checkArgs_eq _ whole, foldlM_addInt_fits _ positive le_rfl (by omega), Int.zero_add, total]
  · intro reached
    have room := split reached
    rw [getSplits_eq overflow some args threshold (by omega),
      splitLoop_eq_getSplits whole positive _ (by omega)]

/-! ## The workers -/

theorem earlier_zero (splits : List (Nat × Nat)) : earlier splits 0 = 0 := by
  simp [earlier]

theorem earlier_succ (split : Nat × Nat) (splits : List (Nat × Nat)) (k : Nat) :
    earlier (split :: splits) (k + 1) = split.1 + earlier splits k := by
  simp [earlier]

/-- Enough workers take the ranges from job `iThread` on. -/
theorem dispatchLoop_ok {copied : Nat → Int} {cfg : ThreadConfig} {splits : List (Nat × Nat)}
    (exact : ∀ split ∈ splits, toSize (copied split.1) = split.1) {iThread : Nat}
    (enough : iThread + splits.length ≤ cfg.workers) (start : Int) (progress : Progress) :
    ∃ jobs, dispatchLoop copied cfg splits iThread start progress = .ok jobs ∧
      jobs.length = splits.length ∧ ∀ k (job : AndJob), jobs[k]? = some job →
        job.thread = iThread + k ∧ job.gate = progress.position + earlier splits k ∧
        job.counter = gateId cfg (progress.counter + BitVec.ofNat 64 (earlier splits k)) := by
  induction splits generalizing iThread start progress with
  | nil => exact ⟨[], rfl, rfl, fun k job found => by simp at found⟩
  | cons split splits ih =>
    obtain ⟨iGate, stop⟩ := split
    rw [List.length_cons] at enough
    obtain ⟨later, ran, count, each⟩ :=
      ih (fun other member => exact other (List.mem_cons_of_mem _ member))
        (show iThread + 1 + splits.length ≤ cfg.workers by omega)
        (toInt (toSize (copied stop))) (progress.advance (toSize (copied iGate)))
    have own : toSize (copied iGate) = iGate := exact (iGate, stop) List.mem_cons_self
    refine ⟨⟨iThread, toSize start, toSize (copied stop), toSize (copied iGate),
      progress.position, gateId cfg progress.counter⟩ :: later, ?_,
      by rw [List.length_cons, count, List.length_cons], ?_⟩
    · rw [dispatchLoop, if_pos (by omega), ran]
      rfl
    · rintro (_ | k) job found
      · obtain rfl := Option.some.inj found
        simp [earlier_zero]
      · obtain ⟨thread, gate, counter⟩ := each k job (by simpa using found)
        rw [own] at gate counter
        refine ⟨by omega, ?_, ?_⟩
        · rw [gate, earlier_succ]
          simp only [Progress.advance]
          omega
        · rw [counter, earlier_succ]
          simp only [Progress.advance, BitVec.ofNat_add, BitVec.add_assoc]

/-- A number below `2 ^ 31` stays the same as an `int`. -/
theorem toInt_of_lt {x : Nat} (fits : x < 2 ^ 31) : toInt x = x := by
  have low : -(((4294967296 : Nat) : Int) / 2) ≤ (x : Int) := by omega
  have high : (x : Int) < (((4294967296 : Nat) : Int) + 1) / 2 := by omega
  exact Int.bmod_eq_of_le low high

/-- A number below `2 ^ 64` stays the same as a `size_t`. -/
theorem toSize_cast {x : Nat} (fits : x < 2 ^ 64) : toSize x = x := by
  rw [toSize_of_nonneg (by omega) (by omega), Int.toNat_natCast]

/-- With at most as many ranges as workers, every range becomes a job in its place. -/
theorem dispatchSplits_ok {cfg : ThreadConfig} {splits : List (Nat × Nat)}
    (fits : (splits.map Prod.fst).sum < 2 ^ 31) (enough : splits.length ≤ cfg.workers)
    (progress : Progress) :
    (∃ jobs, YaoGarbleWire.dispatchSplits cfg splits progress = .ok jobs ∧
      Placed cfg progress splits jobs) ∧
    ∃ jobs, YaoEvalWire.dispatchSplits cfg splits progress = .ok jobs ∧
      Placed cfg progress splits jobs := by
  have each : ∀ split ∈ splits, split.1 < 2 ^ 31 := fun split member =>
    lt_of_le_of_lt (List.le_sum_of_mem (List.mem_map_of_mem member)) fits
  have counted : 0 + splits.length ≤ cfg.workers := by omega
  have placed : ∀ {copied : Nat → Int},
      (∀ split ∈ splits, toSize (copied split.1) = split.1) →
      ∃ jobs, dispatchLoop copied cfg splits 0 0 progress = .ok jobs ∧
        Placed cfg progress splits jobs := by
    intro copied exact
    obtain ⟨jobs, ran, count, each⟩ := dispatchLoop_ok exact counted 0 progress
    exact ⟨jobs, ran, count, fun k job found => by have := each k job found; omega,
      fun k job found => (each k job found).2.1, fun k job found => (each k job found).2.2⟩
  constructor
  · exact placed fun split member => by
      have small := each split member
      rw [toInt_of_lt small, toSize_cast (by omega)]
  · exact placed fun split member => by
      have small := each split member
      exact toSize_cast (by omega)

/-! ## When a batch is cut well -/

/-- Whatever comes of an overflow, the batch is cut well exactly if the sum of
its sizes and the number of workers is an `int`. -/
theorem splitsWell_iff (cfg : ThreadConfig) (some : 0 < cfg.workers) {args : List Int32}
    (whole : 4 ∣ args.length) (positive : ∀ x ∈ sizes args, 1 ≤ x) (threshold : Int32) :
    (∀ overflow, SplitsWell overflow cfg args threshold.toInt) ↔
      (sizes args).sum + cfg.workers < 2 ^ 31 := by
  have total := checkArgs_tuples whole positive
  constructor
  · intro well
    by_contra beyond
    obtain ⟨total', splits, checked, split, -⟩ := well fun _ => .error .outOfBounds
    rw [checkArgs_eq _ whole] at checked
    by_cases fits : (sizes args).sum < 2 ^ 31
    · rw [foldlM_addInt_fits _ positive le_rfl (by omega)] at checked
      obtain rfl := Except.ok.inj checked
      rw [YaoCommon.getSplits, addInt, if_neg fun inside => beyond (by have := inside.2; omega)]
        at split
      cases split
    · rw [foldlM_addInt_overflows positive ⟨by omega, by omega⟩ (by omega)] at checked
      cases checked
  · intro fits overflow
    have small : checkArgs (tuples args) < 2 ^ 64 := by omega
    have ranges : Ranges args 0 (YaoCommon.splitLoop
        (maxGatesPerThread cfg.workers threshold.toInt (checkArgs (tuples args))) args 0 0) := by
      have start : 0 + checkArgs (tuples args) < 2 ^ 64 := by omega
      exact @ranges_splitLoop _ _ whole positive [] [] 0 (Nat.dvd_zero 4) (Nat.dvd_zero 4) rfl start
        fun _ => rfl
    have gates := ranges.sum_gates (Nat.dvd_zero 4)
    have few : (YaoCommon.splitLoop (maxGatesPerThread cfg.workers threshold.toInt
        (checkArgs (tuples args))) args 0 0).length ≤ cfg.workers := by
      rw [splitLoop_eq_getSplits whole positive _ small, List.length_map]
      exact length_getSplits some _ (tuples_pos whole positive)
    refine ⟨(sizes args).sum, _, ?_, ?_, rfl, ranges, gates, few, ?_⟩
    · rw [checkArgs_eq _ whole, foldlM_addInt_fits _ positive le_rfl (by omega), Int.zero_add]
    · rw [← total]
      exact getSplits_eq overflow some args threshold (by omega)
    · rw [List.drop_zero] at gates
      exact dispatchSplits_ok (by omega) few

/-- Two tuples of one gate for two workers. -/
theorem two_gates_split_well : (sizes [1, 0, 1, 2, 1, 3, 4, 5]).sum + 2 < 2 ^ 31 ∧
    ∀ overflow, SplitsWell overflow ⟨1, 0, 2, 1⟩ [1, 0, 1, 2, 1, 3, 4, 5] 1 := by
  have sum : (sizes [1, 0, 1, 2, 1, 3, 4, 5]).sum + 2 < 2 ^ 31 := by decide
  exact ⟨sum, (splitsWell_iff ⟨1, 0, 2, 1⟩ (by decide) (by decide) (by decide) 1).mpr sum⟩

/-- The sum with the number of workers wraps around and leaves half the threshold
as the share, so each of the three tuples is a range and the third one has no
worker. -/
theorem third_range_has_no_worker :
    Processor.checkArgs wraps [1073741823, 0, 0, 0, 1073741823, 0, 0, 0, 1, 0, 0, 0] 4 =
      .ok 2147483647 ∧
    YaoCommon.getSplits wraps 2 [1073741823, 0, 0, 0, 1073741823, 0, 0, 0, 1, 0, 0, 0] 1024
      2147483647 = .ok [(1073741823, 4), (1073741823, 8), (1, 12)] ∧
    YaoGarbleWire.dispatchSplits ⟨1, 0, 2, 1024⟩ [(1073741823, 4), (1073741823, 8), (1, 12)]
      ⟨0, 0⟩ = .error .outOfBounds ∧
    YaoEvalWire.dispatchSplits ⟨1, 0, 2, 1024⟩ [(1073741823, 4), (1073741823, 8), (1, 12)]
      ⟨0, 0⟩ = .error .outOfBounds ∧
    ¬ SplitsWell wraps ⟨1, 0, 2, 1024⟩
      [1073741823, 0, 0, 0, 1073741823, 0, 0, 0, 1, 0, 0, 0] 1024 := by
  have total : Processor.checkArgs wraps
      [1073741823, 0, 0, 0, 1073741823, 0, 0, 0, 1, 0, 0, 0] 4 = .ok 2147483647 := by decide
  have split : YaoCommon.getSplits wraps 2
      [1073741823, 0, 0, 0, 1073741823, 0, 0, 0, 1, 0, 0, 0] 1024 2147483647 =
        .ok [(1073741823, 4), (1073741823, 8), (1, 12)] := by decide
  refine ⟨total, split, by decide, by decide, ?_⟩
  rintro ⟨total', splits, checked, computed, -, -, -, few, -⟩
  obtain rfl := Except.ok.inj (total.symm.trans checked)
  obtain rfl := Except.ok.inj (split.symm.trans computed)
  exact absurd few (by decide)

end SimpleOprf.Yao.Words
