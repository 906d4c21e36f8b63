import SimpleOprf.Yao.Instructions

/-!
# The jobs of an instruction

Whatever path a party takes, its jobs one after the other are the passes of the
gate-by-gate loop with consecutive buffer positions and ids, unless the garbler's
batched loop meets a repeated operand of more than one register.

`AndMeets` collects the conditions on one instruction. Where they hold, both
parties issue the same gates at the same positions with the same ids, whichever
path each of them takes.
-/

namespace SimpleOprf.Yao

open SimpleOprf.Basis

/-! ## Counting wires -/

/-- The wires of some passes. -/
def wireCount (ps : List Pass) : Nat := (ps.map Pass.count).sum

@[simp] theorem wireCount_nil : wireCount [] = 0 := rfl

@[simp] theorem wireCount_cons (p : Pass) (ps : List Pass) :
    wireCount (p :: ps) = p.count + wireCount ps := by
  simp [wireCount]

@[simp] theorem wireCount_append (front back : List Pass) :
    wireCount (front ++ back) = wireCount front + wireCount back := by
  simp [wireCount]

/-- The first `m` registers hold what fits of the size. -/
private theorem sum_registers (size m : Nat) :
    ((List.range m).map fun j => min defaultLength (size - j * defaultLength)).sum =
      min size (m * defaultLength) := by
  induction m with
  | zero => simp
  | succ m ih =>
    rw [List.range_succ, List.map_append, List.sum_append, ih]
    simp only [List.map_singleton, List.sum_singleton, defaultLength]
    omega

/-- The passes over a tuple cover its wires. -/
theorem wireCount_passes (rightStep : Nat → Nat) (t : Tuple) :
    wireCount (passes rightStep t) = t.size := by
  have sums := sum_registers t.size (divCeil t.size defaultLength)
  rw [wireCount, passes, List.map_map]
  refine sums.trans ?_
  simp only [divCeil, defaultLength]
  omega

/-- The passes of tuples have as many wires as the tuples. -/
theorem wireCount_flatMap {passesOf : Tuple → List Pass}
    (covers : ∀ t, wireCount (passesOf t) = t.size) (args : List Tuple) :
    wireCount (args.flatMap passesOf) = checkArgs args := by
  induction args with
  | nil => rfl
  | cons t args ih => rw [List.flatMap_cons, wireCount_append, covers, ih, checkArgs_cons]

/-! ## Issuing -/

variable {repeats : Bool} {cfg : ThreadConfig}

theorem issue_append (front back : List Pass) (slot : Nat) (counter : BitVec 64) :
    issue repeats (front ++ back) slot counter = issue repeats front slot counter ++
      issue repeats back (slot + wireCount front)
        (counter + BitVec.ofNat 64 (wireCount front)) := by
  induction front generalizing slot counter with
  | nil => simp [issue]
  | cons p front ih =>
    simp only [List.cons_append, issue, ih, wireCount_cons, BitVec.ofNat_add, Nat.add_assoc,
      BitVec.add_assoc]

/-- An issued pass is one of the passes and keeps to the range of slots. -/
theorem mem_issue {ps : List Pass} {slot : Nat} {counter : BitVec 64} {pass : AndPass}
    (member : pass ∈ issue repeats ps slot counter) :
    pass.toPass ∈ ps ∧ pass.repeats = repeats ∧ slot ≤ pass.slot ∧
      pass.slot + pass.count ≤ slot + wireCount ps := by
  induction ps generalizing slot counter with
  | nil => cases member
  | cons p ps ih =>
    rw [wireCount_cons]
    rcases List.mem_cons.mp member with rfl | later
    · exact ⟨List.mem_cons_self, rfl, le_rfl, by dsimp only; omega⟩
    · obtain ⟨known, same, low, high⟩ := ih later
      exact ⟨List.mem_cons_of_mem p known, same, by omega, by omega⟩

/-- The jobs for slices one after the other. -/
theorem flatten_dispatch {passesOf : Tuple → List Pass}
    (covers : ∀ t, wireCount (passesOf t) = t.size) {slices : List (Nat × List Tuple)}
    (counted : ∀ slice ∈ slices, slice.1 = checkArgs slice.2) (progress : Progress) :
    (dispatch cfg repeats passesOf slices progress).flatten =
      issue repeats ((slices.map (·.2)).flatten.flatMap passesOf) progress.position
        (gateId cfg progress.counter) := by
  induction slices generalizing progress with
  | nil => rfl
  | cons slice slices ih =>
    have gates := counted slice List.mem_cons_self
    have others := fun later member => counted later (List.mem_cons_of_mem slice member)
    rw [dispatch, List.flatten_cons, ih others, List.map_cons, List.flatten_cons,
      List.flatMap_append, issue_append, wireCount_flatMap covers, ← gates]
    simp only [Progress.advance, gateId]
    rw [BitVec.add_assoc, BitVec.add_assoc, BitVec.add_comm (BitVec.ofNat 64 slice.1)]

theorem length_dispatch {passesOf : Tuple → List Pass} (slices : List (Nat × List Tuple))
    (progress : Progress) :
    (dispatch cfg repeats passesOf slices progress).length = slices.length := by
  induction slices generalizing progress with
  | nil => rfl
  | cons slice slices ih => rw [dispatch, List.length_cons, ih, List.length_cons]

theorem length_slices (args : List Tuple) (splits : List (Nat × Nat)) (start : Nat) :
    (slices args splits start).length = splits.length := by
  induction splits generalizing start with
  | nil => rfl
  | cons split splits ih => rw [slices, List.length_cons, ih, List.length_cons]

/-- The slices of a split make up the arguments. -/
theorem slices_getSplits (workers : Nat) (threshold : Int) (args : List Tuple) (total : Nat) :
    ((slices args (getSplits workers threshold args total) 0).map (·.2)).flatten = args ∧
      ∀ slice ∈ slices args (getSplits workers threshold args total) 0,
        slice.1 = checkArgs slice.2 := by
  have whole : args.drop 0 = args := rfl
  exact slices_splitLoop whole le_rfl rfl fun _ => rfl

/-! ## Passes that do not interfere -/

/-- Neither pass writes what the other one writes or reads. -/
structure Pass.Independent (p q : Pass) : Prop where
  outs : p.out ≠ q.out
  left : p.out ≠ q.left
  right : p.out ≠ q.right
  leftBack : q.out ≠ p.left
  rightBack : q.out ≠ p.right

/-- Independent passes commute. -/
theorem Memory.apply_comm {α : Type} {p q : Pass} (apart : p.Independent q) (S : Memory α)
    (f g : List α → List α → List α) :
    (S.apply p f).apply q g = (S.apply q g).apply p f := by
  unfold Memory.apply
  rw [Function.update_of_ne apart.left.symm, Function.update_of_ne apart.right.symm,
    Function.update_of_ne apart.leftBack.symm, Function.update_of_ne apart.rightBack.symm,
    Function.update_comm apart.outs]

/-- Passes with their places in the buffer that do not interfere. -/
structure AndPass.Independent (p q : AndPass) : Prop where
  passes : p.toPass.Independent q.toPass
  slots : p.slot + p.count ≤ q.slot

/-- Independent passes of the evaluator commute. -/
theorem evalPass_comm (hash : Key → Key) (gates : Nat → YaoHalfGate) {p q : AndPass}
    (apart : p.Independent q) (S : Memory Key) :
    evalPass hash gates (evalPass hash gates S p) q = evalPass hash gates (evalPass hash gates S q) p :=
  Memory.apply_comm apart.passes S _ _

/-- Independent passes of the garbler commute. -/
theorem garblePass_comm (hash : Key → Key) (delta : Key) {p q : AndPass} (apart : p.Independent q)
    (state : Memory Key × (Nat → YaoHalfGate)) :
    garblePass hash delta (garblePass hash delta state p) q =
      garblePass hash delta (garblePass hash delta state q) p := by
  obtain ⟨S, gates⟩ := state
  have passes := apart.passes
  have slots := apart.slots
  have unread : ∀ (f : List Key → List Key → List Key),
      (S.apply p.toPass f) q.left = S q.left ∧ (S.apply p.toPass f) q.right = S q.right := fun f =>
    ⟨Function.update_of_ne passes.left.symm _ _, Function.update_of_ne passes.right.symm _ _⟩
  have unreadBack : ∀ (f : List Key → List Key → List Key),
      (S.apply q.toPass f) p.left = S p.left ∧ (S.apply q.toPass f) p.right = S p.right := fun f =>
    ⟨Function.update_of_ne passes.leftBack.symm _ _, Function.update_of_ne passes.rightBack.symm _ _⟩
  simp only [garblePass, unread, unreadBack, Memory.apply_comm passes]
  refine congrArg (Prod.mk _) (funext fun i => ?_)
  by_cases first : p.slot ≤ i ∧ i < p.slot + p.count
  · have second : ¬(q.slot ≤ i ∧ i < q.slot + q.count) := by omega
    rw [if_neg second, if_pos first, if_pos first]
  · rw [if_neg first, if_neg first]

/-! ## Jobs that do not interfere -/

/-- The registers that a tuple writes. -/
def Tuple.Writes (t : Tuple) (r : Nat) : Prop :=
  t.out ≤ r ∧ r < t.out + divCeil t.size defaultLength

/-- Tuples of different jobs write different registers. -/
def JobsApart (jobs : List (List Tuple)) : Prop :=
  jobs.Pairwise fun a b => ∀ t ∈ a, ∀ u ∈ b, ∀ r, ¬(t.Writes r ∧ u.Writes r)

/-- No output register of an instruction is one of its input registers. -/
def Separate (ps : List Pass) : Prop :=
  ∀ p ∈ ps, ∀ q ∈ ps, p.out ≠ q.left ∧ p.out ≠ q.right

/-- A pass writes a register of its tuple. -/
theorem writes_of_mem_passes {rightStep : Nat → Nat} {t : Tuple} {p : Pass}
    (member : p ∈ passes rightStep t) : t.Writes p.out := by
  obtain ⟨j, inside, rfl⟩ := List.mem_map.mp member
  have below := List.mem_range.mp inside
  exact ⟨Nat.le_add_right _ _, Nat.add_lt_add_left below _⟩

/-- The passes of two jobs are independent when their tuples write different
registers and the instruction reads none of them. -/
theorem independent_of_apart {rightStep : Nat → Nat} {args a b : List Tuple}
    (separate : Separate (args.flatMap (passes rightStep))) (inA : a ⊆ args) (inB : b ⊆ args)
    (apart : ∀ t ∈ a, ∀ u ∈ b, ∀ r, ¬(t.Writes r ∧ u.Writes r)) {p q : Pass}
    (first : p ∈ a.flatMap (passes rightStep)) (second : q ∈ b.flatMap (passes rightStep)) :
    p.Independent q := by
  obtain ⟨t, memberT, passT⟩ := List.mem_flatMap.mp first
  obtain ⟨u, memberU, passU⟩ := List.mem_flatMap.mp second
  have inP : p ∈ args.flatMap (passes rightStep) := List.mem_flatMap.mpr ⟨t, inA memberT, passT⟩
  have inQ : q ∈ args.flatMap (passes rightStep) := List.mem_flatMap.mpr ⟨u, inB memberU, passU⟩
  refine ⟨fun same => ?_, (separate p inP q inQ).1, (separate p inP q inQ).2,
    (separate q inQ p inP).1, (separate q inQ p inP).2⟩
  have both := writes_of_mem_passes passU
  rw [← same] at both
  exact apart t memberT u memberU p.out ⟨writes_of_mem_passes passT, both⟩

/-- The jobs dispatched for slices that lie apart are independent. -/
theorem dispatch_independent {rightStep : Nat → Nat} {args : List Tuple}
    (separate : Separate (args.flatMap (passes rightStep))) {slices : List (Nat × List Tuple)}
    (inside : ∀ slice ∈ slices, slice.2 ⊆ args)
    (counted : ∀ slice ∈ slices, slice.1 = checkArgs slice.2)
    (apart : JobsApart (slices.map (·.2))) (progress : Progress) :
    (dispatch cfg repeats (passes rightStep) slices progress).Pairwise
      fun a b => ∀ x ∈ a, ∀ y ∈ b, x.Independent y := by
  induction slices generalizing progress with
  | nil => exact List.Pairwise.nil
  | cons slice slices ih =>
    have gates := counted slice List.mem_cons_self
    have within := fun later member => inside later (List.mem_cons_of_mem slice member)
    have others := fun later member => counted later (List.mem_cons_of_mem slice member)
    obtain ⟨front, back⟩ := List.pairwise_cons.mp apart
    rw [dispatch, List.pairwise_cons]
    refine ⟨fun job member x inJob y inOther => ?_, ih within others back _⟩
    obtain ⟨passX, -, -, highX⟩ := mem_issue inJob
    have listed := List.mem_flatten.mpr ⟨job, member, inOther⟩
    rw [flatten_dispatch (wireCount_passes rightStep) others] at listed
    obtain ⟨passY, -, lowY, -⟩ := mem_issue listed
    obtain ⟨u, memberU, passU⟩ := List.mem_flatMap.mp passY
    obtain ⟨later, inMap, inLater⟩ := List.mem_flatten.mp memberU
    obtain ⟨other, inSlices, rfl⟩ := List.mem_map.mp inMap
    refine ⟨independent_of_apart separate (inside slice List.mem_cons_self)
      (within other inSlices) (front other.2 inMap) passX
      (List.mem_flatMap.mpr ⟨u, inLater, passU⟩), ?_⟩
    rw [wireCount_flatMap (wireCount_passes rightStep), ← gates] at highX
    exact highX.trans lowY

/-! ## The two parties' jobs -/

/-- The condition of an AND instruction for the two parties to agree on it. -/
structure AndMeets (garbler evaluator : ThreadConfig) (repeats : Bool) (args : List Tuple) :
    Prop where
  /-- The garbler's batched loop meets a repeated operand of one register only. -/
  units : repeats = true → 10 ≤ checkArgs args ∨ garbler.threshold ≤ checkArgs args →
    ∀ t ∈ args, t.size ≤ defaultLength
  /-- A garbler with several threads for few gates has no thread part in its ids. -/
  ids : garbler.threshold ≤ checkArgs args → checkArgs args < 10 →
    threadPart garbler.nThreads garbler.threadNum = 0
  garblerApart : garbler.threshold ≤ checkArgs args →
    JobsApart ((YaoGarbleWire.slicesOf garbler args).map (·.2))
  evaluatorApart : YaoEvalWire.threshold ≤ checkArgs args →
    JobsApart ((YaoEvalWire.slicesOf evaluator args).map (·.2))
  garblerSums : SumsFit garbler.workers garbler.threshold args
  evaluatorSums : SumsFit evaluator.workers YaoEvalWire.threshold args

/-- The counter from which both parties number the gates of an instruction. -/
def baseCounter (cfg : ThreadConfig) (args : List Tuple) (counter : BitVec 64) : BitVec 64 :=
  if checkArgs args < 10 then counter else gateId cfg counter

/-- Jobs that amount to the gate-by-gate loop. -/
structure JobsAgree (cfg : ThreadConfig) (repeats : Bool) (args : List Tuple)
    (progress : Progress) (jobs : List (List AndPass)) : Prop where
  flatten : jobs.flatten = issue repeats (args.flatMap (Processor.andPasses repeats))
    progress.position (baseCounter cfg args progress.counter)
  independent : jobs.Pairwise fun a b => ∀ x ∈ a, ∀ y ∈ b, x.Independent y
  workers : jobs.length ≤ cfg.workers

section Parties

variable {args : List Tuple} {progress : Progress}

/-- A single job agrees when it goes over the passes from the right counter. -/
theorem jobsAgree_singleton (valid : cfg.Valid) {ps : List Pass} {counter : BitVec 64}
    (same : ps = args.flatMap (Processor.andPasses repeats))
    (base : counter = baseCounter cfg args progress.counter) :
    JobsAgree cfg repeats args progress [issue repeats ps progress.position counter] where
  flatten := by rw [same, base, List.flatten_singleton]
  independent := List.pairwise_singleton _ _
  workers := valid.workers

/-- The jobs for split arguments agree. -/
theorem jobsAgree_dispatch (valid : cfg.Valid) (sizes : ∀ t ∈ args, 1 ≤ t.size)
    {rightStep : Nat → Nat} (threshold : Int)
    (same : args.flatMap (passes rightStep) = args.flatMap (Processor.andPasses repeats))
    (separate : Separate (args.flatMap (Processor.andPasses repeats)))
    (apart : JobsApart ((slices args
      (getSplits cfg.workers threshold args (checkArgs args)) 0).map (·.2)))
    (base : gateId cfg progress.counter = baseCounter cfg args progress.counter) :
    JobsAgree cfg repeats args progress (dispatch cfg repeats (passes rightStep)
      (slices args (getSplits cfg.workers threshold args (checkArgs args)) 0) progress) := by
  obtain ⟨whole, counted⟩ := slices_getSplits cfg.workers threshold args (checkArgs args)
  have inside : ∀ slice ∈ slices args (getSplits cfg.workers threshold args (checkArgs args)) 0,
      slice.2 ⊆ args := by
    intro slice member t inSlice
    rw [← whole]
    exact List.mem_flatten.mpr ⟨slice.2, List.mem_map_of_mem member, inSlice⟩
  rw [← same] at separate
  refine ⟨?_, dispatch_independent separate inside counted apart progress, ?_⟩
  · rw [flatten_dispatch (wireCount_passes rightStep) counted, whole, same, base]
  · rw [length_dispatch, length_slices]
    exact length_getSplits valid.workers threshold sizes

/-- Passes over one register do not depend on the step of the right register. -/
theorem passes_of_small {f g : Nat → Nat} (start : f 0 = g 0) {t : Tuple}
    (small : t.size ≤ defaultLength) : passes f t = passes g t := by
  unfold passes
  refine List.map_congr_left fun j member => ?_
  have below := List.mem_range.mp member
  have first : j = 0 := by
    simp only [divCeil, defaultLength] at below small
    omega
  rw [first, start]

/-- On short tuples the garbler's own loop makes the same passes. -/
theorem garbler_andPasses (small : repeats = true → ∀ t ∈ args, t.size ≤ defaultLength) :
    args.flatMap YaoGarbleWire.andPasses = args.flatMap (Processor.andPasses repeats) := by
  cases repeats with
  | false => rfl
  | true =>
    refine List.flatMap_congr fun t member => ?_
    exact passes_of_small (f := fun j => j) (g := fun _ => 0) rfl (small rfl t member)

variable {garbler evaluator : ThreadConfig}

/-- Each path of the garbler issues the same gates. -/
theorem garbler_jobsAgree (valid : garbler.Valid) (sizes : ∀ t ∈ args, 1 ≤ t.size)
    (separate : Separate (args.flatMap (Processor.andPasses repeats)))
    (meets : AndMeets garbler evaluator repeats args) (progress : Progress) :
    JobsAgree garbler repeats args progress
      (YaoGarbleWire.andMultithread garbler repeats args progress) := by
  unfold YaoGarbleWire.andMultithread
  split
  · unfold YaoGarbleWire.andSinglethread
    split
    · rename_i few
      exact jobsAgree_singleton valid rfl (if_pos few).symm
    · rename_i many
      have enough : 10 ≤ checkArgs args := Nat.le_of_not_lt many
      exact jobsAgree_singleton valid
        (garbler_andPasses fun again => meets.units again (.inl enough)) (if_neg many).symm
  · rename_i reached
    have threshold : garbler.threshold ≤ checkArgs args := Int.not_lt.mp reached
    have base : gateId garbler progress.counter =
        baseCounter garbler args progress.counter := by
      unfold baseCounter
      split
      · rename_i few
        rw [gateId, meets.ids threshold few]
        exact BitVec.add_zero _
      · rfl
    exact jobsAgree_dispatch valid sizes garbler.threshold
      (garbler_andPasses fun again => meets.units again (.inr threshold)) separate
      (meets.garblerApart threshold) base

/-- Each path of the evaluator issues the same gates. -/
theorem evaluator_jobsAgree (valid : evaluator.Valid) (sizes : ∀ t ∈ args, 1 ≤ t.size)
    (separate : Separate (args.flatMap (Processor.andPasses repeats)))
    (meets : AndMeets garbler evaluator repeats args) (progress : Progress) :
    JobsAgree evaluator repeats args progress (YaoEvalWire.and evaluator repeats args progress) := by
  unfold YaoEvalWire.and
  split
  · unfold YaoEvalWire.andSinglethread
    split
    · rename_i few
      exact jobsAgree_singleton valid rfl (if_pos few).symm
    · rename_i many
      exact jobsAgree_singleton valid rfl (if_neg many).symm
  · rename_i many
    have reached : YaoEvalWire.threshold ≤ checkArgs args := Nat.le_of_not_lt many
    have base : gateId evaluator progress.counter =
        baseCounter evaluator args progress.counter := by
      have notFew : ¬checkArgs args < 10 := by
        simp only [YaoEvalWire.threshold] at reached
        omega
      exact (if_neg notFew).symm
    exact jobsAgree_dispatch valid sizes YaoEvalWire.threshold rfl separate
      (meets.evaluatorApart reached) base

end Parties

/-! ## Jobs of free XORs -/

/-- The condition of an XOR instruction on a party with this many workers. -/
structure XorsMeet (workers : Nat) (args : List Tuple) : Prop where
  nonempty : args ≠ []
  enough : 1024 ≤ args.length → workers < args.length
  apart : ∀ jobs, xorJobs workers args = some jobs → JobsApart jobs

/-- The batches of the loop are the tuples in order. -/
theorem flatten_batches (args : List Tuple) (batch m : Nat) :
    ((List.range m).map fun i => (args.drop (i * batch)).take batch).flatten =
      args.take (m * batch) := by
  induction m with
  | zero => simp
  | succ m ih =>
    rw [List.range_succ, List.map_append, List.flatten_append, ih, List.map_singleton,
      List.flatten_singleton, Nat.succ_mul, List.take_add]

/-- The jobs are there, and one after the other they are the arguments. -/
theorem xorJobs_eq_some {workers : Nat} {args : List Tuple} (meets : XorsMeet workers args) :
    ∃ jobs, xorJobs workers args = some jobs ∧ jobs.flatten = args := by
  unfold xorJobs
  split
  · rw [if_neg meets.nonempty]
    exact ⟨_, rfl, List.flatten_singleton⟩
  · rename_i long
    have more := meets.enough (Nat.le_of_not_lt long)
    have batch : args.length / (workers + 1) ≠ 0 :=
      Nat.ne_of_gt (Nat.div_pos more (Nat.succ_pos workers))
    dsimp only
    rw [if_neg batch]
    refine ⟨_, rfl, ?_⟩
    rw [List.flatten_append, flatten_batches, List.flatten_singleton, List.take_append_drop]

/-- However the threads interleave, an XOR instruction has the effect of its passes
in order. -/
theorem xorsStep_iff {α : Type} [Inhabited α] {xor : α → α → α} {workers : Nat}
    {args : List Tuple} (meets : XorsMeet workers args)
    (separate : Separate (args.flatMap (passes id))) {S S' : Memory α} :
    XorsStep xor workers args S S' ↔
      S' = (args.flatMap (passes id)).foldl (Processor.xorPass xor) S := by
  obtain ⟨jobs, found, whole⟩ := xorJobs_eq_some meets
  have flat : (jobs.map fun job => job.flatMap (passes id)).flatten =
      args.flatMap (passes id) := by
    rw [← whole, List.flatMap_def, List.map_flatten, List.flatten_flatten, List.map_map]
    rfl
  have subset : ∀ job ∈ jobs, job ⊆ args := by
    intro job member t inside
    rw [← whole]
    exact List.mem_flatten.mpr ⟨job, member, inside⟩
  have commute : (jobs.map fun job => job.flatMap (passes id)).Pairwise fun a b =>
      ∀ x ∈ a, ∀ y ∈ b, ∀ s : Memory α, Processor.xorPass xor (Processor.xorPass xor s x) y =
        Processor.xorPass xor (Processor.xorPass xor s y) x := by
    rw [List.pairwise_map]
    refine (meets.apart jobs found).imp_of_mem fun inA inB apart x first y second s => ?_
    exact Memory.apply_comm (independent_of_apart separate (subset _ inA) (subset _ inB) apart
      first second) s _ _
  constructor
  · rintro ⟨jobs', order, found', interleaved, rfl⟩
    obtain rfl : jobs' = jobs := Option.some.inj (found'.symm.trans found)
    rw [interleaved.foldl_eq commute, flat]
  · rintro rfl
    refine ⟨jobs, args.flatMap (passes id), found, ?_, rfl⟩
    rw [← flat]
    exact Interleaving.flatten _

end SimpleOprf.Yao
