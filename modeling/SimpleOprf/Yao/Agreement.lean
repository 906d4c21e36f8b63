import SimpleOprf.Yao.Jobs

/-!
# The parties agree on a run

Along a run the evaluator's key of every wire is the garbler's full key, offset
when the plain bit is one. One instruction preserves this when its jobs amount to
the gate-by-gate loop, so a run whose instructions all do preserves it.
-/

namespace SimpleOprf.Yao

open SimpleOprf.Basis

/-! ## Aligned wires -/

/-- One register of the evaluator carries bits under the garbler's full keys. -/
structure Carries (delta : Key) (G E : List Key) (V : List Bool) : Prop where
  garbler : G.length = V.length
  evaluator : E.length = V.length
  keys : ∀ i, E.getD i default = keyOf (G.getD i default) delta (V.getD i default)

/-- Every register of the evaluator carries the plain bits. -/
def Aligned (delta : Key) (G E : Memory Key) (V : Memory Bool) : Prop :=
  ∀ r, Carries delta (G r) (E r) (V r)

section Wires

variable {delta : Key}

/-- A register carries its bits when every wire of it does. -/
theorem carries_range {n : Nat} {g e : Nat → Key} {v : Nat → Bool}
    (each : ∀ k, k < n → e k = keyOf (g k) delta (v k)) :
    Carries delta ((List.range n).map g) ((List.range n).map e) ((List.range n).map v) where
  garbler := by simp
  evaluator := by simp
  keys i := by
    by_cases inside : i < n
    · simpa [List.getD_eq_getElem?_getD, inside] using each i inside
    · have past : (List.range n)[i]? = none := by simpa using inside
      simp only [List.getD_eq_getElem?_getD, List.getElem?_map, past, Option.map_none,
        Option.getD_none]
      rfl

variable {G E : Memory Key} {V : Memory Bool}

/-- A pass keeps the registers aligned when what it writes is. -/
theorem Aligned.apply (aligned : Aligned delta G E V) (pass : Pass)
    {garble evaluate : List Key → List Key → List Key} {plain : List Bool → List Bool → List Bool}
    (new : Carries delta (garble (G pass.left) (G pass.right))
      (evaluate (E pass.left) (E pass.right)) (plain (V pass.left) (V pass.right))) :
    Aligned delta (G.apply pass garble) (E.apply pass evaluate) (V.apply pass plain) := by
  intro r
  by_cases written : r = pass.out
  · subst written
    simpa only [Memory.apply, Function.update_self] using new
  · simpa only [Memory.apply, Function.update_of_ne written] using aligned r

/-- An exclusive or of keys carries the exclusive or of the bits. -/
theorem keyOf_xor (a b offset : Key) (x y : Bool) :
    Key.xor (keyOf a offset x) (keyOf b offset y) = keyOf (Key.xor a b) offset (x ^^ y) := by
  simp only [keyOf_eq_active, Key.parityOf_xor, Key.xor_eq_add, Garbling.active, add_smul]
  abel

/-- A key that stays carries the inverted bit once the garbler's is shifted. -/
theorem keyOf_not (a offset : Key) (x : Bool) :
    Key.xor (keyOf a offset x) 0 = keyOf (Key.xor a offset) offset (x ^^ true) := by
  cases x with
  | false => simp [keyOf, Key.xor_eq_add]
  | true => simp [keyOf, Key.xor_eq_add]

/-- Plain evaluation of some passes begins with the first one. -/
theorem plain_of_cons {rightCount : Pass → Nat} {wires : Pass → List Bool → List Bool → List Bool}
    {pass : Pass} {ps : List Pass} {V' : Memory Bool}
    (plain : (pass :: ps).foldlM (plainPass rightCount wires) V = some V') :
    ps.foldlM (plainPass rightCount wires) (V.apply pass (wires pass)) = some V' := by
  rw [List.foldlM_cons] at plain
  obtain ⟨mid, first, later⟩ := Option.bind_eq_some_iff.mp plain
  obtain ⟨-, reached⟩ := Option.ite_none_right_eq_some.mp first
  rwa [Option.some.inj reached]

/-! ## Free passes -/

/-- XOR passes keep the registers aligned. -/
theorem xorPasses_aligned {ps : List Pass} {V' : Memory Bool} (aligned : Aligned delta G E V)
    (plain : ps.foldlM (plainPass Pass.count fun pass => Processor.xorWires Bool.xor pass.count)
      V = some V') :
    Aligned delta (ps.foldl (Processor.xorPass Key.xor) G)
      (ps.foldl (Processor.xorPass Key.xor) E) V' := by
  induction ps generalizing G E V with
  | nil =>
    obtain rfl : V = V' := Option.some.inj plain
    exact aligned
  | cons pass ps ih =>
    have later := plain_of_cons plain
    refine ih (aligned.apply pass (carries_range fun k _ => ?_)) later
    rw [(aligned pass.left).keys k, (aligned pass.right).keys k, keyOf_xor]

/-- So do inversions. -/
theorem invertPasses_aligned {ps : List Pass} {V' : Memory Bool} (aligned : Aligned delta G E V)
    (plain : ps.foldlM (plainPass Pass.count fun pass x _ =>
      Processor.invertWires Bool.xor true pass.count x) V = some V') :
    Aligned delta
      (ps.foldl (fun S pass => S.apply pass fun x _ =>
        Processor.invertWires Key.xor delta pass.count x) G)
      (ps.foldl (fun S pass => S.apply pass fun x _ =>
        Processor.invertWires Key.xor 0 pass.count x) E) V' := by
  induction ps generalizing G E V with
  | nil =>
    obtain rfl : V = V' := Option.some.inj plain
    exact aligned
  | cons pass ps ih =>
    have later := plain_of_cons plain
    refine ih (aligned.apply pass (carries_range fun k _ => ?_)) later
    rw [(aligned pass.left).keys k, keyOf_not]

/-! ## AND passes -/

variable (hash : Key → Key) {repeats : Bool}

/-- Issued passes leave the buffer before and after their slots alone. -/
theorem garble_issue_frame (ps : List Pass) (slot : Nat) (counter : BitVec 64)
    (state : Memory Key × (Nat → YaoHalfGate)) {i : Nat}
    (outside : i < slot ∨ slot + wireCount ps ≤ i) :
    ((issue repeats ps slot counter).foldl (garblePass hash delta) state).2 i = state.2 i := by
  induction ps generalizing slot counter state with
  | nil => rfl
  | cons pass ps ih =>
    rw [wireCount_cons] at outside
    rw [issue, List.foldl_cons, ih _ _ _ (by omega)]
    exact if_neg (by dsimp only; omega)

/-- The evaluator of issued passes, with the buffer that their garbler filled,
keeps the wires aligned. -/
theorem issue_aligned (odd : Key.signal delta = 1) {rightCount : Pass → Nat} {ps : List Pass}
    (slot : Nat) (counter : BitVec 64) {V' : Memory Bool} (filled : Nat → YaoHalfGate)
    {buffer : Nat → YaoHalfGate} (aligned : Aligned delta G E V)
    (plain : ps.foldlM (plainPass rightCount (plainAnd repeats)) V = some V')
    (sent : ∀ i, slot ≤ i → i < slot + wireCount ps → buffer i =
      ((issue repeats ps slot counter).foldl (garblePass hash delta) (G, filled)).2 i) :
    Aligned delta
      ((issue repeats ps slot counter).foldl (garblePass hash delta) (G, filled)).1
      ((issue repeats ps slot counter).foldl (evalPass hash buffer) E) V' := by
  induction ps generalizing G E V slot counter filled with
  | nil =>
    obtain rfl : V = V' := Option.some.inj plain
    exact aligned
  | cons pass ps ih =>
    have later := plain_of_cons plain
    rw [wireCount_cons] at sent
    rw [issue, List.foldl_cons] at sent
    rw [issue, List.foldl_cons, List.foldl_cons]
    refine ih _ _ _ (aligned.apply pass (carries_range fun k inside => ?_)) later
      fun i low high => sent i (by omega) (by omega)
    change k < pass.count at inside
    -- later passes do not overwrite the gates of this one
    have gate := sent (slot + k) (by omega) (by omega)
    rw [garble_issue_frame hash _ _ _ _ (.inl (by omega))] at gate
    dsimp only [garblePass] at gate
    rw [if_pos (by omega), Nat.add_sub_cancel_left] at gate
    rw [gate, (aligned pass.left).keys k, (aligned pass.right).keys _]
    exact evalGate_garbleGate hash odd _ _ _ _ _

end Wires

/-! ## Instructions -/

/-- Sizes are positive, and no output register is an input register. -/
def Instruction.WellFormed : Instruction → Prop
  | .xors args => (∀ t ∈ args, 1 ≤ t.size) ∧ Separate (args.flatMap (passes id))
  | .nots r0 r1 n => 1 ≤ n ∧ Separate (passes id ⟨n, r0, r1, r1⟩)
  | .ands args =>
    (∀ t ∈ args, 1 ≤ t.size) ∧ Separate (args.flatMap (Processor.andPasses false))
  | .andrs args =>
    (∀ t ∈ args, 1 ≤ t.size) ∧ Separate (args.flatMap (Processor.andPasses true))

/-- The condition of an instruction for the two parties to agree on it. -/
def Instruction.Meets (garbler evaluator : ThreadConfig) : Instruction → Prop
  | .xors args => XorsMeet garbler.workers args ∧ XorsMeet evaluator.workers args
  | .nots _ _ _ => True
  | .ands args => AndMeets garbler evaluator false args
  | .andrs args => AndMeets garbler evaluator true args

/-- The two parties of one program thread: both are set up for the same thread
of the same program. -/
structure Paired (garbler evaluator : ThreadConfig) : Prop where
  nThreads : garbler.nThreads = evaluator.nThreads
  threadNum : garbler.threadNum = evaluator.threadNum
  garblerValid : garbler.Valid
  evaluatorValid : evaluator.Valid

section Runs

variable {hash : Key → Key} {delta : Key} {garbler evaluator : ThreadConfig}

/-- Both parties number their gates alike. -/
theorem Paired.gateId_eq (paired : Paired garbler evaluator) (counter : BitVec 64) :
    gateId garbler counter = gateId evaluator counter := by
  unfold gateId
  rw [paired.nThreads, paired.threadNum]

/-- They start an instruction at the same number. -/
theorem Paired.baseCounter_eq (paired : Paired garbler evaluator) (args : List Tuple)
    (counter : BitVec 64) :
    baseCounter garbler args counter = baseCounter evaluator args counter := by
  unfold baseCounter
  rw [paired.gateId_eq]

/-- The passes of an AND instruction cover its sizes. -/
theorem wireCount_andPasses (repeats : Bool) (args : List Tuple) :
    wireCount (args.flatMap (Processor.andPasses repeats)) = checkArgs args :=
  wireCount_flatMap (wireCount_passes _) args

/-- What the two parties compute on an AND instruction that meets the condition. -/
theorem and_aligned (odd : Key.signal delta = 1) (paired : Paired garbler evaluator)
    {repeats : Bool} {args : List Tuple} (sizes : ∀ t ∈ args, 1 ≤ t.size)
    (separate : Separate (args.flatMap (Processor.andPasses repeats)))
    (meets : AndMeets garbler evaluator repeats args) {rightCount : Pass → Nat}
    {g g' : YaoGarbler} {e : YaoEvaluator} {V V' : Memory Bool} (aligned : Aligned delta g.S e.S V)
    (synced : g.progress = e.progress)
    (plain : (args.flatMap (Processor.andPasses repeats)).foldlM
      (plainPass rightCount (plainAnd repeats)) V = some V')
    (garbled : GarblerAnd hash delta garbler repeats args g g') {buffer : Nat → YaoHalfGate}
    (sent : ∀ i, g.progress.position ≤ i → i < g'.progress.position → buffer i = g'.gates i) :
    (∃ e', EvaluatorAnd hash evaluator buffer repeats args e e') ∧
      ∀ e', EvaluatorAnd hash evaluator buffer repeats args e e' →
        Aligned delta g'.S e'.S V' ∧ g'.progress = e'.progress := by
  obtain ⟨-, order, -, interleaved, computed, advanced⟩ := garbled
  have ours := garbler_jobsAgree paired.garblerValid sizes separate meets g.progress
  have theirs := evaluator_jobsAgree paired.evaluatorValid sizes separate meets e.progress
  rw [interleaved.foldl_eq (ours.independent.imp fun apart x inA y inB state =>
    garblePass_comm hash delta (apart x inA y inB) state), ours.flatten] at computed
  have evaluated : ∀ {order : List AndPass},
      Interleaving (YaoEvalWire.and evaluator repeats args e.progress) order →
        Aligned delta g'.S (order.foldl (evalPass hash buffer) e.S) V' := by
    intro order interleaved
    rw [interleaved.foldl_eq (theirs.independent.imp fun apart x inA y inB S =>
      evalPass_comm hash buffer (apart x inA y inB) S), theirs.flatten,
      ← paired.baseCounter_eq, ← synced]
    have final := issue_aligned hash odd g.progress.position
      (baseCounter garbler args g.progress.counter) g.gates aligned plain
      fun i low high => show buffer i = _ by
        rw [← computed]
        refine sent i low ?_
        rw [advanced, ← wireCount_andPasses repeats]
        exact high
    rwa [← computed] at final
  constructor
  · exact ⟨⟨_, e.progress.advance (checkArgs args)⟩, meets.evaluatorSums, _, theirs.workers,
      Interleaving.flatten _, rfl, rfl⟩
  · rintro e' ⟨-, order', -, interleaved', final, advanced'⟩
    rw [final, advanced, advanced', synced]
    exact ⟨evaluated interleaved', rfl⟩

/-- The garbler can perform an instruction that meets the condition. -/
theorem garbler_step (paired : Paired garbler evaluator) {i : Instruction}
    (wellFormed : i.WellFormed) (meets : i.Meets garbler evaluator) (g : YaoGarbler) :
    ∃ g', GarblerStep hash delta garbler g i g' := by
  have and : ∀ {repeats : Bool} {args : List Tuple}, (∀ t ∈ args, 1 ≤ t.size) →
      Separate (args.flatMap (Processor.andPasses repeats)) →
      AndMeets garbler evaluator repeats args → ∃ g', GarblerAnd hash delta garbler repeats args g g' :=
    fun sizes separate meets =>
      ⟨⟨_, _, _⟩, meets.garblerSums, _, (garbler_jobsAgree paired.garblerValid sizes separate meets g.progress).workers,
        Interleaving.flatten _, rfl, rfl⟩
  cases i with
  | xors args => exact ⟨⟨_, _, _⟩, (xorsStep_iff meets.1 wellFormed.2).mpr rfl, rfl, rfl⟩
  | nots r0 r1 n => exact ⟨_, rfl⟩
  | ands args => exact and wellFormed.1 wellFormed.2 meets
  | andrs args => exact and wellFormed.1 wellFormed.2 meets

/-- An AND instruction of the garbler only writes gates from its position on. -/
theorem garblerAnd_frame (paired : Paired garbler evaluator) {repeats : Bool} {args : List Tuple}
    (sizes : ∀ t ∈ args, 1 ≤ t.size)
    (separate : Separate (args.flatMap (Processor.andPasses repeats)))
    (meets : AndMeets garbler evaluator repeats args) {g g' : YaoGarbler}
    (garbled : GarblerAnd hash delta garbler repeats args g g') :
    g'.progress = g.progress.advance (checkArgs args) ∧
      ∀ slot, slot < g.progress.position → g'.gates slot = g.gates slot := by
  obtain ⟨-, order, -, interleaved, computed, advanced⟩ := garbled
  have ours := garbler_jobsAgree paired.garblerValid sizes separate meets g.progress
  rw [interleaved.foldl_eq (ours.independent.imp fun apart x inA y inB state =>
    garblePass_comm hash delta (apart x inA y inB) state), ours.flatten] at computed
  refine ⟨advanced, fun slot before => ?_⟩
  have same := congrArg (fun state => state.2 slot) computed
  rwa [garble_issue_frame hash _ _ _ _ (.inl before)] at same

/-- A garbler's step advances its progress and leaves the gates before it. -/
theorem garbler_step_frame (paired : Paired garbler evaluator) {i : Instruction}
    (wellFormed : i.WellFormed) (meets : i.Meets garbler evaluator) {g g' : YaoGarbler}
    (step : GarblerStep hash delta garbler g i g') :
    g'.progress = g.progress.after i ∧
      ∀ slot, slot < g.progress.position → g'.gates slot = g.gates slot := by
  cases i with
  | xors args => exact ⟨step.2.2, fun slot _ => congrFun step.2.1 slot⟩
  | nots r0 r1 n =>
    obtain rfl : g' = _ := step
    exact ⟨rfl, fun _ _ => rfl⟩
  | ands args => exact garblerAnd_frame paired wellFormed.1 wellFormed.2 meets step
  | andrs args => exact garblerAnd_frame paired wellFormed.1 wellFormed.2 meets step

/-- An instruction never goes back. -/
theorem Progress.le_after (progress : Progress) (i : Instruction) :
    progress.position ≤ (progress.after i).position := by
  cases i with
  | xors args => exact le_rfl
  | nots r0 r1 n => exact le_rfl
  | ands args => exact Nat.le_add_right _ _
  | andrs args => exact Nat.le_add_right _ _

/-- One instruction keeps the parties aligned, whichever way their threads interleave. -/
theorem step_aligned (buffer : Nat → YaoHalfGate) (odd : Key.signal delta = 1) (paired : Paired garbler evaluator)
    {i : Instruction} (wellFormed : i.WellFormed) (meets : i.Meets garbler evaluator)
    {g g' : YaoGarbler} {e : YaoEvaluator} {V V' : Memory Bool} (aligned : Aligned delta g.S e.S V)
    (synced : g.progress = e.progress) (plain : plainStep V i = some V')
    (garbled : GarblerStep hash delta garbler g i g')
    (sent : ∀ slot, g.progress.position ≤ slot → slot < g'.progress.position →
      buffer slot = g'.gates slot) :
    (∃ e', EvaluatorStep hash evaluator buffer e i e') ∧
      ∀ e', EvaluatorStep hash evaluator buffer e i e' →
        Aligned delta g'.S e'.S V' ∧ g'.progress = e'.progress := by
  cases i with
  | xors args =>
    obtain ⟨ours, theirs⟩ := meets
    obtain ⟨garbled, -, kept⟩ := garbled
    have final := (xorsStep_iff ours wellFormed.2).mp garbled
    refine ⟨⟨⟨_, e.progress⟩, (xorsStep_iff theirs wellFormed.2).mpr rfl, rfl⟩, ?_⟩
    rintro e' ⟨evaluated, kept'⟩
    rw [final, (xorsStep_iff theirs wellFormed.2).mp evaluated, kept, kept', synced]
    exact ⟨xorPasses_aligned aligned plain, rfl⟩
  | nots r0 r1 n =>
    obtain rfl : g' = _ := garbled
    refine ⟨⟨_, rfl⟩, ?_⟩
    rintro e' rfl
    exact ⟨invertPasses_aligned aligned plain, synced⟩
  | ands args =>
    exact and_aligned odd paired wellFormed.1 wellFormed.2 meets aligned synced plain garbled sent
  | andrs args =>
    exact and_aligned odd paired wellFormed.1 wellFormed.2 meets aligned synced plain garbled sent

/-- The garbler writes the gates of an instruction that the evaluator consumes. -/
theorem instructionGates_eq (paired : Paired garbler evaluator) {i : Instruction}
    (wellFormed : i.WellFormed) (meets : i.Meets garbler evaluator) (progress : Progress) :
    instructionGates (YaoGarbleWire.andMultithread garbler) progress i =
      instructionGates (YaoEvalWire.and evaluator) progress i := by
  have and : ∀ {repeats : Bool} {args : List Tuple}, (∀ t ∈ args, 1 ≤ t.size) →
      Separate (args.flatMap (Processor.andPasses repeats)) →
      AndMeets garbler evaluator repeats args →
      (YaoGarbleWire.andMultithread garbler repeats args progress).flatten =
        (YaoEvalWire.and evaluator repeats args progress).flatten :=
    fun sizes separate meets => by
      rw [(garbler_jobsAgree paired.garblerValid sizes separate meets progress).flatten,
        (evaluator_jobsAgree paired.evaluatorValid sizes separate meets progress).flatten,
        paired.baseCounter_eq]
  cases i with
  | xors args => rfl
  | nots r0 r1 n => rfl
  | ands args =>
    exact congrArg (List.flatMap AndPass.gates) (and wellFormed.1 wellFormed.2 meets)
  | andrs args =>
    exact congrArg (List.flatMap AndPass.gates) (and wellFormed.1 wellFormed.2 meets)

/-- Issued gates fill the buffer one after the other. -/
theorem slots_issue (repeats : Bool) (ps : List Pass) (slot : Nat) (counter : BitVec 64) :
    ((issue repeats ps slot counter).flatMap AndPass.gates).map GateUse.slot =
      List.range' slot (wireCount ps) := by
  induction ps generalizing slot counter with
  | nil => rfl
  | cons pass ps ih =>
    rw [issue, List.flatMap_cons, List.map_append, ih, wireCount_cons,
      ← List.range'_append_1]
    refine congrArg (· ++ _) ?_
    rw [AndPass.gates, List.map_map, List.range'_eq_map_range]
    rfl

/-- The gates of an instruction fill the next slots, in order. -/
theorem slots_instructionGates (paired : Paired garbler evaluator) {i : Instruction}
    (wellFormed : i.WellFormed) (meets : i.Meets garbler evaluator) (progress : Progress) :
    (instructionGates (YaoGarbleWire.andMultithread garbler) progress i).map GateUse.slot =
      List.range' progress.position ((progress.after i).position - progress.position) := by
  have and : ∀ {repeats : Bool} {args : List Tuple}, (∀ t ∈ args, 1 ≤ t.size) →
      Separate (args.flatMap (Processor.andPasses repeats)) →
      AndMeets garbler evaluator repeats args →
      ((YaoGarbleWire.andMultithread garbler repeats args progress).flatten.flatMap
        AndPass.gates).map GateUse.slot = List.range' progress.position
          ((progress.advance (checkArgs args)).position - progress.position) := by
    intro repeats args sizes separate meets
    rw [(garbler_jobsAgree paired.garblerValid sizes separate meets progress).flatten, slots_issue,
      wireCount_andPasses, Progress.advance, Nat.add_sub_cancel_left]
  cases i with
  | xors args => simp [instructionGates, Progress.after]
  | nots r0 r1 n => simp [instructionGates, Progress.after]
  | ands args => exact and wellFormed.1 wellFormed.2 meets
  | andrs args => exact and wellFormed.1 wellFormed.2 meets

/-! ## Whole runs -/

/-- Every instruction of a run is well formed and meets the condition. -/
def AllMeet (garbler evaluator : ThreadConfig) (instructions : List Instruction) : Prop :=
  ∀ i ∈ instructions, i.WellFormed ∧ i.Meets garbler evaluator

/-- What all instructions meet, the first and the rest do. -/
theorem AllMeet.cons {i : Instruction} {rest : List Instruction}
    (all : AllMeet garbler evaluator (i :: rest)) :
    i.WellFormed ∧ i.Meets garbler evaluator ∧ AllMeet garbler evaluator rest :=
  ⟨(all i List.mem_cons_self).1, (all i List.mem_cons_self).2,
    fun later member => all later (List.mem_cons_of_mem i member)⟩

/-- Garbler and evaluator list the same gates. -/
theorem gates_eq (paired : Paired garbler evaluator) {instructions : List Instruction}
    (all : AllMeet garbler evaluator instructions) (progress : Progress) :
    garblerGates garbler instructions progress = evaluatorGates evaluator instructions progress := by
  induction instructions generalizing progress with
  | nil => rfl
  | cons i rest ih =>
    obtain ⟨wellFormed, meets, others⟩ := all.cons
    exact congrArg₂ _ (instructionGates_eq paired wellFormed meets progress)
      (ih others (progress.after i))

/-- The gates of a run in the order in which they are written fill the buffer. -/
theorem slots_eq (paired : Paired garbler evaluator) {instructions : List Instruction}
    (all : AllMeet garbler evaluator instructions) (progress : Progress) :
    (garblerGates garbler instructions progress).map GateUse.slot =
      List.range' progress.position (garblerGates garbler instructions progress).length := by
  suffices filled : ∃ total, (garblerGates garbler instructions progress).map GateUse.slot =
      List.range' progress.position total by
    obtain ⟨total, filled⟩ := filled
    have count := congrArg List.length filled
    rw [List.length_map, List.length_range'] at count
    rw [filled, count]
  induction instructions generalizing progress with
  | nil => exact ⟨0, rfl⟩
  | cons i rest ih =>
    obtain ⟨wellFormed, meets, others⟩ := all.cons
    obtain ⟨total, filled⟩ := ih others (progress.after i)
    have forward := progress.le_after i
    refine ⟨(progress.after i).position - progress.position + total, ?_⟩
    rw [garblerGates, runGates, List.map_append,
      slots_instructionGates paired wellFormed meets, ← List.range'_append_1,
      Nat.add_sub_cancel' forward]
    exact congrArg _ filled

/-- The garbler never stops. -/
theorem garbler_runs (paired : Paired garbler evaluator) {instructions : List Instruction}
    (all : AllMeet garbler evaluator instructions) (g : YaoGarbler) :
    ∃ g', Runs (GarblerStep hash delta garbler) g instructions g' := by
  induction instructions generalizing g with
  | nil => exact ⟨g, .nil g⟩
  | cons i rest ih =>
    obtain ⟨wellFormed, meets, others⟩ := all.cons
    obtain ⟨mid, first⟩ := garbler_step paired wellFormed meets g
    obtain ⟨final, later⟩ := ih others mid
    exact ⟨final, .cons first later⟩

/-- A run leaves the gates that are already in the buffer alone. -/
theorem garbler_runs_frame (paired : Paired garbler evaluator) {instructions : List Instruction}
    (all : AllMeet garbler evaluator instructions) {g g' : YaoGarbler}
    (runs : Runs (GarblerStep hash delta garbler) g instructions g') :
    g.progress.position ≤ g'.progress.position ∧
      ∀ slot, slot < g.progress.position → g'.gates slot = g.gates slot := by
  induction runs with
  | nil => exact ⟨le_rfl, fun _ _ => rfl⟩
  | cons first later ih =>
    obtain ⟨wellFormed, meets, others⟩ := all.cons
    obtain ⟨advanced, kept⟩ := garbler_step_frame paired wellFormed meets first
    obtain ⟨further, keptLater⟩ := ih others
    have moved := Progress.le_after _ _ |>.trans_eq (congrArg Progress.position advanced).symm
    exact ⟨moved.trans further, fun slot before =>
      (keptLater slot (before.trans_le moved)).trans (kept slot before)⟩

/-- A run of the evaluator on the gates of a run of the garbler ends aligned. -/
theorem runs_aligned (odd : Key.signal delta = 1) (paired : Paired garbler evaluator)
    {instructions : List Instruction} (all : AllMeet garbler evaluator instructions)
    {g g' : YaoGarbler} {e : YaoEvaluator} {V V' : Memory Bool} (aligned : Aligned delta g.S e.S V)
    (synced : g.progress = e.progress) (plain : plainRun V instructions = some V')
    (runs : Runs (GarblerStep hash delta garbler) g instructions g') {buffer : Nat → YaoHalfGate}
    (sent : ∀ slot, g.progress.position ≤ slot → slot < g'.progress.position →
      buffer slot = g'.gates slot) :
    (∃ e', Runs (EvaluatorStep hash evaluator buffer) e instructions e') ∧
      ∀ e', Runs (EvaluatorStep hash evaluator buffer) e instructions e' →
        Aligned delta g'.S e'.S V' := by
  induction runs generalizing e V with
  | nil g =>
    obtain rfl : V = V' := Option.some.inj plain
    refine ⟨⟨e, .nil e⟩, ?_⟩
    rintro e' ⟨⟩
    exact aligned
  | @cons g mid g' i rest first later ih =>
    obtain ⟨wellFormed, meets, others⟩ := all.cons
    obtain ⟨advanced, -⟩ := garbler_step_frame paired wellFormed meets first
    obtain ⟨further, kept⟩ := garbler_runs_frame paired others later
    rw [plainRun, List.foldlM_cons] at plain
    obtain ⟨W, plainFirst, plainLater⟩ := Option.bind_eq_some_iff.mp plain
    have moved := (g.progress.le_after i).trans_eq (congrArg Progress.position advanced).symm
    obtain ⟨⟨eMid, evaluated⟩, every⟩ := step_aligned buffer odd paired wellFormed meets aligned
      synced plainFirst first fun slot low high =>
        (sent slot low (high.trans_le further)).trans (kept slot high)
    have continued := fun {eMid : YaoEvaluator} reached => ih others (every eMid reached).1
      (every eMid reached).2 plainLater fun slot low high => sent slot (moved.trans low) high
    constructor
    · obtain ⟨⟨e', finished⟩, -⟩ := continued evaluated
      exact ⟨e', .cons evaluated finished⟩
    · rintro e' (_ | ⟨reached, finished⟩)
      exact (continued reached).2 e' finished

end Runs

/-- The parties agree on a run of these instructions that plainly ends in `V'`. -/
structure Agree (hash : Key → Key) (delta : Key) (garbler evaluator : ThreadConfig)
    (instructions : List Instruction) (g : YaoGarbler) (e : YaoEvaluator) (V' : Memory Bool) :
    Prop where
  /-- Both use the same gates, with the same ids and wires. -/
  gates : garblerGates garbler instructions g.progress =
    evaluatorGates evaluator instructions e.progress
  /-- The gates are in the order of the buffer. -/
  slots : (garblerGates garbler instructions g.progress).map GateUse.slot =
    List.range' g.progress.position (garblerGates garbler instructions g.progress).length
  garbles : ∃ g', Runs (GarblerStep hash delta garbler) g instructions g'
  evaluates : ∀ g', Runs (GarblerStep hash delta garbler) g instructions g' →
    ∃ e', Runs (EvaluatorStep hash evaluator g'.gates) e instructions e'
  aligned : ∀ g', Runs (GarblerStep hash delta garbler) g instructions g' →
    ∀ e', Runs (EvaluatorStep hash evaluator g'.gates) e instructions e' →
      Aligned delta g'.S e'.S V'

/-- The parties agree on every run whose instructions meet the condition. -/
theorem agree_of_allMeet {hash : Key → Key} {delta : Key} {garbler evaluator : ThreadConfig}
    (odd : Key.signal delta = 1) (paired : Paired garbler evaluator)
    {instructions : List Instruction} (all : AllMeet garbler evaluator instructions)
    {g : YaoGarbler} {e : YaoEvaluator} {V V' : Memory Bool} (aligned : Aligned delta g.S e.S V)
    (synced : g.progress = e.progress) (plain : plainRun V instructions = some V') :
    Agree hash delta garbler evaluator instructions g e V' where
  gates := by rw [gates_eq paired all, synced]
  slots := slots_eq paired all g.progress
  garbles := garbler_runs paired all g
  evaluates g' runs :=
    (runs_aligned odd paired all aligned synced plain runs fun _ _ _ => rfl).1
  aligned g' runs :=
    (runs_aligned odd paired all aligned synced plain runs fun _ _ _ => rfl).2

/-! ## Runs on given inputs -/

/-- One program thread with one worker and the default threshold. -/
def singleThread : ThreadConfig := ⟨1, 0, 1, 1024⟩

/-- One thread without workers is paired with itself. -/
theorem singleThread_paired : Paired singleThread singleThread :=
  ⟨rfl, rfl, ⟨Nat.one_pos, Nat.one_pos⟩, ⟨Nat.one_pos, Nat.one_pos⟩⟩

/-- An XOR, an AND with a repeated operand and an inversion, on two wires each. -/
def sampleInstructions : List Instruction :=
  [.xors [⟨2, 2, 0, 1⟩], .andrs [⟨2, 3, 0, 2⟩], .nots 4 3 2]

/-- Every register holds two wires of bit one. -/
def sampleEvaluator (delta : Key) : YaoEvaluator :=
  ⟨fun _ => (List.range 2).map fun _ => keyOf 0 delta true, ⟨0, 0⟩⟩

/-- Two wires in every register, with zero keys. -/
def sampleGarbler : YaoGarbler :=
  ⟨fun _ => (List.range 2).map fun _ => 0, fun _ => default, ⟨0, 0⟩⟩

/-- A one on each of them. -/
def samplePlain : Memory Bool := fun _ => (List.range 2).map fun _ => true

/-- The sample instructions meet the conditions. -/
theorem sample_allMeet : AllMeet singleThread singleThread sampleInstructions := by
  have few : ¬(singleThread.threshold ≤ checkArgs [⟨2, 3, 0, 2⟩]) := by decide
  have meets : AndMeets singleThread singleThread true [⟨2, 3, 0, 2⟩] :=
    ⟨fun _ enough => absurd enough (by decide), fun enough => absurd enough few,
      fun enough => absurd enough few, fun enough => absurd enough (by decide), by decide,
      by decide⟩
  have xors : XorsMeet 1 [⟨2, 2, 0, 1⟩] := by
    refine ⟨List.cons_ne_nil _ _, fun long => absurd long (by decide), fun jobs found => ?_⟩
    obtain rfl : [[⟨2, 2, 0, 1⟩]] = jobs := Option.some.inj found
    exact List.pairwise_singleton _ _
  have sizes : ∀ {out left right : Nat}, ∀ t ∈ [Tuple.mk 2 out left right], 1 ≤ t.size := by
    intro out left right t member
    rw [List.mem_singleton.mp member]
    exact Nat.le_add_left 1 1
  have separate : Separate ([Tuple.mk 2 2 0 1].flatMap (passes id)) ∧
      Separate ([Tuple.mk 2 3 0 2].flatMap (Processor.andPasses true)) ∧
      Separate (passes id ⟨2, 4, 3, 3⟩) := by
    unfold Separate
    decide
  intro i member
  simp only [sampleInstructions, List.mem_cons, List.not_mem_nil, or_false] at member
  rcases member with rfl | rfl | rfl
  · exact ⟨⟨sizes, separate.1⟩, xors, xors⟩
  · exact ⟨⟨sizes, separate.2.1⟩, meets⟩
  · exact ⟨⟨Nat.le_add_left 1 1, separate.2.2⟩, trivial⟩

/-- The agreement for one instruction of each kind. -/
theorem sampleInstructions_agree : ∃ V', plainRun samplePlain sampleInstructions = some V' ∧
    Agree id ⟨1⟩ singleThread singleThread sampleInstructions sampleGarbler
      (sampleEvaluator ⟨1⟩) V' := by
  have runs : (plainRun samplePlain sampleInstructions).isSome := by decide
  obtain ⟨V', plain⟩ := Option.isSome_iff_exists.mp runs
  exact ⟨V', plain, agree_of_allMeet (by decide) singleThread_paired sample_allMeet
    (fun _ => carries_range (g := fun _ => 0) (v := fun _ => true) fun _ _ => rfl) rfl plain⟩

/-- A repeated AND of 65 wires, with its operand registers full. -/
def longRepeat : Instruction := .andrs [⟨65, 10, 0, 2⟩]

/-- The garbler takes the right operand of the last gate from the next register. -/
theorem longRepeat_disagrees :
    longRepeat.WellFormed ∧
      (plainRun (fun _ => List.replicate 64 true) [longRepeat]).isSome ∧
      garblerGates singleThread [longRepeat] ⟨0, 0⟩ ≠
        evaluatorGates singleThread [longRepeat] ⟨0, 0⟩ := by
  refine ⟨⟨?_, ?_⟩, ?_, fun same => ?_⟩
  · intro t member
    rw [List.mem_singleton.mp member]
    exact Nat.le_add_left 1 64
  · unfold Separate
    decide
  · decide
  · have last := congrArg (fun gates => gates[64]?.map GateUse.right) same
    exact absurd last (by decide)

end SimpleOprf.Yao
