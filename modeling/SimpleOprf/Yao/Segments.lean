import SimpleOprf.Yao.Agreement
import SimpleOprf.Yao.Threads

/-!
# Break points

Instructions that break cut a tape into segments, and so does the complexity. The
garbler sends one message for every segment; the evaluator consumes the message of
a segment while it executes the same instructions again.

In one-shot mode the evaluator has stored all messages before it starts, in
continuous mode it receives them one by one. The segments are the same.
-/

namespace SimpleOprf.Yao

open SimpleOprf.Basis

/-! ## The gates of an instruction -/

theorem length_gates_issue (repeats : Bool) (ps : List Pass) (slot : Nat) (counter : BitVec 64) :
    ((issue repeats ps slot counter).flatMap AndPass.gates).length = wireCount ps := by
  have slots := congrArg List.length (slots_issue repeats ps slot counter)
  rwa [List.length_map, List.length_range'] at slots

/-- Whichever path the garbler takes, it writes the gates that its thread counts. -/
theorem total_eq_garbler (cfg : ThreadConfig) (progress : Progress) (i : Instruction) :
    (instructionGates (YaoGarbleWire.andMultithread cfg) progress i).length = i.total := by
  have and : ∀ (repeats : Bool) (args : List Tuple),
      ((YaoGarbleWire.andMultithread cfg repeats args progress).flatten.flatMap
        AndPass.gates).length = checkArgs args := by
    intro repeats args
    have covers : ∀ t, wireCount (YaoGarbleWire.andPasses t) = t.size := wireCount_passes _
    have counted := slices_getSplits cfg.workers cfg.threshold args (checkArgs args)
    unfold YaoGarbleWire.andMultithread YaoGarbleWire.andSinglethread
    split
    · split
      · rw [Processor.and, List.flatten_singleton, length_gates_issue, wireCount_andPasses]
      · rw [List.flatten_singleton, length_gates_issue, wireCount_flatMap covers]
    · rw [YaoGarbleWire.slicesOf, flatten_dispatch covers counted.2, counted.1, length_gates_issue,
        wireCount_flatMap covers]
  cases i with
  | xors args => rfl
  | nots r0 r1 n => rfl
  | ands args => exact and false args
  | andrs args => exact and true args

/-- Whichever path the evaluator takes, it consumes the gates that its thread counts. -/
theorem total_eq_evaluator (cfg : ThreadConfig) (progress : Progress) (i : Instruction) :
    (instructionGates (YaoEvalWire.and cfg) progress i).length = i.total := by
  have and : ∀ (repeats : Bool) (args : List Tuple),
      ((YaoEvalWire.and cfg repeats args progress).flatten.flatMap
        AndPass.gates).length = checkArgs args := by
    intro repeats args
    have covers : ∀ t, wireCount (YaoEvalWire.andPasses repeats t) = t.size := wireCount_passes _
    have counted := slices_getSplits cfg.workers YaoEvalWire.threshold args (checkArgs args)
    unfold YaoEvalWire.and YaoEvalWire.andSinglethread
    split
    · split
      · rw [Processor.and, List.flatten_singleton, length_gates_issue, wireCount_andPasses]
      · rw [List.flatten_singleton, length_gates_issue, wireCount_flatMap covers]
    · rw [YaoEvalWire.slicesOf, flatten_dispatch covers counted.2, counted.1, length_gates_issue,
        wireCount_flatMap covers]
  cases i with
  | xors args => rfl
  | nots r0 r1 n => rfl
  | ands args => exact and false args
  | andrs args => exact and true args

/-! ## Segments of a tape -/

/-- The instructions at which both parties break in continuous mode. -/
def TapeInstruction.breaks : TapeInstruction → Bool
  | .reveal _ => true
  | .runTapes => true
  | _ => false

/-- What an instruction adds to the complexity. -/
def TapeInstruction.complexity : TapeInstruction → Nat
  | .gate i => i.total
  | .inputb args => nInputBits args
  | _ => 0

/-- The AND gates of an instruction of a tape. -/
def TapeInstruction.total : TapeInstruction → Nat
  | .gate i => i.total
  | _ => 0

/-- The keys that an instruction leaves to be served. -/
def TapeInstruction.inputs : TapeInstruction → List Nat
  | .inputb args => [nKeys args]
  | _ => []

/-- The first instructions of a program up to a break, whether the complexity
makes it, and the program from there on. -/
structure Cut where
  segment : List TapeInstruction
  time : Bool
  tail : List TapeInstruction

/-- The first segment of a tape, why it ends, and what is left. -/
def cut (batchSize : Nat) : List TapeInstruction → Nat → Cut
  | [], _ => ⟨[], false, []⟩
  | i :: rest, complexity =>
    if i.breaks then
      ⟨[], false, i :: rest⟩
    else if complexity + i.complexity < batchSize then
      let later := cut batchSize rest (complexity + i.complexity)
      ⟨i :: later.segment, later.time, later.tail⟩
    else
      ⟨[i], true, rest⟩

/-- The gates of a segment. -/
def segmentTotal (segment : List TapeInstruction) : Nat :=
  (segment.map TapeInstruction.total).sum

/-- The keys that a segment leaves to be served. -/
def segmentInputs (segment : List TapeInstruction) : List Nat :=
  segment.flatMap TapeInstruction.inputs

/-- What follows a segment in the program. -/
theorem cut_cases (batchSize : Nat) (program : List TapeInstruction) (complexity : Nat) :
    (cut batchSize program complexity).segment ++ (cut batchSize program complexity).tail =
        program ∧
      (∀ i ∈ (cut batchSize program complexity).segment, i.breaks = false) ∧
      ((cut batchSize program complexity).time = true →
        (cut batchSize program complexity).segment ≠ []) ∧
      ((cut batchSize program complexity).time = false →
        ∀ i rest, (cut batchSize program complexity).tail = i :: rest → i.breaks = true) := by
  induction program generalizing complexity with
  | nil => simp [cut]
  | cons i rest ih =>
    rw [cut]
    split
    · rename_i breaks
      refine ⟨rfl, by simp, by simp, ?_⟩
      rintro - j tail same
      rw [← (List.cons.inj same).1]
      exact breaks
    · rename_i free
      have free : i.breaks = false := Bool.eq_false_of_not_eq_true free
      split
      · obtain ⟨whole, others, -, last⟩ := ih (complexity + i.complexity)
        refine ⟨congrArg (i :: ·) whole, ?_, fun _ => List.cons_ne_nil _ _, last⟩
        exact List.forall_mem_cons.mpr ⟨free, others⟩
      · exact ⟨rfl, by simpa using free, by simp, by simp⟩

/-! ## One segment -/

section Segments

variable {batchSize : Nat} {wanted : YaoNet → Prop}

/-- Some schedule in continuous mode leads to a state as wanted. -/
abbrev Leads (batchSize : Nat) (wanted : YaoNet → Prop) : YaoNet → Prop :=
  Net.Leads (GarblerThread.next ⟨true, batchSize⟩) (EvaluatorThread.next ⟨true, batchSize⟩) wanted

/-- An instruction that does not break, on the garbler. -/
theorem GarblerThread.next_execute {g : GarblerThread} {i : TapeInstruction}
    {rest : List TapeInstruction} (control : g.control = .execute) (program : g.program = i :: rest)
    (free : i.breaks = false) :
    g.next ⟨true, batchSize⟩ = .internal { g with
      control := .check
      program := rest
      complexity := g.complexity + i.complexity
      gates := g.gates ++ gateIds g.counter i.total
      counter := g.counter + BitVec.ofNat 64 i.total
      receiverInputKeys := g.receiverInputKeys ++ i.inputs } := by
  cases i with
  | gate i => simp [next, control, program, perform, TapeInstruction.complexity,
      TapeInstruction.total, TapeInstruction.inputs]
  | inputb args => simp [next, control, program, perform, TapeInstruction.complexity,
      TapeInstruction.total, TapeInstruction.inputs, gateIds]
  | convcbit => simp [next, control, program, perform, TapeInstruction.complexity,
      TapeInstruction.total, TapeInstruction.inputs, gateIds]
  | reveal args => cases free
  | runTapes => cases free

/-- The garbler goes through a segment up to the break. -/
theorem garbler_segment {g : GarblerThread} {e : EvaluatorThread}
    {toRight toLeft : Link → Fifo Message} (control : g.control = .execute)
    (later : ∀ complexity, Leads batchSize wanted
      ⟨{ g with
          control := if (cut batchSize g.program g.complexity).time then .send false else .execute
          program := (cut batchSize g.program g.complexity).tail
          complexity
          gates := g.gates ++
            gateIds g.counter (segmentTotal (cut batchSize g.program g.complexity).segment)
          counter := g.counter +
            BitVec.ofNat 64 (segmentTotal (cut batchSize g.program g.complexity).segment)
          receiverInputKeys := g.receiverInputKeys ++
            segmentInputs (cut batchSize g.program g.complexity).segment },
        e, toRight, toLeft⟩) :
    Leads batchSize wanted ⟨g, e, toRight, toLeft⟩ := by
  obtain ⟨_, tapes, program, complexity, tainted, counter, gates, outputMasks, keys⟩ := g
  dsimp only at control later
  subst control
  induction program generalizing complexity counter gates keys with
  | nil => simpa [cut, segmentTotal, segmentInputs, gateIds] using later complexity
  | cons i rest ih =>
    rw [cut] at later
    split at later
    · simpa [segmentTotal, segmentInputs, gateIds] using later complexity
    · rename_i free
      refine .left_internal (GarblerThread.next_execute rfl rfl (Bool.eq_false_of_not_eq_true free)) ?_
      by_cases small : complexity + i.complexity < batchSize
      · rw [if_pos small] at later
        refine .left_internal (if_pos small) (ih _ _ _ _ fun c => ?_)
        simpa [segmentTotal, segmentInputs, gateIds_add, BitVec.ofNat_add, BitVec.add_assoc]
          using later c
      · rw [if_neg small] at later
        refine .left_internal (if_neg small) ?_
        simpa [segmentTotal, segmentInputs] using later _

/-- Only segment messages are in flight. -/
structure Quiet (toRight toLeft : Link → Fifo Message) : Prop where
  rightPlayer : (toRight .player).Idle
  leftP : (toLeft .P).Idle
  leftPlayer : (toLeft .player).Idle

theorem EvaluatorThread.record_nil (consumed : List Segment) : record [] [] consumed = consumed := by
  cases consumed with
  | nil => rfl
  | cons now past => simp [record]

/-- Two records of gates are one. -/
theorem EvaluatorThread.record_record (a b : List (BitVec 64)) (consumed : List Segment) :
    record b [] (record a [] consumed) = record (a ++ b) [] consumed := by
  cases consumed with
  | nil => rfl
  | cons now past => simp [record]

/-- An instruction that does not break, on the evaluator while the garbler processes
its inputs. -/
theorem evaluator_instruction {g : GarblerThread} {e : EvaluatorThread}
    {toRight toLeft : Link → Fifo Message} {i : TapeInstruction} {rest : List TapeInstruction}
    {resume : Resume} {more : List Nat} (quiet : Quiet toRight toLeft)
    (processing : g.control = .inputs resume) (control : e.control = .execute)
    (program : e.program = i :: rest) (free : i.breaks = false)
    (enough : i.total ≤ e.gates.length ∨ ∀ s : YaoNet, s.right.control = .failed → wanted s)
    (later : ∀ toRight' toLeft', Quiet toRight' toLeft' → toRight' .P = toRight .P →
      Leads batchSize wanted ⟨{ g with receiverInputKeys := more },
        { e with
          control := .check
          program := rest
          complexity := e.complexity + i.complexity
          gates := e.gates.drop i.total
          counter := e.counter + BitVec.ofNat 64 i.total
          consumed := EvaluatorThread.record (gateIds e.counter i.total) [] e.consumed },
        toRight', toLeft'⟩) :
    Leads batchSize wanted
      ⟨{ g with receiverInputKeys := i.inputs ++ more }, e, toRight, toLeft⟩ := by
  cases i with
  | reveal args => cases free
  | runTapes => cases free
  | gate i =>
    by_cases short : e.gates.length < i.total
    · have stops : EvaluatorThread.next ⟨true, batchSize⟩ e =
          .internal { e with control := .failed } := by
        simp [EvaluatorThread.next, control, program, EvaluatorThread.perform, short]
      refine .right_internal stops (.here ?_)
      exact enough.resolve_left (Nat.not_le_of_lt short) _ rfl
    · refine .right_internal ?_ (later toRight toLeft quiet rfl)
      simp [EvaluatorThread.next, control, program, EvaluatorThread.perform, short,
        TapeInstruction.complexity, TapeInstruction.total]
  | convcbit =>
    refine .right_internal ?_ (later toRight toLeft quiet rfl)
    simp [EvaluatorThread.next, control, program, EvaluatorThread.perform,
      TapeInstruction.complexity, TapeInstruction.total, gateIds, EvaluatorThread.record_nil]
  | inputb args =>
    obtain ⟨_, tapes, _, complexity, tainted, counter, gates, masks, store, consumed⟩ := e
    obtain ⟨_, gTapes, gProgram, gComplexity, gTainted, gCounter, gGates, gMasks, gKeys⟩ := g
    dsimp only at processing control program
    subst processing
    subst control
    subst program
    simp only [TapeInstruction.total, TapeInstruction.complexity, gateIds, List.range_zero,
      List.map_nil, EvaluatorThread.record_nil, List.drop_zero, BitVec.add_zero] at later
    obtain ⟨sent, rightIdle⟩ := quiet.rightPlayer.pushOn (.keys (nKeys args))
    by_cases none : nKeys args = 0
    · refine .right_internal (if_pos none) ?_
      refine .left_internal (if_pos none) (.left_send rfl (.right_receive rfl sent ?_))
      refine later _ _ ⟨rightIdle, quiet.leftP, quiet.leftPlayer⟩ ?_
      rw [popOn_of_ne _ (by decide), pushOn_of_ne _ (by decide)]
    · obtain ⟨asked, leftIdle⟩ := quiet.leftPlayer.pushOn (.matrix (nKeys args))
      refine .right_send (if_neg none) ?_
      refine .left_receive (if_neg none) asked (.left_send rfl (.right_receive rfl sent ?_))
      refine later _ _ ⟨rightIdle, ?_, leftIdle⟩ ?_
      · rw [popOn_of_ne _ (by decide), pushOn_of_ne _ (by decide)]
        exact quiet.leftP
      · rw [popOn_of_ne _ (by decide), pushOn_of_ne _ (by decide)]

/-- The evaluator goes through a segment while the garbler processes its inputs. -/
theorem evaluator_segment {g : GarblerThread} {e : EvaluatorThread}
    {toRight toLeft : Link → Fifo Message} {resume : Resume} {more : List Nat}
    (quiet : Quiet toRight toLeft) (processing : g.control = .inputs resume)
    (control : e.control = .execute)
    (enough : segmentTotal (cut batchSize e.program e.complexity).segment ≤ e.gates.length ∨
      ∀ s : YaoNet, s.right.control = .failed → wanted s)
    (later : ∀ complexity toRight' toLeft', Quiet toRight' toLeft' → toRight' .P = toRight .P →
      Leads batchSize wanted ⟨{ g with receiverInputKeys := more },
        { e with
          control := if (cut batchSize e.program e.complexity).time then .receive else .execute
          program := (cut batchSize e.program e.complexity).tail
          complexity
          gates := e.gates.drop (segmentTotal (cut batchSize e.program e.complexity).segment)
          counter := e.counter +
            BitVec.ofNat 64 (segmentTotal (cut batchSize e.program e.complexity).segment)
          consumed := EvaluatorThread.record (gateIds e.counter
            (segmentTotal (cut batchSize e.program e.complexity).segment)) [] e.consumed },
        toRight', toLeft'⟩) :
    Leads batchSize wanted
      ⟨{ g with receiverInputKeys :=
          segmentInputs (cut batchSize e.program e.complexity).segment ++ more },
        e, toRight, toLeft⟩ := by
  obtain ⟨_, tapes, program, complexity, tainted, counter, gates, masks, store, consumed⟩ := e
  dsimp only at control enough later ⊢
  subst control
  induction program generalizing complexity counter gates consumed toRight toLeft with
  | nil =>
    simpa [cut, segmentTotal, segmentInputs, gateIds, EvaluatorThread.record_nil]
      using later complexity toRight toLeft quiet rfl
  | cons i rest ih =>
    rw [cut] at later enough ⊢
    by_cases breaks : i.breaks = true
    · rw [if_pos breaks] at later ⊢
      simpa [segmentTotal, segmentInputs, gateIds, EvaluatorThread.record_nil]
        using later complexity toRight toLeft quiet rfl
    · have free : i.breaks = false := Bool.eq_false_of_not_eq_true breaks
      rw [if_neg breaks] at later enough ⊢
      by_cases small : complexity + i.complexity < batchSize
      · simp only [if_pos small, segmentTotal, segmentInputs, List.map_cons, List.sum_cons,
          List.flatMap_cons, List.append_assoc] at later enough ⊢
        refine evaluator_instruction quiet processing rfl rfl free
          (enough.imp_left (Nat.le_trans (Nat.le_add_right _ _))) fun toRight' toLeft' quiet' kept => ?_
        refine .right_internal (if_pos small) (ih quiet' _ _ _ _ ?_ ?_)
        · refine enough.imp_left fun fits => ?_
          rw [List.length_drop]
          exact Nat.le_sub_of_add_le' fits
        · intro c toRight'' toLeft'' quiet'' kept'
          simpa [segmentTotal, gateIds_add, BitVec.ofNat_add, BitVec.add_assoc,
            EvaluatorThread.record_record, List.drop_drop]
            using later c toRight'' toLeft'' quiet'' (kept'.trans kept)
      · simp only [if_neg small, segmentTotal, segmentInputs, List.map_singleton,
          List.sum_singleton, List.flatMap_singleton] at later enough ⊢
        refine evaluator_instruction quiet processing rfl rfl free enough
          fun toRight' toLeft' quiet' kept => ?_
        exact .right_internal (if_neg small) (later _ toRight' toLeft' quiet' kept)

/-- Only messages of segments are in flight to the evaluator. -/
structure Pending (channel : Fifo Message) : Prop where
  received : channel.received ≤ channel.sent.length
  segments : ∀ message ∈ channel.sent.drop channel.received,
    ∃ gates outputMasks, message = .more gates outputMasks

/-- The message for a segment. -/
def Segment.message (segment : Segment) : Message := .more segment.gates segment.outputMasks

/-- A segment that is sent is pending behind the others. -/
theorem Pending.extend {toRight : Link → Fifo Message} (pending : Pending (toRight .P))
    (segment : Segment) : Pending (pushOn toRight .P segment.message .P) := by
  obtain ⟨bound, segments⟩ := pending
  simp only [pushOn, Function.update_self]
  refine ⟨?_, fun message member => ?_⟩
  · rw [List.length_append]
    exact Nat.le_add_right_of_le bound
  · rw [List.drop_append_of_le_length bound] at member
    rcases List.mem_append.mp member with early | last
    · exact segments message early
    · exact ⟨_, _, List.mem_singleton.mp last⟩

/-- When a segment is sent the evaluator can receive one, which is the same when
none was in flight. -/
theorem Pending.push {toRight : Link → Fifo Message} (pending : Pending (toRight .P))
    (sent : Segment) :
    ∃ received : Segment, (pushOn toRight .P sent.message .P).head? = some received.message ∧
      Pending (popOn (pushOn toRight .P sent.message) .P .P) ∧
      ((toRight .P).Idle → received = sent) := by
  obtain ⟨bound, segments⟩ := pending
  have whole : (toRight .P).sent.drop (toRight .P).received ++ [sent.message] =
      ((toRight .P).sent ++ [sent.message]).drop (toRight .P).received :=
    (List.drop_append_of_le_length bound).symm
  have all : ∀ message ∈ ((toRight .P).sent ++ [sent.message]).drop (toRight .P).received,
      ∃ gates outputMasks, message = .more gates outputMasks := by
    intro message member
    rw [← whole] at member
    rcases List.mem_append.mp member with early | last
    · exact segments message early
    · exact ⟨_, _, List.mem_singleton.mp last⟩
  have inside : (toRight .P).received < ((toRight .P).sent ++ [sent.message]).length := by
    rw [List.length_append, List.length_singleton]
    exact Nat.lt_succ_of_le bound
  obtain ⟨gates, outputMasks, head⟩ := all _ (List.getElem_cons_drop inside ▸ List.mem_cons_self)
  have found : (pushOn toRight .P sent.message .P).head? = some (.more gates outputMasks) := by
    rw [pushOn, Function.update_self, Fifo.head?, List.getElem?_eq_getElem inside, head]
  refine ⟨⟨gates, outputMasks⟩, found, ⟨?_, fun message member => all message ?_⟩, fun idle => ?_⟩
  · simpa [popOn, pushOn] using bound
  · simp only [popOn, pushOn, Function.update_self] at member
    rw [← List.drop_drop] at member
    exact List.mem_of_mem_drop member
  · have same := (idle.pushOn sent.message).1
    rw [found] at same
    cases sent
    cases Option.some.inj same
    rfl

/-- The garbler sends a segment, the evaluator receives the next one and goes
through its own segment, and the garbler processes the inputs. -/
theorem exchange_segment (last : Bool) {g : GarblerThread} {e : EvaluatorThread}
    {toRight toLeft : Link → Fifo Message} (quiet : Quiet toRight toLeft)
    (pending : Pending (toRight .P)) (sending : g.control = .send last)
    (inputs : g.receiverInputKeys = segmentInputs (cut batchSize e.program 0).segment)
    (control : e.control = .receive)
    (enough : ((toRight .P).Idle ∧
        g.gates.length = segmentTotal (cut batchSize e.program 0).segment) ∨
      ∀ s : YaoNet, s.right.control = .failed → wanted s)
    (later : ∀ complexity received toRight' toLeft', Quiet toRight' toLeft' →
      Pending (toRight' .P) →
      toRight' .P = popOn (pushOn toRight .P (.more g.gates g.outputMasks)) .P .P →
      ((toRight .P).Idle → received = Segment.mk g.gates g.outputMasks) →
      Leads batchSize wanted
        ⟨{ g with
            control := .resume (if last then .init else .again)
            gates := []
            outputMasks := []
            receiverInputKeys := [] },
          { e with
            control := if (cut batchSize e.program 0).time then .receive else .execute
            program := (cut batchSize e.program 0).tail
            complexity
            gates := received.gates.drop (segmentTotal (cut batchSize e.program 0).segment)
            outputMasks := received.outputMasks
            counter := e.counter +
              BitVec.ofNat 64 (segmentTotal (cut batchSize e.program 0).segment)
            consumed :=
              ⟨gateIds e.counter (segmentTotal (cut batchSize e.program 0).segment), []⟩ ::
                e.consumed },
          toRight', toLeft'⟩) :
    Leads batchSize wanted ⟨g, e, toRight, toLeft⟩ := by
  obtain ⟨_, tapes, program, complexity, tainted, counter, gates, masks, keys⟩ := g
  obtain ⟨_, eTapes, eProgram, eComplexity, eTainted, eCounter, eGates, eMasks, store, consumed⟩ := e
  dsimp only at sending inputs control enough later
  subst sending
  subst inputs
  subst control
  obtain ⟨received, head, pending', same⟩ := pending.push ⟨gates, masks⟩
  refine .left_send rfl (.right_receive rfl head ?_)
  rw [← List.append_nil (segmentInputs _)]
  have quiet' : Quiet (popOn (pushOn toRight .P (.more gates masks)) .P) toLeft := by
    refine ⟨?_, quiet.leftP, quiet.leftPlayer⟩
    rw [popOn_of_ne _ (by decide), pushOn_of_ne _ (by decide)]
    exact quiet.rightPlayer
  refine evaluator_segment
    (g := ⟨.inputs (if last then .init else .again), tapes, program, complexity, tainted, counter,
      [], [], []⟩)
    (e := EvaluatorThread.refill ⟨_, eTapes, eProgram, eComplexity, eTainted, eCounter, eGates,
      eMasks, store, consumed⟩ received) quiet' rfl rfl ?_ ?_
  · refine enough.imp_left fun ⟨idle, long⟩ => ?_
    rw [same idle]
    exact long.ge
  · intro c toRight' toLeft' quiet'' kept
    refine .left_internal rfl (later c received toRight' toLeft' quiet'' ?_ kept same)
    rw [kept]
    exact pending'

/-! ## From break to break -/

/-- The condition on an instruction in continuous mode, given the evaluator's flag. -/
def TapeInstruction.Meets (batchSize : Nat) (tainted : Bool) : TapeInstruction → Prop
  | .reveal _ => 0 < batchSize
  | .runTapes => 0 < batchSize ∧ tainted = true
  | _ => True

/-- The evaluator's flag after an instruction that meets the condition. -/
def TapeInstruction.taintAfter (tainted : Bool) : TapeInstruction → Bool
  | .reveal args => tainted || !(revealedWires args).isEmpty
  | .runTapes => false
  | _ => tainted

/-- Every instruction meets the condition, the evaluator's flag being as given
before the first. -/
def TapeMeets (batchSize : Nat) : Bool → List TapeInstruction → Prop
  | _, [] => True
  | tainted, i :: rest =>
    i.Meets batchSize tainted ∧ TapeMeets batchSize (i.taintAfter tainted) rest

/-- What a tape meets, the rest of it does. -/
theorem TapeMeets.tail {tainted : Bool} {segment rest : List TapeInstruction}
    (free : ∀ i ∈ segment, i.breaks = false)
    (meets : TapeMeets batchSize tainted (segment ++ rest)) : TapeMeets batchSize tainted rest := by
  induction segment with
  | nil => exact meets
  | cons i segment ih =>
    obtain ⟨first, others⟩ := List.forall_mem_cons.mp free
    refine ih others ?_
    cases i with
    | reveal args => cases first
    | runTapes => cases first
    | gate i => exact meets.2
    | inputb args => exact meets.2
    | convcbit => exact meets.2

/-- Both parties are about to go through the same program: the garbler first, then
the evaluator with the next message. -/
def syncNet (tapes : List (List TapeInstruction)) (program : List TapeInstruction)
    (e : EvaluatorThread) (toRight toLeft : Link → Fifo Message) : YaoNet :=
  ⟨⟨.execute, tapes, program, 0, true, e.counter, [], [], []⟩,
    { e with control := .receive, tapes, program }, toRight, toLeft⟩

/-- The channels between segments. In the exact case the garbler has sent what the
evaluator has consumed. -/
structure Ready (exact : Prop) (consumed : List Segment) (toRight toLeft : Link → Fifo Message) :
    Prop where
  quiet : Quiet toRight toLeft
  pending : Pending (toRight .P)
  history : exact → toRight .P = ⟨consumed.reverse.map Segment.message, consumed.length⟩

variable {exact : Prop} {consumed : List Segment} {toRight toLeft : Link → Fifo Message}

/-- Parties that are ready have no message on the way. -/
theorem Ready.idle (ready : Ready exact consumed toRight toLeft) (holds : exact) :
    (toRight .P).Idle := by
  rw [ready.history holds]
  simp [Fifo.Idle]

/-- The history after one more segment. -/
theorem Ready.push (ready : Ready exact consumed toRight toLeft) (holds : exact)
    (segment : Segment) :
    popOn (pushOn toRight .P segment.message) .P .P =
      ⟨(segment :: consumed).reverse.map Segment.message, (segment :: consumed).length⟩ := by
  simp [popOn, pushOn, ready.history holds]

/-- After a break by complexity the garbler goes on with the tape. -/
theorem resume_again {g : GarblerThread} {e : EvaluatorThread} (control : g.control = .resume .again)
    (later : Leads batchSize wanted
      ⟨{ g with control := .execute, complexity := 0 }, e, toRight, toLeft⟩) :
    Leads batchSize wanted ⟨g, e, toRight, toLeft⟩ := by
  obtain ⟨_, tapes, program, complexity, tainted, counter, gates, masks, keys⟩ := g
  dsimp only at control
  subst control
  exact .left_internal rfl (.left_internal rfl later)

section Breaks

section Reveal

variable {tapes : List (List TapeInstruction)} {rest : List TapeInstruction}
  {args : List RevealArgs} {complexity : Nat} {counter : BitVec 64} {gates : List (BitVec 64)}
  {masks : List (Nat × Nat)} {keys : List Nat}

/-- The garbler keeps the masks and breaks. -/
theorem GarblerThread.next_reveal_tainted :
    GarblerThread.next ⟨true, batchSize⟩
        ⟨.execute, tapes, .reveal args :: rest, complexity, true, counter, gates, masks, keys⟩ =
      .internal ⟨.send false, tapes, .reveal args :: rest, complexity, false, counter, gates,
        masks ++ revealedWires args, keys⟩ := rfl

/-- After the break the garbler waits for the values. -/
theorem GarblerThread.next_reveal_untainted :
    GarblerThread.next ⟨true, batchSize⟩
        ⟨.execute, tapes, .reveal args :: rest, complexity, false, counter, gates, masks, keys⟩ =
      .internal ⟨.opened, tapes, rest, complexity, true, counter, gates, masks, keys⟩ := rfl

/-- The evaluator consumes the masks, sends the values and goes on with the next
message. -/
theorem EvaluatorThread.next_reveal {tainted : Bool} {store past : List Segment}
    {now : List (BitVec 64)} (enough : ¬masks.length < (revealedWires args).length) :
    EvaluatorThread.next ⟨true, batchSize⟩
        ⟨.execute, tapes, .reveal args :: rest, complexity, tainted, counter, gates, masks, store,
          ⟨now, []⟩ :: past⟩ =
      .send .P .opened ⟨.receive, tapes, rest, complexity,
        TapeInstruction.taintAfter tainted (.reveal args), counter, gates,
        masks.drop (revealedWires args).length, store, ⟨now, revealedWires args⟩ :: past⟩ := by
  simp [next, perform, enough, record, cleaning, TapeInstruction.taintAfter]

end Reveal

variable {tapes : List (List TapeInstruction)} {program : List TapeInstruction}
  {e : EvaluatorThread}

/-- A segment that ends because of its complexity. -/
theorem sync_time (loose : exact ∨ ∀ s : YaoNet, s.right.control = .failed → wanted s)
    (ready : Ready exact e.consumed toRight toLeft)
    (time : (cut batchSize program 0).time = true)
    (later : ∀ e' : EvaluatorThread, e'.tainted = e.tainted → ∀ toRight' toLeft',
      Ready exact e'.consumed toRight' toLeft' →
      Leads batchSize wanted (syncNet tapes (cut batchSize program 0).tail e' toRight' toLeft')) :
    Leads batchSize wanted (syncNet tapes program e toRight toLeft) := by
  refine garbler_segment rfl fun c => ?_
  simp only [time, if_true, List.nil_append]
  refine exchange_segment false ready.quiet ready.pending rfl rfl rfl
    (loose.imp_left fun holds => ⟨ready.idle holds, length_gateIds _ _⟩) ?_
  intro complexity received toRight' toLeft' quiet pending history _
  simp only [time, if_true]
  refine resume_again rfl (later { e with
    complexity
    gates := received.gates.drop (segmentTotal (cut batchSize program 0).segment)
    outputMasks := received.outputMasks
    counter := e.counter + BitVec.ofNat 64 (segmentTotal (cut batchSize program 0).segment)
    consumed := ⟨gateIds e.counter (segmentTotal (cut batchSize program 0).segment), []⟩ ::
      e.consumed } rfl toRight' toLeft' ⟨quiet, pending, fun holds => ?_⟩)
  rw [history]
  exact ready.push holds ⟨_, _⟩

/-- The last segment of a tape. -/
theorem sync_done (loose : exact ∨ ∀ s : YaoNet, s.right.control = .failed → wanted s)
    (ready : Ready exact e.consumed toRight toLeft)
    (time : (cut batchSize program 0).time = false) (tail : (cut batchSize program 0).tail = [])
    (later : ∀ e' : EvaluatorThread, e'.tainted = e.tainted → ∀ complexity toRight' toLeft',
      Ready exact e'.consumed toRight' toLeft' →
      Leads batchSize wanted ⟨⟨.schedule, tapes, [], complexity, true, e'.counter, [], [], []⟩,
        { e' with control := .schedule, tapes, program := [] }, toRight', toLeft'⟩) :
    Leads batchSize wanted (syncNet tapes program e toRight toLeft) := by
  refine garbler_segment rfl fun c => ?_
  simp only [time, tail, Bool.false_eq_true, if_false, List.nil_append]
  refine .left_internal rfl ?_
  refine exchange_segment true ready.quiet ready.pending rfl rfl rfl
    (loose.imp_left fun holds => ⟨ready.idle holds, length_gateIds _ _⟩) ?_
  intro complexity received toRight' toLeft' quiet pending history _
  simp only [time, tail, Bool.false_eq_true, if_false, if_true]
  obtain ⟨sent, idle⟩ := quiet.leftP.pushOn .init
  refine .right_send rfl (.left_receive rfl sent (later { e with
    complexity
    gates := received.gates.drop (segmentTotal (cut batchSize program 0).segment)
    outputMasks := received.outputMasks
    counter := e.counter + BitVec.ofNat 64 (segmentTotal (cut batchSize program 0).segment)
    consumed := ⟨gateIds e.counter (segmentTotal (cut batchSize program 0).segment), []⟩ ::
      e.consumed } rfl _ _ _ ⟨⟨quiet.rightPlayer, idle, ?_⟩, pending, fun holds => ?_⟩))
  · rw [popOn_of_ne _ (by decide), pushOn_of_ne _ (by decide)]
    exact quiet.leftPlayer
  · rw [history]
    exact ready.push holds ⟨_, _⟩

/-- A segment that ends before a reveal. The garbler has the masks in this segment,
and performs the rest of the instruction in its next one. -/
theorem sync_reveal (loose : exact ∨ ∀ s : YaoNet, s.right.control = .failed → wanted s)
    (ready : Ready exact e.consumed toRight toLeft) {args : List RevealArgs}
    {rest : List TapeInstruction} (time : (cut batchSize program 0).time = false)
    (tail : (cut batchSize program 0).tail = .reveal args :: rest)
    (positive : exact → 0 < batchSize)
    (later : ∀ e' : EvaluatorThread,
      e'.tainted = TapeInstruction.taintAfter e.tainted (.reveal args) → ∀ toRight' toLeft',
      Ready exact e'.consumed toRight' toLeft' →
      Leads batchSize wanted (syncNet tapes rest e' toRight' toLeft')) :
    Leads batchSize wanted (syncNet tapes program e toRight toLeft) := by
  refine garbler_segment rfl fun c => ?_
  simp only [time, tail, Bool.false_eq_true, if_false, List.nil_append]
  refine .left_internal GarblerThread.next_reveal_tainted ?_
  refine exchange_segment false ready.quiet ready.pending rfl rfl rfl
    (loose.imp_left fun holds => ⟨ready.idle holds, length_gateIds _ _⟩) ?_
  intro complexity received toRight' toLeft' quiet pending history same
  simp only [time, tail, Bool.false_eq_true, if_false, List.nil_append] at history same ⊢
  by_cases short : received.outputMasks.length < (revealedWires args).length
  · refine .right_internal (if_pos short) (.here ?_)
    refine loose.resolve_left (fun holds => ?_) _ rfl
    rw [same (ready.idle holds)] at short
    exact Nat.lt_irrefl _ short
  · obtain ⟨sent, idle⟩ := quiet.leftP.pushOn .opened
    refine .right_send (EvaluatorThread.next_reveal short) (resume_again rfl
      (.left_internal GarblerThread.next_reveal_untainted (.left_receive rfl sent ?_)))
    have quiet' : Quiet toRight' (popOn (pushOn toLeft' .P .opened) .P) := by
      refine ⟨quiet.rightPlayer, idle, ?_⟩
      rw [popOn_of_ne _ (by decide), pushOn_of_ne _ (by decide)]
      exact quiet.leftPlayer
    have more := later { e with
      complexity
      tainted := TapeInstruction.taintAfter e.tainted (.reveal args)
      gates := received.gates.drop (segmentTotal (cut batchSize program 0).segment)
      outputMasks := received.outputMasks.drop (revealedWires args).length
      counter := e.counter + BitVec.ofNat 64 (segmentTotal (cut batchSize program 0).segment)
      consumed := ⟨gateIds e.counter (segmentTotal (cut batchSize program 0).segment),
        revealedWires args⟩ :: e.consumed } rfl
    by_cases positive' : 0 < batchSize
    · refine .left_internal (if_pos positive') (more _ _ ⟨quiet', pending, fun holds => ?_⟩)
      rw [history]
      exact ready.push holds ⟨_, _⟩
    · -- with batches of size zero the garbler sends one more message, without content
      refine .left_internal (if_neg positive') (.left_send rfl (.left_internal rfl
        (resume_again rfl (more _ _ ⟨⟨?_, quiet'.leftP, quiet'.leftPlayer⟩, ?_, fun holds => ?_⟩))))
      · rw [pushOn_of_ne _ (by decide)]
        exact quiet.rightPlayer
      · exact pending.extend ⟨[], []⟩
      · exact absurd (positive holds) positive'

/-- A segment that ends before tapes are run. The evaluator goes on with the next
message because its flag is set. -/
theorem sync_runTapes (loose : exact ∨ ∀ s : YaoNet, s.right.control = .failed → wanted s)
    (ready : Ready exact e.consumed toRight toLeft) {rest : List TapeInstruction}
    (time : (cut batchSize program 0).time = false)
    (tail : (cut batchSize program 0).tail = .runTapes :: rest)
    (positive : 0 < batchSize) (tainted : e.tainted = true)
    (later : ∀ e' : EvaluatorThread, e'.tainted = false → ∀ toRight' toLeft',
      Ready exact e'.consumed toRight' toLeft' →
      Leads batchSize wanted (syncNet tapes rest e' toRight' toLeft')) :
    Leads batchSize wanted (syncNet tapes program e toRight toLeft) := by
  refine garbler_segment rfl fun c => ?_
  simp only [time, tail, Bool.false_eq_true, if_false, List.nil_append]
  refine .left_internal rfl ?_
  refine exchange_segment false ready.quiet ready.pending rfl rfl rfl
    (loose.imp_left fun holds => ⟨ready.idle holds, length_gateIds _ _⟩) ?_
  intro complexity received toRight' toLeft' quiet pending history _
  simp only [time, tail, Bool.false_eq_true, if_false]
  obtain ⟨_, eTapes, eProgram, eComplexity, flag, eCounter, eGates, eMasks, store, consumed⟩ := e
  obtain rfl : flag = true := tainted
  refine .right_internal rfl (resume_again rfl (.left_internal rfl
    (.left_internal (if_pos positive) ?_)))
  refine later ⟨.receive, tapes, rest, complexity, false,
    eCounter + BitVec.ofNat 64 (segmentTotal (cut batchSize program 0).segment),
    received.gates.drop (segmentTotal (cut batchSize program 0).segment), received.outputMasks,
    store, ⟨gateIds eCounter (segmentTotal (cut batchSize program 0).segment), []⟩ :: consumed⟩
    rfl _ _ ⟨quiet, pending, fun holds => ?_⟩
  rw [history]
  exact ready.push holds ⟨_, _⟩

/-- A whole program from its first segment to its last one. -/
theorem program_leads (loose : exact ∨ ∀ s : YaoNet, s.right.control = .failed → wanted s)
    (ready : Ready exact e.consumed toRight toLeft) {others : List TapeInstruction}
    (meets : exact → TapeMeets batchSize e.tainted (program ++ others))
    (allowed : .runTapes ∈ program → exact)
    (later : ∀ e' : EvaluatorThread, ∀ complexity toRight' toLeft',
      Ready exact e'.consumed toRight' toLeft' → (exact → TapeMeets batchSize e'.tainted others) →
      Leads batchSize wanted ⟨⟨.schedule, tapes, [], complexity, true, e'.counter, [], [], []⟩,
        { e' with control := .schedule, tapes, program := [] }, toRight', toLeft'⟩) :
    Leads batchSize wanted (syncNet tapes program e toRight toLeft) := by
  induction size : program.length using Nat.strong_induction_on
    generalizing program e toRight toLeft with
  | _ n ih =>
    obtain ⟨whole, free, nonempty, breaks⟩ := cut_cases batchSize program 0
    have rest : exact → TapeMeets batchSize e.tainted ((cut batchSize program 0).tail ++ others) :=
      fun holds => by
        have all := meets holds
        rw [← whole, List.append_assoc] at all
        exact all.tail free
    have inside : ∀ i ∈ (cut batchSize program 0).tail, i ∈ program := fun i member => by
      rw [← whole]
      exact List.mem_append_right _ member
    have shorter : (cut batchSize program 0).segment.length +
        (cut batchSize program 0).tail.length = n := by
      rw [← List.length_append, whole, size]
    cases time : (cut batchSize program 0).time with
    | true =>
      have progress := List.length_pos_iff.mpr (nonempty time)
      refine sync_time loose ready time fun e' kept toRight' toLeft' ready' => ?_
      refine ih _ (by omega) ready' ?_ (fun member => allowed (inside _ member)) rfl
      rwa [kept]
    | false =>
      cases tail : (cut batchSize program 0).tail with
      | nil =>
        rw [tail] at rest
        refine sync_done loose ready time tail fun e' kept c toRight' toLeft' ready' => ?_
        refine later e' c toRight' toLeft' ready' ?_
        rwa [kept]
      | cons i program' =>
        rw [tail, List.length_cons] at shorter
        rw [tail] at rest inside
        have others' := fun j member => inside j (List.mem_cons_of_mem i member)
        cases i with
        | gate i => cases breaks time _ _ tail
        | inputb args => cases breaks time _ _ tail
        | convcbit => cases breaks time _ _ tail
        | reveal args =>
          refine sync_reveal loose ready time tail (fun holds => (rest holds).1)
            fun e' flag toRight' toLeft' ready' => ?_
          refine ih _ (by omega) ready' (fun holds => ?_) (fun member => allowed (others' _ member)) rfl
          rw [flag]
          exact (rest holds).2
        | runTapes =>
          have holds : exact := allowed (inside _ List.mem_cons_self)
          obtain ⟨⟨positive, tainted⟩, meets'⟩ := rest holds
          refine sync_runTapes loose ready time tail positive tainted
            fun e' flag toRight' toLeft' ready' => ?_
          refine ih _ (by omega) ready' (fun _ => ?_) (fun _ => holds) rfl
          rw [flag]
          exact meets'

/-- All scheduled tapes, up to the end of both threads. -/
theorem tapes_lead (loose : exact ∨ ∀ s : YaoNet, s.right.control = .failed → wanted s)
    (finish : ∀ e' : EvaluatorThread, ∀ complexity toRight' toLeft',
      Ready exact e'.consumed toRight' toLeft' →
      wanted ⟨⟨.finished, [], [], complexity, true, e'.counter, [], [], []⟩,
        { e' with control := .finished, tapes := [], program := [] }, toRight', toLeft'⟩)
    (complexity : Nat) (ready : Ready exact e.consumed toRight toLeft)
    (meets : exact → TapeMeets batchSize e.tainted tapes.flatten)
    (allowed : .runTapes ∈ tapes.flatten → exact) :
    Leads batchSize wanted ⟨⟨.schedule, tapes, [], complexity, true, e.counter, [], [], []⟩,
      { e with control := .schedule, tapes, program := [] }, toRight, toLeft⟩ := by
  induction tapes generalizing e complexity toRight toLeft with
  | nil =>
    exact .left_internal rfl (.right_internal rfl (.here (finish e complexity toRight toLeft ready)))
  | cons tape tapes ih =>
    rw [List.flatten_cons] at meets allowed
    refine .left_internal rfl (.left_internal rfl (.right_internal rfl ?_))
    refine program_leads loose ready meets (fun member => allowed (List.mem_append_left _ member))
      fun e' c toRight' toLeft' ready' meets' => ?_
    exact ih c ready' meets' fun member => allowed (List.mem_append_right _ member)

end Breaks

end Segments

end SimpleOprf.Yao
