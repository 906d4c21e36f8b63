import SimpleOprf.Yao.Segments

/-!
# Lock-step in continuous mode

When the batch size is positive and the evaluator's flag is set whenever it runs
tapes, the gates and masks that it consumes after its `k`-th receive are those of
the garbler's `k`-th message, in every run.

Gates are compared by their ids and masks by their wires. The invariant relates
the segments that the evaluator has closed to the messages that the garbler has
sent.
-/

namespace SimpleOprf.Yao

open SimpleOprf.Basis

/-- The consumption of receives that are followed by another one or by the end of
the tape, the last one first. -/
def EvaluatorThread.closed (e : EvaluatorThread) : List Segment :=
  match e.control with
  | .execute => e.consumed.tail
  | .check => e.consumed.tail
  | .exchange => e.consumed.tail
  | _ => e.consumed

/-- The evaluator has consumed what the garbler has sent, message by message. -/
structure InLockStep (s : YaoNet) : Prop where
  /-- The evaluator has not run out of gates or masks. -/
  running : s.right.control ≠ .failed
  closed : s.right.closed.reverse.map Segment.message <+: (s.toRight .P).sent
  /-- No message is skipped. -/
  finished : s.right.control = .finished →
    (s.toRight .P).sent = s.right.consumed.reverse.map Segment.message

variable {batchSize : Nat}

/-- Recording changes the open segment only. -/
theorem EvaluatorThread.tail_record (gates : List (BitVec 64)) (masks : List (Nat × Nat))
    (consumed : List Segment) : (record gates masks consumed).tail = consumed.tail := by
  cases consumed with
  | nil => rfl
  | cons now past => rfl

/-- What a step of the evaluator in continuous mode does to its record: closed
consumption stays, and a new one begins with a receive. -/
structure EvaluatorMoves (e : EvaluatorThread) (link : Option Link) (e' : EvaluatorThread) : Prop where
  closed : e.closed <:+ e'.closed
  count : e'.consumed.length ≤ e.consumed.length + if link = some .P then 1 else 0
  streaming : e'.control ≠ .pop

/-- A step that leaves the record alone, except for what is being consumed. -/
theorem EvaluatorMoves.of_tail {e e' : EvaluatorThread} {link : Option Link}
    (inside : e.closed = e.consumed.tail) (tail : e'.consumed.tail = e.consumed.tail)
    (count : e'.consumed.length = e.consumed.length) (streaming : e'.control ≠ .pop) :
    EvaluatorMoves e link e' := by
  refine ⟨?_, by rw [count]; exact Nat.le_add_right _ _, streaming⟩
  rw [inside, ← tail]
  unfold EvaluatorThread.closed
  split
  · exact List.suffix_rfl
  · exact List.suffix_rfl
  · exact List.suffix_rfl
  · exact List.tail_suffix _

theorem EvaluatorThread.length_record (gates : List (BitVec 64)) (masks : List (Nat × Nat))
    (consumed : List Segment) : (record gates masks consumed).length = consumed.length := by
  cases consumed with
  | nil => rfl
  | cons now past => rfl

/-- What one action of the evaluator does to its segments. -/
theorem EvaluatorThread.next_moves {e : EvaluatorThread} (streaming : e.control ≠ .pop) :
    (e.next ⟨true, batchSize⟩).Next (EvaluatorMoves e) := by
  obtain ⟨control, tapes, program, complexity, tainted, counter, gates, masks, store, consumed⟩ := e
  cases control with
  | pop => exact absurd rfl streaming
  | finished => trivial
  | failed => trivial
  | preRun => exact ⟨List.suffix_rfl, Nat.le_add_right _ _, by rintro ⟨⟩⟩
  | receiveToStore =>
    intro message
    cases message <;> exact ⟨List.suffix_rfl, Nat.le_add_right _ _, by rintro ⟨⟩⟩
  | schedule =>
    cases tapes with
    | nil => exact ⟨List.suffix_rfl, Nat.le_add_right _ _, by rintro ⟨⟩⟩
    | cons tape tapes => exact ⟨List.suffix_rfl, Nat.le_add_right _ _, by rintro ⟨⟩⟩
  | receive =>
    intro message
    cases message <;> exact ⟨List.suffix_rfl, by simp [refill], by rintro ⟨⟩⟩
  | check =>
    unfold next
    dsimp only
    split
    · exact .of_tail rfl rfl rfl (by rintro ⟨⟩)
    · exact .of_tail rfl rfl rfl (by rintro ⟨⟩)
  | exchange =>
    intro message
    exact .of_tail rfl rfl rfl (by rintro ⟨⟩)
  | execute =>
    cases program with
    | nil => exact .of_tail rfl rfl rfl (by rintro ⟨⟩)
    | cons i rest =>
      cases i with
      | convcbit => exact .of_tail rfl rfl rfl (by rintro ⟨⟩)
      | gate i =>
        simp only [next, perform]
        split
        · exact .of_tail rfl rfl rfl (by rintro ⟨⟩)
        · exact .of_tail rfl (tail_record _ _ _) (length_record _ _ _) (by rintro ⟨⟩)
      | inputb args =>
        simp only [next, perform]
        split
        · exact .of_tail rfl rfl rfl (by rintro ⟨⟩)
        · exact .of_tail rfl rfl rfl (by rintro ⟨⟩)
      | reveal args =>
        simp only [next, perform]
        split
        · exact .of_tail rfl rfl rfl (by rintro ⟨⟩)
        · exact .of_tail rfl (tail_record _ _ _) (length_record _ _ _) (by rintro ⟨⟩)
      | runTapes =>
        cases tainted with
        | false => exact .of_tail rfl rfl rfl (by rintro ⟨⟩)
        | true => exact .of_tail rfl rfl rfl (by rintro ⟨⟩)

/-- In continuous mode the evaluator begins no consumption without a message. -/
structure Streaming (s : YaoNet) : Prop where
  control : s.right.control ≠ .pop
  count : s.right.consumed.length ≤ (s.toRight .P).received
  received : (s.toRight .P).received ≤ (s.toRight .P).sent.length

/-- A step keeps both parties streaming and the closed segments closed. -/
theorem Streaming.step {s t : YaoNet} (streaming : Streaming s)
    (step : Net.Step (GarblerThread.next ⟨true, batchSize⟩) (EvaluatorThread.next ⟨true, batchSize⟩)
      s t) : Streaming t ∧ s.right.closed <:+ t.right.closed := by
  obtain ⟨control, count, received⟩ := streaming
  rcases step with left | right
  · obtain ⟨⟨l, out, inc⟩, performed, rfl⟩ := Option.map_eq_some_iff.mp left
    obtain ⟨longer, same, -⟩ := Action.channels_perform performed .P
    refine ⟨⟨control, ?_, ?_⟩, List.suffix_rfl⟩
    · rwa [same]
    · rw [same]
      exact received.trans longer.length_le
  · obtain ⟨⟨r, inc, out⟩, performed, rfl⟩ := Option.map_eq_some_iff.mp right
    rcases (EvaluatorThread.next_moves control).of_perform performed with
      ⟨moves, rfl⟩ | ⟨link, message, moves, found, rfl⟩
    · exact ⟨⟨moves.streaming, moves.count.trans count, received⟩, moves.closed⟩
    · have bound := moves.count
      cases link with
      | player =>
        exact ⟨⟨moves.streaming, bound.trans count, received⟩, moves.closed⟩
      | P =>
        have inFlight : (s.toRight .P).received < (s.toRight .P).sent.length :=
          (List.getElem?_eq_some_iff.mp found).1
        rw [if_pos rfl] at bound
        refine ⟨⟨moves.streaming, ?_, ?_⟩, moves.closed⟩
        · simp only [popOn, Function.update_self]
          exact bound.trans (Nat.succ_le_succ count)
        · simp only [popOn, Function.update_self]
          exact inFlight

/-- So does a run. -/
theorem Streaming.run {s t : YaoNet} (streaming : Streaming s)
    (reaches : Net.Reaches (GarblerThread.next ⟨true, batchSize⟩)
      (EvaluatorThread.next ⟨true, batchSize⟩) s t) :
    Streaming t ∧ s.right.closed <:+ t.right.closed := by
  induction reaches with
  | refl => exact ⟨streaming, List.suffix_rfl⟩
  | tail _ step ih =>
    obtain ⟨before, grown⟩ := ih
    obtain ⟨after, more⟩ := before.step step
    exact ⟨after, grown.trans more⟩

/-- Both parties start streaming. -/
theorem startNet_streaming (tapes : List (List TapeInstruction)) : Streaming (startNet tapes) :=
  ⟨nofun, le_rfl, le_rfl⟩

/-! ## The end of a run -/

/-- Some schedule ends with both threads finished, everything that was sent being
consumed. -/
theorem exists_finished {tapes : List (List TapeInstruction)}
    (meets : TapeMeets batchSize true tapes.flatten) :
    Leads batchSize (fun f => f.left.control = .finished ∧ f.right.control = .finished ∧
        (f.toRight .P).sent = f.right.consumed.reverse.map Segment.message)
      (startNet tapes) := by
  have ready : Ready True [] (fun _ : Link => (⟨[], 0⟩ : Fifo Message)) fun _ => ⟨[], 0⟩ :=
    ⟨⟨rfl, rfl, rfl⟩, ⟨le_rfl, by simp⟩, fun _ => rfl⟩
  refine .right_internal rfl ?_
  refine tapes_lead (e := .start tapes) (.inl trivial) ?_ 0 ready (fun _ => meets) fun _ => trivial
  intro e' complexity toRight' toLeft' ready'
  exact ⟨rfl, rfl, congrArg Fifo.sent (ready'.history trivial)⟩

/-- In every run that meets the condition the evaluator consumes message by message
what the garbler sends. -/
theorem inLockStep_of_meets {tapes : List (List TapeInstruction)}
    (meets : TapeMeets batchSize true tapes.flatten) {s : YaoNet}
    (reachable : Reachable ⟨true, batchSize⟩ tapes s) : InLockStep s := by
  obtain ⟨f, reaches, left, right, whole⟩ := exists_finished meets
  have done : f.Finished (GarblerThread.next ⟨true, batchSize⟩)
      (EvaluatorThread.next ⟨true, batchSize⟩) := by
    constructor
    · simp only [GarblerThread.next, left]
    · simp only [EvaluatorThread.next, right]
  have later := done.of_reaches reaches reachable
  obtain ⟨streaming, -⟩ := (startNet_streaming tapes).run reachable
  obtain ⟨-, grown⟩ := streaming.run later
  have sent := Net.sent_mono later .P
  have all : f.right.closed = f.right.consumed := by simp only [EvaluatorThread.closed, right]
  have matched : s.right.closed.reverse.map Segment.message <+: (f.toRight .P).sent := by
    rw [whole, ← all]
    exact (List.reverse_prefix.mpr grown).map _
  have fewer : s.right.closed.length ≤ s.right.consumed.length := by
    unfold EvaluatorThread.closed
    split <;> simp
  have closed : s.right.closed.reverse.map Segment.message <+: (s.toRight .P).sent := by
    refine List.prefix_of_prefix_length_le matched sent ?_
    rw [List.length_map, List.length_reverse]
    exact fewer.trans (streaming.count.trans streaming.received)
  refine ⟨fun failed => ?_, closed, fun finished => ?_⟩
  · have stuck : EvaluatorThread.next ⟨true, batchSize⟩ s.right = .failed := by
      simp only [EvaluatorThread.next, failed]
    have still := Net.failed_right stuck later
    rw [done.2] at still
    cases still
  · have stopped : EvaluatorThread.next ⟨true, batchSize⟩ s.right = .finished := by
      simp only [EvaluatorThread.next, finished]
    have same := Net.right_eq (fun _ _ => by rw [stopped]; rfl) later
    rw [whole, same] at sent
    refine sent.eq_of_length_le ?_
    rw [List.length_map, List.length_reverse]
    exact streaming.count.trans streaming.received

/-- All kinds of instructions, with a batch of two gates. -/
def sampleTape : List TapeInstruction :=
  [.gate (.ands [⟨2, 2, 0, 1⟩]), .inputb [⟨1, 3⟩, ⟨0, 1⟩], .gate (.andrs [⟨1, 3, 0, 2⟩]),
    .reveal [⟨2, 2⟩], .runTapes, .convcbit, .gate (.xors [⟨2, 4, 0, 1⟩])]

/-- The lock step for two tapes that break by complexity. -/
theorem sampleTape_inLockStep :
    InLockStep (Net.schedule (GarblerThread.next ⟨true, 2⟩) (EvaluatorThread.next ⟨true, 2⟩) 60
      (startNet [sampleTape, sampleTape.take 5])) :=
  inLockStep_of_meets (by simp [sampleTape, TapeMeets, TapeInstruction.Meets,
    TapeInstruction.taintAfter, revealedWires]) (Net.reaches_schedule 60 _)

/-- Two instructions that run tapes, and one AND gate. -/
def twoRunTapes : List TapeInstruction := [.runTapes, .runTapes, .gate (.ands [⟨1, 2, 0, 1⟩])]

/-- At the second of them only the garbler breaks, so its gate is in a message that
the evaluator does not receive in time. -/
theorem twoRunTapes_not_inLockStep :
    ∃ s, Reachable ⟨true, 10000⟩ [twoRunTapes] s ∧ s.right.control = .failed ∧ ¬InLockStep s := by
  have failed : (Net.schedule (GarblerThread.next ⟨true, 10000⟩)
      (EvaluatorThread.next ⟨true, 10000⟩) 40 (startNet [twoRunTapes])).right.control = .failed := by
    decide +kernel
  exact ⟨_, Net.reaches_schedule 40 _, failed, fun lockStep => lockStep.running failed⟩

end SimpleOprf.Yao
