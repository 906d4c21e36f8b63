import SimpleOprf.Yao.Segments

/-!
# Deadlocks

In continuous mode two threads cannot end in a deadlock. In one-shot mode they do
as soon as there is a tape: after it the garbler waits for the evaluator's last
message of the initialisation, which the evaluator does not send in this mode, and
the evaluator waits for more to store.
-/

namespace SimpleOprf.Yao

open SimpleOprf.Basis

/-- Gate, input and reveal instructions. -/
def TapeInstruction.Basic : TapeInstruction → Prop
  | .gate _ => True
  | .inputb _ => True
  | .reveal _ => True
  | _ => False

/-- Neither thread can move on, and not both have finished. -/
abbrev Deadlocked (options : RunOptions) (s : YaoNet) : Prop :=
  Net.Deadlocked (GarblerThread.next options) (EvaluatorThread.next options) s

/-- Neither party can move, or both have gone through their program. -/
abbrev Settled (options : RunOptions) (s : YaoNet) : Prop :=
  Net.Settled (GarblerThread.next options) (EvaluatorThread.next options) s

/-- The garbler waits for the pack after a tape. -/
theorem GarblerThread.next_init (options : RunOptions) {g : GarblerThread}
    (control : g.control = .resume .init) : ∃ next, g.next options = .receive .P next := by
  unfold next
  rw [control]
  exact ⟨_, rfl⟩

/-- The evaluator waits for the next segment. -/
theorem EvaluatorThread.next_receiveToStore (options : RunOptions) {e : EvaluatorThread}
    (control : e.control = .receiveToStore) : ∃ next, e.next options = .receive .P next := by
  unfold next
  rw [control]
  exact ⟨_, rfl⟩

section Continuous

variable (batchSize : Nat)

/-- In continuous mode some schedule ends with both threads finished or one failed. -/
theorem continuous_settles {tapes : List (List TapeInstruction)}
    (basic : ∀ i ∈ tapes.flatten, i.Basic) :
    Leads batchSize (Settled ⟨true, batchSize⟩) (startNet tapes) := by
  have ready : Ready False [] (fun _ : Link => (⟨[], 0⟩ : Fifo Message)) fun _ => ⟨[], 0⟩ :=
    ⟨⟨rfl, rfl, rfl⟩, ⟨le_rfl, by simp⟩, False.elim⟩
  refine .right_internal rfl ?_
  refine tapes_lead (e := .start tapes) (.inr fun s failed => .inr (.inr ?_)) ?_ 0 ready
    False.elim fun member => basic _ member
  · intro e' complexity toRight' toLeft' _
    exact .inl ⟨rfl, rfl⟩
  · simp only [EvaluatorThread.next, failed]

end Continuous

section OneShot

variable {batchSize : Nat} {wanted : YaoNet → Prop}

/-- Some schedule in one-shot mode leads to a state as wanted. -/
abbrev LeadsOnce (batchSize : Nat) (wanted : YaoNet → Prop) : YaoNet → Prop :=
  Net.Leads (GarblerThread.next ⟨false, batchSize⟩) (EvaluatorThread.next ⟨false, batchSize⟩) wanted

variable {e : EvaluatorThread} {toRight toLeft : Link → Fifo Message}

/-- After an instruction the garbler goes on at once or sends what it has. -/
theorem oneShot_check {g : GarblerThread} (control : g.control = .check)
    (pending : Pending (toRight .P))
    (later : ∀ complexity gates masks toRight', Pending (toRight' .P) → LeadsOnce batchSize wanted
      ⟨{ g with control := .execute, complexity, gates, outputMasks := masks }, e, toRight',
        toLeft⟩) :
    LeadsOnce batchSize wanted ⟨g, e, toRight, toLeft⟩ := by
  obtain ⟨_, tapes, program, complexity, tainted, counter, gates, masks, keys⟩ := g
  dsimp only at control
  subst control
  by_cases small : complexity < batchSize
  · exact .left_internal (if_pos small) (later _ _ _ _ pending)
  · refine .left_internal (if_neg small) (.left_send rfl (.left_internal rfl (.left_internal rfl ?_)))
    exact later 0 [] [] _ (pending.extend ⟨gates, masks⟩)

/-- The garbler goes through a tape without waiting, and then waits. -/
theorem oneShot_garbler {g : GarblerThread} (control : g.control = .execute)
    (basic : ∀ i ∈ g.program, i.Basic) (pending : Pending (toRight .P))
    (later : ∀ g' : GarblerThread, g'.control = .resume .init → ∀ toRight', Pending (toRight' .P) →
      LeadsOnce batchSize wanted ⟨g', e, toRight', toLeft⟩) :
    LeadsOnce batchSize wanted ⟨g, e, toRight, toLeft⟩ := by
  obtain ⟨_, tapes, program, complexity, tainted, counter, gates, masks, keys⟩ := g
  dsimp only at control basic
  subst control
  induction program generalizing complexity tainted counter gates masks keys toRight with
  | nil =>
    refine .left_internal rfl (.left_send rfl ?_)
    exact later _ rfl _ (pending.extend ⟨gates, masks⟩)
  | cons i rest ih =>
    obtain ⟨first, others⟩ := List.forall_mem_cons.mp basic
    cases i with
    | convcbit => exact first.elim
    | runTapes => exact first.elim
    | gate i =>
      exact .left_internal rfl (oneShot_check rfl pending fun _ _ _ _ pending' =>
        ih pending' _ _ _ _ _ _ others)
    | inputb args =>
      exact .left_internal rfl (oneShot_check rfl pending fun _ _ _ _ pending' =>
        ih pending' _ _ _ _ _ _ others)
    | reveal args =>
      exact .left_internal rfl (oneShot_check rfl pending fun _ _ _ _ pending' =>
        ih pending' _ _ _ _ _ _ others)

/-- The evaluator stores every message in flight and waits for more. -/
theorem oneShot_evaluator {g : GarblerThread} (control : e.control = .receiveToStore)
    (pending : Pending (toRight .P))
    (later : ∀ e' : EvaluatorThread, e'.control = .receiveToStore → ∀ toRight',
      (toRight' .P).head? = none → LeadsOnce batchSize wanted ⟨g, e', toRight', toLeft⟩) :
    LeadsOnce batchSize wanted ⟨g, e, toRight, toLeft⟩ := by
  induction inFlight : (toRight .P).sent.length - (toRight .P).received
    generalizing e toRight with
  | zero =>
    refine later e control toRight ?_
    rw [Fifo.head?, List.getElem?_eq_none (Nat.sub_eq_zero_iff_le.mp inFlight)]
  | succ n ih =>
    obtain ⟨bound, segments⟩ := pending
    have inside : (toRight .P).received < (toRight .P).sent.length := by omega
    obtain ⟨gates, masks, head⟩ := segments _ (List.getElem_cons_drop inside ▸ List.mem_cons_self)
    have found : (toRight .P).head? = some (.more gates masks) := by
      rw [Fifo.head?, List.getElem?_eq_getElem inside, head]
    obtain ⟨_, tapes, program, complexity, tainted, counter, eGates, eMasks, store, consumed⟩ := e
    dsimp only at control
    subst control
    refine .right_receive rfl found (ih rfl ⟨?_, fun message member => segments message ?_⟩ ?_)
    · simp only [popOn, Function.update_self]
      exact inside
    · simp only [popOn, Function.update_self] at member
      rw [← List.drop_drop] at member
      exact List.mem_of_mem_drop member
    · simp only [popOn, Function.update_self]
      omega

variable (batchSize) in
/-- In one-shot mode the first tape ends in a deadlock. -/
theorem oneShot_deadlocks {tape : List TapeInstruction} (tapes : List (List TapeInstruction))
    (basic : ∀ i ∈ tape, i.Basic) :
    LeadsOnce batchSize (Deadlocked ⟨false, batchSize⟩) (startNet (tape :: tapes)) := by
  have pending : Pending ⟨[], 0⟩ := ⟨le_rfl, by simp⟩
  refine .right_internal rfl (.left_internal rfl (.left_internal rfl ?_))
  refine oneShot_garbler rfl basic pending fun g' waits toRight' pending' => ?_
  refine oneShot_evaluator rfl pending' fun e' stores toRight'' empty => .here ⟨?_, ?_, ?_⟩
  · obtain ⟨next, receives⟩ := GarblerThread.next_init ⟨false, batchSize⟩ waits
    exact .inr ⟨.P, next, receives, rfl⟩
  · obtain ⟨next, receives⟩ := EvaluatorThread.next_receiveToStore ⟨false, batchSize⟩ stores
    exact .inr ⟨.P, next, receives, empty⟩
  · rintro ⟨finished, -⟩
    simp [GarblerThread.next, waits] at finished

variable (batchSize) in
/-- Without tapes both threads finish in one-shot mode. -/
theorem oneShot_settles :
    LeadsOnce batchSize (Settled ⟨false, batchSize⟩) (startNet []) := by
  refine .left_send rfl (.left_internal rfl (.left_internal rfl (.right_internal rfl ?_)))
  refine .right_receive rfl rfl (.right_internal rfl (.here (.inl ⟨rfl, rfl⟩)))

end OneShot

/-- No deadlock can be reached exactly in continuous mode, or without tapes. -/
theorem deadlock_free_iff {options : RunOptions} {tapes : List (List TapeInstruction)}
    (basic : ∀ i ∈ tapes.flatten, i.Basic) :
    (∀ s, Reachable options tapes s → ¬Deadlocked options s) ↔
      options.continuous = true ∨ tapes = [] := by
  obtain ⟨continuous, batchSize⟩ := options
  cases continuous with
  | true =>
    obtain ⟨f, reaches, settled⟩ := continuous_settles batchSize basic
    exact ⟨fun _ => .inl rfl, fun _ s reachable => settled.not_deadlocked reaches reachable⟩
  | false =>
    cases tapes with
    | nil =>
      obtain ⟨f, reaches, settled⟩ := oneShot_settles batchSize
      exact ⟨fun _ => .inr rfl, fun _ s reachable => settled.not_deadlocked reaches reachable⟩
    | cons tape tapes =>
      have first : ∀ i ∈ tape, i.Basic := fun i member =>
        basic i (List.mem_flatten.mpr ⟨tape, List.mem_cons_self, member⟩)
      obtain ⟨s, reaches, deadlocked⟩ := oneShot_deadlocks batchSize tapes first
      exact ⟨fun free => absurd deadlocked (free s reaches), fun holds => by simp at holds⟩

/-- An XOR, an input and a reveal in one-shot mode. -/
def oneShotTape : List TapeInstruction :=
  [.inputb [⟨1, 1⟩, ⟨0, 1⟩], .gate (.xors [⟨1, 2, 0, 1⟩]), .reveal [⟨2, 1⟩]]

/-- A one-shot program of one tape does not deadlock. -/
theorem oneShotTape_deadlock_free :
    (∀ i ∈ [oneShotTape].flatten, i.Basic) ∧
      ∀ s, Reachable ⟨true, 10000⟩ [oneShotTape] s → ¬Deadlocked ⟨true, 10000⟩ s := by
  have basic : ∀ i ∈ [oneShotTape].flatten, i.Basic := by
    simp [oneShotTape, TapeInstruction.Basic]
  exact ⟨basic, (deadlock_free_iff basic).mpr (.inl rfl)⟩

/-- The garbler waits for the evaluator's last message, the evaluator for more to
store. -/
theorem oneShotTape_deadlocks :
    ∃ s, Reachable ⟨false, 10000⟩ [oneShotTape] s ∧ Deadlocked ⟨false, 10000⟩ s := by
  refine ⟨_, Net.reaches_schedule 20 _, ?_, ?_, ?_⟩
  · exact .inr ⟨.P, _, rfl, rfl⟩
  · exact .inr ⟨.P, _, rfl, rfl⟩
  · rintro ⟨finished, -⟩
    cases finished

end SimpleOprf.Yao
