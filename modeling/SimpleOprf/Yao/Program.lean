import SimpleOprf.Yao.InputRegisters

/-!
# Whole programs

A straight-line program of gates, register instructions, inputs and openings on both
sides, in continuous mode. The garbler runs a segment, sends its gates and masks and
serves the inputs while the evaluator runs the same segment. A segment ends when the
batch is full, where both parties go on as before, at an opening, where the garbler goes
on with the clear registers that the evaluator sends back, and at the end of the program.
There the evaluator sends the Init message, for which the garbler waits.

With `-O` the evaluator does not send this message, so no program gets to its end.
-/

namespace SimpleOprf.Yao

open SimpleOprf.Basis SimpleOprf.OtExtension

/-- An instruction of a program that the parties run together. -/
inductive Operation where
  | gates (i : Instruction)
  | registers (i : RegisterInstruction)
  | input (call : InputCall)
  | reveal (args : List RevealTriple)

/-- `n_input_bits`, over the arguments of both senders. -/
def InputCall.nInputBits : InputCall → Nat
  | .inputb args => args.foldl (fun res x => res + x.nBits) 0
  | .inputbvec args => args.foldl (fun res x => res + x.dest.length) 0

namespace Operation

/-- Both parties break at this operation. -/
def isReveal : Operation → Bool
  | reveal _ => true
  | _ => false

/-- The clear registers that an operation reads. -/
def reads : Operation → List Nat
  | registers i => i.clears
  | _ => []

/-- The clear registers that only the evaluator opens. -/
def opens : Operation → List Nat
  | reveal args => clearRegisters args
  | _ => []

/-- What an operation adds to the complexity of the batch. -/
def complexity : Operation → Nat
  | gates i => i.total
  | input call => call.nInputBits
  | _ => 0

end Operation

/-- What the gates of a list of operations cost. -/
def complexityOf : List Operation → Nat
  | [] => 0
  | op :: rest => op.complexity + complexityOf rest

/-- `Program::execute` goes through some operations without a break: there is no opening
among them, and the batch is not full after the last one. -/
structure Unbroken (batchSize : Nat) (ops : List Operation) : Prop where
  silent : ∀ op ∈ ops, op.isReveal = false
  below : ops = [] ∨ complexityOf ops < batchSize

/-- Steps for one operation after the other. -/
inductive Execution {State : Type} (step : State → Operation → State → Prop) :
    State → List Operation → State → Prop
  | nil (s : State) : Execution step s [] s
  | cons {s mid final : State} {op : Operation} {rest : List Operation}
      (first : step s op mid) (later : Execution step mid rest final) :
      Execution step s (op :: rest) final

/-- A run of two lists stops between them. -/
theorem Execution.append_inv {State : Type} {step : State → Operation → State → Prop}
    {s s' : State} {front back : List Operation} (run : Execution step s (front ++ back) s') :
    ∃ mid, Execution step s front mid ∧ Execution step mid back s' := by
  induction front generalizing s with
  | nil => exact ⟨s, .nil s, run⟩
  | cons op front ih =>
    cases run with
    | cons first later =>
      obtain ⟨mid, before, after⟩ := ih later
      exact ⟨mid, .cons first before, after⟩

/-- What both parties are set up with. -/
structure Setting (σ : Type) where
  hash : Key → Key
  delta : Key
  garbler : ThreadConfig
  evaluator : ThreadConfig
  prng : Prng σ
  transpose : Square → Square
  batchSize : Nat

/-- The offset has its signal bit, both parties run the same program thread, and batches
are not empty. -/
structure Setting.Valid {σ : Type} (x : Setting σ) : Prop where
  odd : x.delta.getSignal = true
  paired : Paired x.garbler x.evaluator
  transposes : Transposes x.transpose
  batch : 0 < x.batchSize

/-! ## The parties -/

/-- The garbler with its clear registers, its masks, and the queue of inputs that it
still has to serve. -/
structure GarblerProcessor (σ : Type) extends YaoGarbler where
  C : Nat → Clear
  output : OutputState
  prng : σ
  receiverInputKeys : List (List Key)

/-- The evaluator, with the last message that it has sent. -/
structure EvaluatorProcessor (σ : Type) extends YaoEvaluator where
  C : Nat → Clear
  output : OutputState
  otExt : OtReceiver σ
  message : List UInt8

section Steps

variable {σ : Type} (x : Setting σ)

/-- One operation of the garbler. Gates may draw from its generator. An opening is run up
to the exception that makes it send its buffers. -/
def GarblerProcessor.Step (g : GarblerProcessor σ) : Operation → GarblerProcessor σ → Prop
  | .gates i, g' => ∃ core draws, GarblerStep x.hash x.delta x.garbler g.toYaoGarbler i core ∧
      g' = { g with toYaoGarbler := core, prng := x.prng.after g.prng draws }
  | .registers i, g' => ∃ S,
      i.run (fun b => YaoHalfGate.garblePublicInput b x.delta) g.C g.S = .ok S ∧ g' = { g with S }
  | .input call, g' => call.invalid = false ∧ ∃ S prng keys,
      YaoGarbleWire.inputCall x.prng x.delta call g.S g.prng = (S, prng, keys) ∧
      g' = { g with S, prng, receiverInputKeys := g.receiverInputKeys ++ [keys] }
  | .reveal args, g' => ∃ cleaning C output,
      YaoGarbleWire.revealInst true g.S args [] g.C g.output = .ok (cleaning, C, output) ∧
      g' = { g with C, output }

/-- One operation of the evaluator, with the garbler serving its inputs. -/
def EvaluatorProcessor.Step (gates : Nat → YaoHalfGate) :
    EvaluatorProcessor σ × InputServer σ → Operation → EvaluatorProcessor σ × InputServer σ → Prop
  | (e, s), .gates i, t => ∃ core,
      EvaluatorStep x.hash x.evaluator gates e.toYaoEvaluator i core ∧
      t = ({ e with toYaoEvaluator := core }, s)
  | (e, s), .registers i, t => ∃ S, i.run (fun _ => 0) e.C e.S = .ok S ∧ t = ({ e with S }, s)
  | (e, s), .input call, t => call.invalid = false ∧ ∃ S otExt s',
      YaoEvalWire.inputCall x.prng x.transpose call e.S e.otExt s = some (S, otExt, s') ∧
      t = ({ e with S, otExt }, s')
  | (e, s), .reveal args, t => ∃ message C output,
      YaoEvalWire.revealInst true e.S args e.C e.output = .ok (message, C, output) ∧
      t = ({ e with C, output, message }, s)

/-- Both parties and the garbler's end of the transfers. -/
structure Parties (σ : Type) where
  garbler : GarblerProcessor σ
  evaluator : EvaluatorProcessor σ
  /-- The garbler's end of the oblivious transfers. -/
  otExt : OtSender σ

/-- The evaluator reads the gates and the masks of a segment from their start. -/
def EvaluatorProcessor.receive (e : EvaluatorProcessor σ) (masks : List Bool) :
    EvaluatorProcessor σ :=
  { e with output := { e.output with outputMasks := masks } }

/-- One segment: the evaluator follows when the garbler has sent its buffers. -/
def RunsSegment (p : Parties σ) (ops : List Operation) (p' : Parties σ) : Prop :=
  ∃ g e s, Execution (GarblerProcessor.Step x) p.garbler ops g ∧
    Execution (EvaluatorProcessor.Step x g.gates)
      (p.evaluator.receive g.output.outputMasks, ⟨p.otExt, g.receiverInputKeys⟩) ops (e, s) ∧
    p' = ⟨{ g with receiverInputKeys := s.receiverInputKeys }, e, s.otExt⟩

/-- The garbler after its buffers are cleared, with what the evaluator has opened. -/
def Parties.resume (p : Parties σ) (C : Nat → Clear) (output : OutputState) : Parties σ where
  garbler := { p.garbler with C, output, progress := { p.garbler.progress with position := 0 } }
  evaluator := { p.evaluator with progress := { p.evaluator.progress with position := 0 } }
  otExt := p.otExt

/-- The garbler after its buffers are cleared, with nothing opened. -/
def Parties.cleared (p : Parties σ) : Parties σ :=
  p.resume p.garbler.C { p.garbler.output with outputMasks := [] }

/-- A program up to its end, from a break to the next. -/
inductive RunsProgram : Parties σ → List Operation → Parties σ → Prop
  | last {p p' : Parties σ} {ops : List Operation} (unbroken : Unbroken x.batchSize ops)
      (segment : RunsSegment x p ops p') : RunsProgram p ops p'
  | full {p mid p' : Parties σ} {front rest : List Operation} {op : Operation}
      (unbroken : Unbroken x.batchSize front) (silent : op.isReveal = false)
      (full : x.batchSize ≤ complexityOf (front ++ [op]))
      (segment : RunsSegment x p (front ++ [op]) mid)
      (later : RunsProgram mid.cleared rest p') : RunsProgram p (front ++ op :: rest) p'
  | reveal {p mid p' : Parties σ} {front rest : List Operation} {args : List RevealTriple}
      {C : Nat → Clear} {output : OutputState} (unbroken : Unbroken x.batchSize front)
      (segment : RunsSegment x p (front ++ [.reveal args]) mid)
      (received : YaoGarbleWire.revealInst true mid.garbler.S args mid.evaluator.message
        mid.garbler.C { mid.garbler.output with outputMasks := [] } = .ok (false, C, output))
      (later : RunsProgram (mid.resume C output) rest p') :
      RunsProgram p (front ++ .reveal args :: rest) p'

end Steps

/-! ## Plain programs -/

instance instDecidableEnough (V : Memory Bool) (args : List RevealTriple) :
    Decidable (Enough V args) :=
  inferInstanceAs (Decidable (∀ call ∈ args.flatMap RevealTriple.calls,
    call.nBits ≤ (V call.source).length))

/-- One operation on plain registers. An opening copies whole registers. -/
def plainOperation (state : Memory Bool × (Nat → Clear)) :
    Operation → Option (Memory Bool × (Nat → Clear))
  | .gates i => (plainStep state.1 i).map fun V => (V, state.2)
  | .registers i => (i.run id state.2 state.1).toOption.map fun V => (V, state.2)
  | .input call => if call.invalid then none else some (call.plain state.1, state.2)
  | .reveal args =>
    if Enough state.1 args then
      some (state.1, written (fun r => packBits (opened (state.1 r)) 0 0)
        (args.flatMap RevealTriple.calls) state.2)
    else none

/-- What a program does to plain bits and clear registers. -/
def plainProgram (state : Memory Bool × (Nat → Clear)) (ops : List Operation) :
    Option (Memory Bool × (Nat → Clear)) :=
  ops.foldlM plainOperation state

/-- The condition of an operation for the two parties to agree on it. The input bits of a
call are counted in an `int`. -/
def Operation.Meets {σ : Type} (x : Setting σ) : Operation → Prop
  | gates i => i.WellFormed ∧ i.Meets x.garbler x.evaluator
  | input call => call.WellFormed ∧ call.nInputBits < 2 ^ 31
  | _ => True

/-- No operation reads a clear register that only the evaluator knows. -/
def Known : List Nat → List Operation → Prop
  | _, [] => True
  | revealed, op :: rest => (∀ r ∈ op.reads, r ∉ revealed) ∧ Known (revealed ++ op.opens) rest

/-! ## The garbler only adds to its buffers -/

/-- Opening keeps the masks of some wires. -/
theorem YaoGarbleWire.reveal_keeps {G : Memory Key} {args : List RevealTriple}
    {C C' : Nat → Clear} {s s' : OutputState}
    (ran : Processor.reveal getOutput G args (C, s) = .ok (C', s')) : ∃ masks, s' = s.keep masks := by
  rw [Processor.reveal_eq_foldlM] at ran
  generalize args.flatMap RevealTriple.calls = calls at ran
  induction calls generalizing C s with
  | nil =>
    cases ran
    exact ⟨[], (OutputState.keep_nil _).symm⟩
  | cons call rest ih =>
    rw [List.foldlM_cons] at ran
    obtain ⟨⟨D, t⟩, first, later⟩ := Outcome.bind_eq_ok.mp ran
    rw [Processor.revealCall, Secret.reveal] at first
    split at first
    · cases first
    · rw [openWires_eq] at first
      cases first
      obtain ⟨masks, same⟩ := ih later
      exact ⟨_, same.trans (OutputState.keep_keep _ _ _)⟩

/-- Opening registers only appends masks. -/
theorem YaoGarbleWire.reveal_appends {G : Memory Key} {args : List RevealTriple}
    {C C' : Nat → Clear} {s s' : OutputState}
    (ran : Processor.reveal getOutput G args (C, s) = .ok (C', s')) :
    s.outputMasks <+: s'.outputMasks := by
  obtain ⟨masks, rfl⟩ := reveal_keeps ran
  exact List.prefix_append _ _

/-- So does the whole instruction. -/
theorem YaoGarbleWire.revealInst_appends {continuous cleaning : Bool} {G : Memory Key}
    {args : List RevealTriple} {buffer : List UInt8} {C C' : Nat → Clear} {s s' : OutputState}
    (ran : revealInst continuous G args buffer C s = .ok (cleaning, C', s')) :
    s.outputMasks <+: s'.outputMasks := by
  unfold revealInst at ran
  split at ran
  · dsimp only at ran
    split at ran
    · obtain ⟨⟨D, t⟩, first, later⟩ := Outcome.bind_eq_ok.mp ran
      refine (reveal_appends first).trans ?_
      split at later
      · cases later
        exact List.prefix_rfl
      · obtain ⟨_, -, ended⟩ := Outcome.bind_eq_ok.mp later
        cases ended
        exact List.prefix_rfl
    · rw [Outcome.ok_bind] at ran
      split at ran
      · cases ran
        exact List.prefix_rfl
      · obtain ⟨_, -, ended⟩ := Outcome.bind_eq_ok.mp ran
        cases ended
        exact List.prefix_rfl
  · obtain ⟨⟨D, t⟩, first, later⟩ := Outcome.bind_eq_ok.mp ran
    cases later
    exact reveal_appends first

/-- The exception of an opening takes the flag back. -/
theorem YaoGarbleWire.revealInst_untaints {cleaning : Bool} {G : Memory Key}
    {args : List RevealTriple} {buffer : List UInt8} {C C' : Nat → Clear} {s s' : OutputState}
    (ran : revealInst true G args buffer C s = .ok (cleaning, C', s')) (tainted : s.tainted = true) :
    s'.tainted = false := by
  rw [revealInst, if_pos rfl] at ran
  dsimp only at ran
  rw [if_pos tainted] at ran
  obtain ⟨⟨D, t⟩, first, later⟩ := Outcome.bind_eq_ok.mp ran
  obtain ⟨masks, rfl⟩ := reveal_keeps first
  dsimp only [OutputState.keep] at later
  rw [tainted, Bool.true_or] at later
  cases later
  rfl

section Appends

variable {σ : Type} {x : Setting σ}

/-- A later state of the garbler has the buffers of an earlier one at their front. -/
structure Appends (g g' : GarblerProcessor σ) : Prop where
  masks : g.output.outputMasks <+: g'.output.outputMasks
  keys : g.receiverInputKeys <+: g'.receiverInputKeys
  position : g.progress.position ≤ g'.progress.position
  gates : ∀ slot, slot < g.progress.position → g'.gates slot = g.gates slot

theorem Appends.refl (g : GarblerProcessor σ) : Appends g g :=
  ⟨List.prefix_rfl, List.prefix_rfl, le_rfl, fun _ _ => rfl⟩

theorem Appends.trans {a b c : GarblerProcessor σ} (first : Appends a b) (second : Appends b c) :
    Appends a c where
  masks := first.masks.trans second.masks
  keys := first.keys.trans second.keys
  position := first.position.trans second.position
  gates slot before :=
    (second.gates slot (before.trans_le first.position)).trans (first.gates slot before)

/-- A step of the garbler only appends. -/
theorem GarblerProcessor.step_appends (valid : x.Valid) {g g' : GarblerProcessor σ}
    {op : Operation} (meets : op.Meets x) (step : g.Step x op g') : Appends g g' := by
  cases op with
  | gates i =>
    obtain ⟨core, draws, garbled, rfl⟩ := step
    obtain ⟨advanced, kept⟩ := garbler_step_frame valid.paired meets.1 meets.2 garbled
    refine ⟨List.prefix_rfl, List.prefix_rfl, ?_, kept⟩
    exact (Progress.le_after _ i).trans_eq (congrArg Progress.position advanced).symm
  | registers i =>
    obtain ⟨S, -, rfl⟩ := step
    exact ⟨List.prefix_rfl, List.prefix_rfl, le_rfl, fun _ _ => rfl⟩
  | input call =>
    obtain ⟨-, S, prng, keys, -, rfl⟩ := step
    exact ⟨List.prefix_rfl, List.prefix_append _ _, le_rfl, fun _ _ => rfl⟩
  | reveal args =>
    obtain ⟨cleaning, C, output, ran, rfl⟩ := step
    exact ⟨YaoGarbleWire.revealInst_appends ran, List.prefix_rfl, le_rfl, fun _ _ => rfl⟩

/-- So does a run. -/
theorem GarblerProcessor.run_appends (valid : x.Valid) {ops : List Operation}
    (meets : ∀ op ∈ ops, op.Meets x) {g g' : GarblerProcessor σ}
    (run : Execution (Step x) g ops g') : Appends g g' := by
  induction run with
  | nil g => exact .refl g
  | cons first later ih =>
    have here := step_appends valid (meets _ List.mem_cons_self) first
    exact here.trans (ih fun op member => meets op (List.mem_cons_of_mem _ member))

end Appends

/-! ## The garbler alone -/

section Garbler

variable {σ : Type} {x : Setting σ}

/-- The garbler's registers hold as many wires as the plain ones, and it knows the clear
registers that have not been opened. -/
structure Shaped (x : Setting σ) (revealed : List Nat) (g : GarblerProcessor σ) (V : Memory Bool)
    (C : Nat → Clear) : Prop where
  aligned : ∃ E, Aligned x.delta g.S E V
  clear : ∀ r, r ∉ revealed → g.C r = C r

/-- The flag lets an opening go ahead. -/
def Runnable (g : GarblerProcessor σ) : Prop := g.output.tainted = true

/-- An odd offset has select bit one. -/
theorem signal_of_odd {delta : Key} (odd : delta.getSignal = true) : Key.signal delta = 1 := by
  rw [Key.signal_apply, odd]
  rfl

/-- An opening of the garbler, up to the exception. -/
theorem YaoGarbleWire.revealInst_eq {G E : Memory Key} {delta : Key} {V : Memory Bool}
    (aligned : Aligned delta G E V) {args : List RevealTriple} (enough : Enough V args)
    (C : Nat → Clear) {s : OutputState} (runnable : s.tainted = true) :
    revealInst true G args [] C s =
      .ok (true, written (fun _ => 0) (args.flatMap RevealTriple.calls) C,
        ⟨s.outputMasks ++ openedMasks G (args.flatMap RevealTriple.calls), false⟩) := by
  have enoughG : ∀ call ∈ args.flatMap RevealTriple.calls,
      call.nBits ≤ (G call.source).length := by
    intro call member
    rw [(aligned call.source).garbler]
    exact enough call member
  obtain ⟨masks, tainted⟩ := s
  obtain rfl : tainted = true := runnable
  exact revealInst_tainted enoughG true [] C masks

/-- An operation that has a plain result can be performed by the garbler. -/
theorem GarblerProcessor.steps (valid : x.Valid) {op : Operation} (meets : op.Meets x)
    {revealed : List Nat} {g : GarblerProcessor σ} {V V' : Memory Bool} {C C' : Nat → Clear}
    (shaped : Shaped x revealed g V C) (known : ∀ r ∈ op.reads, r ∉ revealed)
    (runnable : Runnable g) (plain : plainOperation (V, C) op = some (V', C')) :
    ∃ g', g.Step x op g' := by
  obtain ⟨E, aligned⟩ := shaped.aligned
  cases op with
  | gates i =>
    obtain ⟨core, garbled⟩ : ∃ core, GarblerStep x.hash x.delta x.garbler g.toYaoGarbler i core :=
      garbler_step valid.paired meets.1 meets.2 g.toYaoGarbler
    exact ⟨_, core, 0, garbled, rfl⟩
  | registers i =>
    obtain ⟨W, ran, -⟩ := Option.map_eq_some_iff.mp plain
    have plainly := Outcome.toOption_eq_some.mp ran
    obtain ⟨G, -, garbled, -, -⟩ :=
      i.run_aligned aligned (fun r read => shaped.clear r (known r read)) plainly
    exact ⟨_, G, garbled, rfl⟩
  | input call =>
    have valid : call.invalid = false := by
      by_contra invalid
      simp [plainOperation, invalid] at plain
    exact ⟨_, valid, _, _, _, rfl, rfl⟩
  | reveal args =>
    obtain ⟨enough, -⟩ := Option.ite_none_right_eq_some.mp plain
    exact ⟨_, _, _, _, YaoGarbleWire.revealInst_eq aligned enough g.C runnable, rfl⟩

/-- Only an opening ends a segment. -/
theorem Runnable.after {g g' : GarblerProcessor σ} {op : Operation} (runnable : Runnable g)
    (step : g.Step x op g') (other : op.isReveal = false) : Runnable g' := by
  cases op with
  | gates i =>
    obtain ⟨core, draws, -, rfl⟩ := step
    exact runnable
  | registers i =>
    obtain ⟨S, -, rfl⟩ := step
    exact runnable
  | input call =>
    obtain ⟨-, S, prng, keys, -, rfl⟩ := step
    exact runnable
  | reveal args => cases other

end Garbler

/-! ## Both parties -/

section Both

variable {σ : Type} {x : Setting σ}

/-- The evaluator has run as far as the garbler has, in a segment that the garbler ends in
`final`. What it still has to consume is what the garbler adds from here on. -/
structure Together (x : Setting σ) (final : GarblerProcessor σ) (revealed : List Nat)
    (g : GarblerProcessor σ) (e : EvaluatorProcessor σ) (s : InputServer σ) (V : Memory Bool)
    (C : Nat → Clear) : Prop where
  aligned : Aligned x.delta g.S e.S V
  progress : g.progress = e.progress
  garbler : ∀ r, r ∉ revealed → g.C r = C r
  evaluator : e.C = C
  masks : g.output.outputMasks ++ e.output.outputMasks = final.output.outputMasks
  keys : g.receiverInputKeys ++ s.receiverInputKeys = final.receiverInputKeys
  base : s.otExt.baseReceiverInput = x.delta.r
  baseOts : BaseOtsAgree s.otExt e.otExt

/-- Parties that are together have registers of the plain widths. -/
theorem Together.shaped {final : GarblerProcessor σ} {revealed : List Nat} {g : GarblerProcessor σ}
    {e : EvaluatorProcessor σ} {s : InputServer σ} {V : Memory Bool} {C : Nat → Clear}
    (together : Together x final revealed g e s V C) : Shaped x revealed g V C :=
  ⟨⟨_, together.aligned⟩, together.garbler⟩

/-- An opening of the evaluator, when its masks come first. -/
theorem YaoEvalWire.revealInst_masks {delta : Key} (odd : delta.getSignal = true)
    {G E : Memory Key} {V : Memory Bool} (aligned : Aligned delta G E V)
    {args : List RevealTriple} (enough : Enough V args) (C : Nat → Clear)
    (later : List Bool) (tainted : Bool) :
    ∃ message tainted', revealInst true E args C
        ⟨openedMasks G (args.flatMap RevealTriple.calls) ++ later, tainted⟩ =
      .ok (message, written (fun r => packBits (opened (V r)) 0 0)
        (args.flatMap RevealTriple.calls) C, ⟨later, tainted'⟩) := by
  rw [revealInst, Processor.reveal_eq_foldlM, foldlM_calls odd aligned enough]
  exact ⟨_, _, rfl⟩

/-- The evaluator can follow the garbler in an operation, and is together with it whenever
it does. -/
def Follows (x : Setting σ) (final : GarblerProcessor σ) (revealed : List Nat)
    (e : EvaluatorProcessor σ) (s : InputServer σ) (op : Operation) (g' : GarblerProcessor σ)
    (V' : Memory Bool) (C' : Nat → Clear) : Prop :=
  (∃ t, EvaluatorProcessor.Step x final.gates (e, s) op t) ∧
    ∀ e' s', EvaluatorProcessor.Step x final.gates (e, s) op (e', s') →
      Together x final (revealed ++ op.opens) g' e' s' V' C'

section Step

variable {final g g' : GarblerProcessor σ} {revealed : List Nat} {e : EvaluatorProcessor σ}
  {s : InputServer σ} {V V' : Memory Bool} {C C' : Nat → Clear}

/-- The evaluator finds the gates of an instruction in the buffer. -/
theorem Together.gates (valid : x.Valid) {i : Instruction} (meets : (Operation.gates i).Meets x)
    (together : Together x final revealed g e s V C)
    (plain : plainOperation (V, C) (.gates i) = some (V', C')) (garbled : g.Step x (.gates i) g')
    (later : Appends g' final) : Follows x final revealed e s (.gates i) g' V' C' := by
  obtain ⟨core, draws, garbled, rfl⟩ := garbled
  obtain ⟨W, plainly, same⟩ := Option.map_eq_some_iff.mp plain
  cases same
  obtain ⟨⟨evaluated, ran⟩, all⟩ := step_aligned (e := e.toYaoEvaluator) final.gates
    (signal_of_odd valid.odd) valid.paired meets.1 meets.2 together.aligned together.progress
    plainly garbled fun slot _ before => later.gates slot before
  refine ⟨⟨_, evaluated, ran, rfl⟩, fun e' s' step => ?_⟩
  obtain ⟨evaluated, ran, same⟩ := step
  cases same
  obtain ⟨aligned, progress⟩ := all evaluated ran
  exact { together with
    aligned, progress, garbler := by simpa [Operation.opens] using together.garbler }

/-- Both parties read the same clear registers. -/
theorem Together.registers {i : RegisterInstruction}
    (together : Together x final revealed g e s V C)
    (known : ∀ r ∈ (Operation.registers i).reads, r ∉ revealed)
    (plain : plainOperation (V, C) (.registers i) = some (V', C'))
    (garbled : g.Step x (.registers i) g') :
    Follows x final revealed e s (.registers i) g' V' C' := by
  obtain ⟨S, garbled, rfl⟩ := garbled
  obtain ⟨W, plainly, same⟩ := Option.map_eq_some_iff.mp plain
  cases same
  obtain ⟨G, E, garbled', ran, aligned⟩ := i.run_aligned together.aligned
    (fun r read => together.garbler r (known r read)) (Outcome.toOption_eq_some.mp plainly)
  obtain rfl : S = G := Except.ok.inj (garbled.symm.trans garbled')
  rw [← together.evaluator] at ran
  refine ⟨⟨_, E, ran, rfl⟩, fun e' s' step => ?_⟩
  obtain ⟨E', ran', same⟩ := step
  cases same
  obtain rfl : E = E' := Except.ok.inj (ran.symm.trans ran')
  exact { together with aligned, garbler := by simpa [Operation.opens] using together.garbler }

/-- The garbler serves the call that it has queued first. -/
theorem Together.input (valid : x.Valid) {call : InputCall}
    (meets : (Operation.input call).Meets x) (together : Together x final revealed g e s V C)
    (plain : plainOperation (V, C) (.input call) = some (V', C'))
    (garbled : g.Step x (.input call) g') (later : Appends g' final) :
    Follows x final revealed e s (.input call) g' V' C' := by
  obtain ⟨valid', S, prng, keys, garbled, rfl⟩ := garbled
  obtain ⟨-, same⟩ := Option.ite_none_left_eq_some.mp plain
  cases same
  obtain ⟨queue, queued⟩ := later.keys
  obtain ⟨otExt, sent⟩ := s
  -- the call that the garbler has just queued is the first one it serves
  obtain rfl : sent = keys :: queue := by
    have both := together.keys.trans queued.symm
    rw [List.append_assoc] at both
    exact List.append_cancel_left both
  obtain ⟨otExt', sender', ran, baseOts, base⟩ := inputCall_evaluated x.prng valid.transposes
    valid.odd garbled together.baseOts together.base e.S queue
  refine ⟨⟨_, valid', _, _, _, ran, rfl⟩, fun e' s' step => ?_⟩
  obtain ⟨-, E, received, served, ran', same⟩ := step
  cases same
  cases ran.symm.trans ran'
  exact { together with
    aligned := evaluated_aligned x.prng together.aligned meets.1 garbled
    garbler := by simpa [Operation.opens] using together.garbler
    keys := queued
    base
    baseOts }

/-- The masks of an opening come first in what the evaluator has received. -/
theorem Together.front (together : Together x final revealed g e s V C) {masks : List Bool}
    (later : g.output.outputMasks ++ masks <+: final.output.outputMasks) :
    ∃ rest, e.output = ⟨masks ++ rest, e.output.tainted⟩ ∧
      g.output.outputMasks ++ masks ++ rest = final.output.outputMasks := by
  obtain ⟨rest, masked⟩ := later
  have both := together.masks.trans masked.symm
  rw [List.append_assoc] at both
  exact ⟨rest, congrArg (OutputState.mk · _) (List.append_cancel_left both), masked⟩

/-- Both parties open the same wires; the garbler does not know the bits yet. -/
theorem Together.reveal (valid : x.Valid) {args : List RevealTriple}
    (together : Together x final revealed g e s V C) (runnable : Runnable g)
    (plain : plainOperation (V, C) (.reveal args) = some (V', C'))
    (garbled : g.Step x (.reveal args) g') (later : Appends g' final) :
    Follows x final revealed e s (.reveal args) g' V' C' := by
  obtain ⟨cleaning, CG, output, garbled, rfl⟩ := garbled
  obtain ⟨enough, same⟩ := Option.ite_none_right_eq_some.mp plain
  cases same
  cases garbled.symm.trans (YaoGarbleWire.revealInst_eq together.aligned enough g.C runnable)
  obtain ⟨rest, output, masked⟩ := together.front later.masks
  obtain ⟨message, tainted', ran⟩ := YaoEvalWire.revealInst_masks valid.odd together.aligned
    enough e.C rest e.output.tainted
  rw [← output] at ran
  refine ⟨⟨_, _, _, _, ran, rfl⟩, fun e' s' step => ?_⟩
  obtain ⟨message', CE, output', ran', same⟩ := step
  cases same
  cases ran.symm.trans ran'
  refine { together with garbler := fun r hidden => ?_, evaluator := ?_, masks := masked }
  · obtain ⟨before, absent⟩ := not_or.mp fun found => hidden (List.mem_append.mpr found)
    rw [Operation.opens, clearRegisters_eq] at absent
    dsimp only
    rw [written_of_notMem absent, written_of_notMem absent]
    exact together.garbler r before
  · rw [together.evaluator]

/-- One operation on both sides. -/
theorem Together.step (valid : x.Valid) {op : Operation} (meets : op.Meets x)
    (together : Together x final revealed g e s V C) (known : ∀ r ∈ op.reads, r ∉ revealed)
    (runnable : Runnable g) (plain : plainOperation (V, C) op = some (V', C'))
    (garbled : g.Step x op g') (later : Appends g' final) :
    Follows x final revealed e s op g' V' C' := by
  cases op with
  | gates i => exact together.gates valid meets plain garbled later
  | registers i => exact together.registers known plain garbled
  | input call => exact together.input valid meets plain garbled later
  | reveal args => exact together.reveal valid runnable plain garbled later

end Step

/-- The garbler's share of what a step on both sides keeps. -/
theorem Shaped.after (valid : x.Valid) {op : Operation} (meets : op.Meets x)
    {g g' : GarblerProcessor σ} {revealed : List Nat} {V V' : Memory Bool} {C C' : Nat → Clear}
    (shaped : Shaped x revealed g V C) (known : ∀ r ∈ op.reads, r ∉ revealed)
    (runnable : Runnable g) (plain : plainOperation (V, C) op = some (V', C'))
    (garbled : g.Step x op g') : Shaped x (revealed ++ op.opens) g' V' C' := by
  have adds := GarblerProcessor.step_appends valid meets garbled
  obtain ⟨E, aligned⟩ := shaped.aligned
  obtain ⟨masks, masked⟩ := adds.masks
  obtain ⟨keys, queued⟩ := adds.keys
  -- any evaluator that holds the active keys will do
  have together : Together x g' revealed g
      { S := E
        progress := g.progress
        C
        output := ⟨masks, true⟩
        otExt := ⟨⟨[], fun _ => g.prng⟩, ⟨[], fun _ => g.prng⟩, g.prng⟩
        message := [] }
      ⟨⟨x.delta.r, ⟨[], fun _ => g.prng⟩, g.prng⟩, keys⟩ V C :=
    { aligned
      progress := rfl
      garbler := shaped.clear
      evaluator := rfl
      masks := masked
      keys := queued
      base := rfl
      baseOts := fun _ => (ite_self _).symm }
  obtain ⟨⟨⟨e', s'⟩, step⟩, all⟩ := together.step valid meets known runnable plain garbled (.refl g')
  exact (all e' s' step).shaped

/-! ## Segments -/

/-- The clear registers that a run of operations opens. -/
def openedBy (ops : List Operation) : List Nat := ops.flatMap Operation.opens

/-- Only the last operation of a segment opens wires to both parties. -/
def Shape (ops : List Operation) : Prop := ∀ op ∈ ops.dropLast, op.isReveal = false

/-- The rest of a segment opens at its end only, too. -/
theorem Shape.tail {op : Operation} {ops : List Operation} (shape : Shape (op :: ops)) :
    Shape ops := by
  intro other member
  cases ops with
  | nil => cases member
  | cons next ops =>
    refine shape other ?_
    rw [List.dropLast_cons_of_ne_nil (List.cons_ne_nil next ops)]
    exact List.mem_cons_of_mem op member

/-- The garbler can go on after an operation that is not the last one. -/
theorem Shape.runnable {op : Operation} {ops : List Operation} (shape : Shape (op :: ops))
    {g g' : GarblerProcessor σ} (runnable : Runnable g) (step : g.Step x op g') (more : ops ≠ []) :
    Runnable g' := by
  refine runnable.after step (shape op ?_)
  rw [List.dropLast_cons_of_ne_nil more]
  exact List.mem_cons_self

/-- The garbler can run a segment that has a plain result. -/
theorem GarblerProcessor.runs (valid : x.Valid) {ops : List Operation}
    (meets : ∀ op ∈ ops, op.Meets x) (shape : Shape ops) {revealed : List Nat}
    (known : Known revealed ops) {g : GarblerProcessor σ} {V V' : Memory Bool} {C C' : Nat → Clear}
    (shaped : Shaped x revealed g V C) (runnable : ops ≠ [] → Runnable g)
    (plain : plainProgram (V, C) ops = some (V', C')) : ∃ g', Execution (Step x) g ops g' := by
  induction ops generalizing revealed g V C with
  | nil => exact ⟨g, .nil g⟩
  | cons op rest ih =>
    rw [plainProgram, List.foldlM_cons] at plain
    obtain ⟨⟨W, D⟩, first, later⟩ := Option.bind_eq_some_iff.mp plain
    have ready := runnable (List.cons_ne_nil op rest)
    have here := meets op List.mem_cons_self
    obtain ⟨mid, step⟩ := GarblerProcessor.steps valid here shaped known.1 ready first
    obtain ⟨final, run⟩ := ih (fun other member => meets other (List.mem_cons_of_mem op member))
      shape.tail known.2 (shaped.after valid here known.1 ready first step)
      (shape.runnable ready step) later
    exact ⟨final, .cons step run⟩

/-- The evaluator on what the garbler sends for a segment. -/
theorem Together.run (valid : x.Valid) {ops : List Operation} (meets : ∀ op ∈ ops, op.Meets x)
    (shape : Shape ops) {revealed : List Nat} (known : Known revealed ops)
    {g final : GarblerProcessor σ} {e : EvaluatorProcessor σ} {s : InputServer σ}
    {V V' : Memory Bool} {C C' : Nat → Clear} (together : Together x final revealed g e s V C)
    (runnable : ops ≠ [] → Runnable g) (plain : plainProgram (V, C) ops = some (V', C'))
    (garbled : Execution (GarblerProcessor.Step x) g ops final) :
    (∃ t, Execution (EvaluatorProcessor.Step x final.gates) (e, s) ops t) ∧
      ∀ e' s', Execution (EvaluatorProcessor.Step x final.gates) (e, s) ops (e', s') →
        Together x final (revealed ++ openedBy ops) final e' s' V' C' := by
  induction ops generalizing revealed g e s V C with
  | nil =>
    cases garbled
    cases plain
    refine ⟨⟨_, .nil _⟩, fun e' s' run => ?_⟩
    cases run
    rw [openedBy, List.flatMap_nil, List.append_nil]
    exact together
  | cons op rest ih =>
    rw [plainProgram, List.foldlM_cons] at plain
    obtain ⟨⟨W, D⟩, first, later⟩ := Option.bind_eq_some_iff.mp plain
    have ready := runnable (List.cons_ne_nil op rest)
    have here := meets op List.mem_cons_self
    have others := fun other member => meets other (List.mem_cons_of_mem op member)
    cases garbled with
    | @cons _ mid _ _ _ step garbled =>
      obtain ⟨⟨⟨eMid, sMid⟩, evaluated⟩, every⟩ := together.step valid here known.1 ready first step
        (GarblerProcessor.run_appends valid others garbled)
      have continued := fun {eMid : EvaluatorProcessor σ} {sMid : InputServer σ} reached =>
        ih others shape.tail known.2 (every eMid sMid reached) (shape.runnable ready step) later
          garbled
      constructor
      · obtain ⟨⟨t, finished⟩, -⟩ := continued evaluated
        exact ⟨t, .cons evaluated finished⟩
      · intro e' s' run
        cases run with
        | @cons _ t _ _ _ reached finished =>
          obtain ⟨eMid, sMid⟩ := t
          have ends := (continued reached).2 e' s' finished
          rwa [List.append_assoc] at ends

/-- Both parties at the beginning of a segment. -/
structure Start (x : Setting σ) (p : Parties σ) (V : Memory Bool) (C : Nat → Clear) : Prop where
  aligned : Aligned x.delta p.garbler.S p.evaluator.S V
  progress : p.garbler.progress = p.evaluator.progress
  garbler : p.garbler.C = C
  evaluator : p.evaluator.C = C
  masks : p.garbler.output.outputMasks = []
  keys : p.garbler.receiverInputKeys = []
  base : p.otExt.baseReceiverInput = x.delta.r
  baseOts : BaseOtsAgree p.otExt p.evaluator.otExt
  runnable : Runnable p.garbler

/-- Both parties at the end of a segment. All masks have been consumed and all inputs
served. -/
structure Ends (x : Setting σ) (revealed : List Nat) (p : Parties σ) (V : Memory Bool)
    (C : Nat → Clear) : Prop where
  aligned : Aligned x.delta p.garbler.S p.evaluator.S V
  progress : p.garbler.progress = p.evaluator.progress
  garbler : ∀ r, r ∉ revealed → p.garbler.C r = C r
  evaluator : p.evaluator.C = C
  masks : p.evaluator.output.outputMasks = []
  keys : p.garbler.receiverInputKeys = []
  base : p.otExt.baseReceiverInput = x.delta.r
  baseOts : BaseOtsAgree p.otExt p.evaluator.otExt

/-- One segment. -/
theorem Start.segment (valid : x.Valid) {ops : List Operation} (meets : ∀ op ∈ ops, op.Meets x)
    (shape : Shape ops) (known : Known [] ops) {p : Parties σ} {V V' : Memory Bool}
    {C C' : Nat → Clear} (start : Start x p V C)
    (plain : plainProgram (V, C) ops = some (V', C')) :
    (∃ p', RunsSegment x p ops p') ∧
      ∀ p', RunsSegment x p ops p' → Ends x (openedBy ops) p' V' C' := by
  have together : ∀ g, Together x g [] p.garbler (p.evaluator.receive g.output.outputMasks)
      ⟨p.otExt, g.receiverInputKeys⟩ V C := fun g =>
    { aligned := start.aligned
      progress := start.progress
      garbler := fun r _ => congrFun start.garbler r
      evaluator := start.evaluator
      masks := by rw [start.masks]; rfl
      keys := by rw [start.keys]; rfl
      base := start.base
      baseOts := start.baseOts }
  constructor
  · obtain ⟨g, garbled⟩ := GarblerProcessor.runs valid meets shape known
      (together p.garbler).shaped (fun _ => start.runnable) plain
    obtain ⟨⟨⟨e, s⟩, evaluated⟩, -⟩ := (together g).run valid meets shape known
      (fun _ => start.runnable) plain garbled
    exact ⟨_, g, e, s, garbled, evaluated, rfl⟩
  · rintro p' ⟨g, e, s, garbled, evaluated, rfl⟩
    have ends := ((together g).run valid meets shape known (fun _ => start.runnable) plain
      garbled).2 e s evaluated
    exact
      { aligned := ends.aligned
        progress := ends.progress
        garbler := ends.garbler
        evaluator := ends.evaluator
        masks := List.append_right_eq_self.mp ends.masks
        keys := List.append_right_eq_self.mp ends.keys
        base := ends.base
        baseOts := ends.baseOts }

/-! ## From break to break -/

/-- Operations without an opening leave the flag alone. -/
theorem Runnable.afterAll {ops : List Operation} (silent : ∀ op ∈ ops, op.isReveal = false)
    {g g' : GarblerProcessor σ} (runnable : Runnable g)
    (run : Execution (GarblerProcessor.Step x) g ops g') : Runnable g' := by
  induction run with
  | nil g => exact runnable
  | cons first later ih =>
    exact ih (fun op member => silent op (List.mem_cons_of_mem _ member))
      (runnable.after first (silent _ List.mem_cons_self))

/-- What a segment that ends with an opening leaves for the garbler to go on. -/
theorem RunsSegment.last {p mid : Parties σ} {front : List Operation}
    (silent : ∀ op ∈ front, op.isReveal = false) {args : List RevealTriple}
    (runnable : Runnable p.garbler) (segment : RunsSegment x p (front ++ [.reveal args]) mid) :
    mid.garbler.output.tainted = false ∧ mid.evaluator.message =
      (clearRegisters args).flatMap fun r => le64 (UInt64.ofBitVec (mid.evaluator.C r)) := by
  obtain ⟨g, e, s, garbled, evaluated, rfl⟩ := segment
  obtain ⟨before, earlier, garbled⟩ := garbled.append_inv
  obtain ⟨⟨eBefore, sBefore⟩, -, evaluated⟩ := evaluated.append_inv
  constructor
  · cases garbled with
    | cons first later =>
      cases later
      obtain ⟨cleaning, C, output, ran, rfl⟩ := first
      exact YaoGarbleWire.revealInst_untaints ran (runnable.afterAll silent earlier)
  · cases evaluated with
    | cons first later =>
      cases later
      obtain ⟨message, C, output, ran, same⟩ := first
      cases same
      rw [YaoEvalWire.revealInst] at ran
      obtain ⟨⟨D, t⟩, -, sent⟩ := Outcome.bind_eq_ok.mp ran
      cases sent
      rfl

/-- Operations without an opening hide nothing from the garbler. -/
theorem Known.of_silent {ops : List Operation} (silent : ∀ op ∈ ops, op.isReveal = false)
    {back : List Operation} (known : Known [] back) : Known [] (ops ++ back) := by
  induction ops with
  | nil => exact known
  | cons op rest ih =>
    have later := ih fun other member => silent other (List.mem_cons_of_mem op member)
    refine ⟨fun r _ => List.not_mem_nil, ?_⟩
    cases op with
    | reveal args => cases silent _ List.mem_cons_self
    | gates i => exact later
    | registers i => exact later
    | input call => exact later

/-- Without an opening nothing is opened. -/
theorem openedBy_of_silent {ops : List Operation} (silent : ∀ op ∈ ops, op.isReveal = false) :
    openedBy ops = [] := by
  refine List.flatMap_eq_nil_iff.mpr fun op member => ?_
  cases op with
  | reveal args => cases silent _ member
  | gates i => rfl
  | registers i => rfl
  | input call => rfl

/-- An opening may end a segment that opens nothing else. -/
theorem Shape.of_silent {front : List Operation} (silent : ∀ op ∈ front, op.isReveal = false)
    (args : List RevealTriple) : Shape (front ++ [.reveal args]) := by
  intro op member
  rw [List.dropLast_concat] at member
  exact silent op member

/-- A segment without an opening. -/
theorem Start.silent (valid : x.Valid) {ops : List Operation}
    (silent : ∀ op ∈ ops, op.isReveal = false) (meets : ∀ op ∈ ops, op.Meets x) {p : Parties σ}
    {V V' : Memory Bool} {C C' : Nat → Clear} (start : Start x p V C)
    (plain : plainProgram (V, C) ops = some (V', C')) :
    (∃ p', RunsSegment x p ops p') ∧ ∀ p', RunsSegment x p ops p' → Ends x [] p' V' C' := by
  have known : Known [] (ops ++ []) := .of_silent silent trivial
  rw [List.append_nil] at known
  have both := start.segment valid meets (fun op member => silent op (List.mem_of_mem_dropLast member))
    known plain
  rwa [openedBy_of_silent silent] at both

/-- A segment that ends because the batch is full: both parties start again as they are. -/
theorem Start.full (valid : x.Valid) {ops : List Operation}
    (silent : ∀ op ∈ ops, op.isReveal = false) (meets : ∀ op ∈ ops, op.Meets x) {p : Parties σ}
    {V V' : Memory Bool} {C C' : Nat → Clear} (start : Start x p V C)
    (plain : plainProgram (V, C) ops = some (V', C')) :
    (∃ mid, RunsSegment x p ops mid) ∧
      ∀ mid, RunsSegment x p ops mid → Start x mid.cleared V' C' := by
  obtain ⟨runs, ends⟩ := start.silent valid silent meets plain
  refine ⟨runs, fun mid segment => ?_⟩
  have ends := ends mid segment
  obtain ⟨g, e, s, garbled, -, rfl⟩ := segment
  have ready : Runnable g := start.runnable.afterAll silent garbled
  exact
    { aligned := ends.aligned
      progress := congrArg (fun progress => { progress with position := 0 }) ends.progress
      garbler := funext fun r => ends.garbler r List.not_mem_nil
      evaluator := ends.evaluator
      masks := rfl
      keys := ends.keys
      base := ends.base
      baseOts := ends.baseOts
      runnable := ready }

/-- A segment that ends with an opening: the garbler goes on with what it receives. -/
theorem Start.turn (valid : x.Valid) {front : List Operation}
    (silent : ∀ op ∈ front, op.isReveal = false) {args : List RevealTriple}
    (meets : ∀ op ∈ front ++ [.reveal args], op.Meets x) {p : Parties σ} {V V' : Memory Bool}
    {C C' : Nat → Clear} (start : Start x p V C)
    (plain : plainProgram (V, C) (front ++ [.reveal args]) = some (V', C')) :
    (∃ mid, RunsSegment x p (front ++ [.reveal args]) mid) ∧
      ∀ mid, RunsSegment x p (front ++ [.reveal args]) mid → ∃ D output,
        YaoGarbleWire.revealInst true mid.garbler.S args mid.evaluator.message mid.garbler.C
          { mid.garbler.output with outputMasks := [] } = .ok (false, D, output) ∧
        Start x (mid.resume D output) V' C' := by
  have known : Known [] (front ++ [.reveal args]) := .of_silent silent ⟨nofun, trivial⟩
  obtain ⟨runs, ends⟩ := start.segment valid meets (.of_silent silent args) known plain
  refine ⟨runs, fun mid segment => ?_⟩
  have ends := ends mid segment
  obtain ⟨untainted, message⟩ := segment.last silent start.runnable
  have output : { mid.garbler.output with outputMasks := [] } = (⟨[], false⟩ : OutputState) :=
    congrArg (OutputState.mk []) untainted
  rw [message, output, YaoGarbleWire.revealInst_received]
  refine ⟨_, _, rfl, ?_⟩
  exact
    { aligned := ends.aligned
      progress := congrArg (fun progress => { progress with position := 0 }) ends.progress
      garbler := by
        funext r
        have revealed : openedBy (front ++ [.reveal args]) = clearRegisters args := by
          rw [openedBy, List.flatMap_append, ← openedBy, openedBy_of_silent silent]
          simp [Operation.opens]
        have same := congrFun ends.evaluator r
        refine (foldl_update_of_mem _ ?_).trans same
        -- what was not opened the garbler knew before
        by_cases opened : r ∈ clearRegisters args
        · exact .inl opened
        · exact .inr ((ends.garbler r (revealed ▸ opened)).trans same.symm)
      evaluator := ends.evaluator
      masks := rfl
      keys := ends.keys
      base := ends.base
      baseOts := ends.baseOts
      runnable := rfl }

/-- Nothing breaks off an empty segment. -/
theorem Unbroken.nil (batchSize : Nat) : Unbroken batchSize [] :=
  ⟨fun _ member => absurd member List.not_mem_nil, .inl rfl⟩

/-- `Program::execute` gets to the end of a program, to an operation that fills the batch,
or to an opening. -/
theorem exists_break (batchSize : Nat) (ops : List Operation) {front : List Operation}
    (unbroken : Unbroken batchSize front) : Unbroken batchSize (front ++ ops) ∨
      ∃ mid op rest, front ++ ops = mid ++ op :: rest ∧ Unbroken batchSize mid ∧
        ((∃ args, op = .reveal args) ∨
          op.isReveal = false ∧ batchSize ≤ complexityOf (mid ++ [op])) := by
  induction ops generalizing front with
  | nil =>
    rw [List.append_nil]
    exact .inl unbroken
  | cons op ops ih =>
    cases here : op.isReveal with
    | true =>
      refine .inr ⟨front, op, ops, rfl, unbroken, .inl ?_⟩
      cases op with
      | reveal args => exact ⟨args, rfl⟩
      | gates i => cases here
      | registers i => cases here
      | input call => cases here
    | false =>
      by_cases room : complexityOf (front ++ [op]) < batchSize
      · have further : Unbroken batchSize (front ++ [op]) :=
          ⟨List.forall_mem_append.mpr ⟨unbroken.silent, List.forall_mem_singleton.mpr here⟩,
            .inr room⟩
        have later := ih further
        rwa [List.append_assoc, List.singleton_append] at later
      · exact .inr ⟨front, op, ops, rfl, unbroken, .inr ⟨here, not_lt.mp room⟩⟩

/-- The plain run of a program up to its first break, and from there. -/
theorem plainProgram_break {front rest : List Operation} {op : Operation}
    {state final : Memory Bool × (Nat → Clear)}
    (plain : plainProgram state (front ++ op :: rest) = some final) :
    ∃ mid, plainProgram state (front ++ [op]) = some mid ∧ plainProgram mid rest = some final := by
  have cut : front ++ op :: rest = (front ++ [op]) ++ rest := by simp
  rw [plainProgram, cut, List.foldlM_append] at plain
  exact Option.bind_eq_some_iff.mp plain

/-- What all operations meet, those before and after a break do. -/
theorem meets_break {front rest : List Operation} {op : Operation}
    (meets : ∀ other ∈ front ++ op :: rest, other.Meets x) :
    (∀ other ∈ front ++ [op], other.Meets x) ∧ ∀ other ∈ rest, other.Meets x := by
  have cut : front ++ op :: rest = (front ++ [op]) ++ rest := by simp
  rw [cut] at meets
  exact List.forall_mem_append.mp meets

/-- A program that has a plain result can be run. -/
theorem Start.runs (valid : x.Valid) {ops : List Operation} (meets : ∀ op ∈ ops, op.Meets x)
    {p : Parties σ} {V V' : Memory Bool} {C C' : Nat → Clear} (start : Start x p V C)
    (plain : plainProgram (V, C) ops = some (V', C')) : ∃ p', RunsProgram x p ops p' := by
  induction size : ops.length using Nat.strong_induction_on generalizing ops p V C with
  | _ n ih =>
    rcases exists_break x.batchSize ops (.nil _) with unbroken | ⟨front, op, rest, rfl, unbroken,
      here⟩
    · obtain ⟨⟨p', segment⟩, -⟩ := start.silent valid unbroken.silent meets plain
      exact ⟨p', .last unbroken segment⟩
    · obtain ⟨⟨W, D⟩, plainFirst, plainRest⟩ := plainProgram_break plain
      obtain ⟨meetsFirst, others⟩ := meets_break meets
      have shorter : rest.length < n := by
        rw [← size]
        simp
        omega
      rcases here with ⟨args, rfl⟩ | ⟨silent, full⟩
      · obtain ⟨⟨mid, segment⟩, all⟩ := start.turn valid unbroken.silent meetsFirst plainFirst
        obtain ⟨CG, output, received, resumed⟩ := all mid segment
        obtain ⟨p', later⟩ := ih rest.length shorter others resumed plainRest rfl
        exact ⟨p', .reveal unbroken segment received later⟩
      · obtain ⟨⟨mid, segment⟩, all⟩ := start.full valid (List.forall_mem_append.mpr
          ⟨unbroken.silent, List.forall_mem_singleton.mpr silent⟩) meetsFirst plainFirst
        obtain ⟨p', later⟩ := ih rest.length shorter others (all mid segment) plainRest rfl
        exact ⟨p', .full unbroken silent full segment later⟩

/-- Every run of a program ends with its plain result. -/
theorem RunsProgram.ends (valid : x.Valid) {ops : List Operation} {p p' : Parties σ}
    (run : RunsProgram x p ops p') (meets : ∀ op ∈ ops, op.Meets x) {V V' : Memory Bool}
    {C C' : Nat → Clear} (start : Start x p V C)
    (plain : plainProgram (V, C) ops = some (V', C')) :
    Aligned x.delta p'.garbler.S p'.evaluator.S V' ∧ p'.evaluator.C = C' ∧ p'.garbler.C = C' := by
  induction run generalizing V C with
  | last unbroken segment =>
    have ends := (start.silent valid unbroken.silent meets plain).2 _ segment
    exact ⟨ends.aligned, ends.evaluator, funext fun r => ends.garbler r List.not_mem_nil⟩
  | full unbroken silent full segment later ih =>
    obtain ⟨⟨W, D⟩, plainFirst, plainRest⟩ := plainProgram_break plain
    obtain ⟨meetsFirst, others⟩ := meets_break meets
    exact ih others ((start.full valid (List.forall_mem_append.mpr
      ⟨unbroken.silent, List.forall_mem_singleton.mpr silent⟩) meetsFirst plainFirst).2 _ segment)
      plainRest
  | reveal unbroken segment received later ih =>
    obtain ⟨⟨W, D⟩, plainFirst, plainRest⟩ := plainProgram_break plain
    obtain ⟨meetsFirst, others⟩ := meets_break meets
    obtain ⟨CG, output, received', resumed⟩ :=
      (start.turn valid unbroken.silent meetsFirst plainFirst).2 _ segment
    cases received.symm.trans received'
    exact ih others resumed plainRest

end Both

end SimpleOprf.Yao
