import SimpleOprf.Basis.Duplex
import SimpleOprf.Yao.Instructions

/-!
# The threads of the two parties

`GC::Thread::run` with the loops of `YaoGarbler` and `YaoEvaluator` around
`Program::execute`. A thread goes through the tapes that it is scheduled and
exchanges messages with the thread of the same number of the other party.

Gates and output masks are named rather than computed: a gate by its id, a mask by
its wire. The three sends of `YaoGarbler::send` and the three receives of
`YaoEvaluator::receive` are one message.
-/

namespace SimpleOprf.Yao

open SimpleOprf.Basis

/-! ## Tapes -/

/-- One argument of `inputb` or `inputbvec`. -/
structure InputArgs where
  sender : Nat
  nBits : Nat
deriving DecidableEq, Repr

/-- A register that `reveal` opens, with the wires that it holds. -/
structure RevealArgs where
  register : Nat
  wires : Nat
deriving DecidableEq, Repr

/-- An instruction of a tape, as far as segments go. -/
inductive TapeInstruction where
  | gate (i : Instruction)
  | inputb (args : List InputArgs)
  | reveal (args : List RevealArgs)
  | convcbit
  | runTapes
deriving Repr

/-- The AND gates of an instruction. -/
def Instruction.total : Instruction → Nat
  | .xors _ => 0
  | .nots _ _ _ => 0
  | .ands args => checkArgs args
  | .andrs args => checkArgs args

/-- The bits of an input instruction. -/
def nInputBits (args : List InputArgs) : Nat := (args.map InputArgs.nBits).sum

/-- The input bits of the evaluator, one oblivious transfer each. -/
def nKeys (args : List InputArgs) : Nat :=
  ((args.filter fun x => x.sender = 1).map InputArgs.nBits).sum

/-- The wires that an instruction opens. -/
def revealedWires (args : List RevealArgs) : List (Nat × Nat) :=
  args.flatMap fun x => (List.range x.wires).map fun i => (x.register, i)

/-- The ids of the next gates; the counter is incremented before each one. -/
def gateIds (counter : BitVec 64) (total : Nat) : List (BitVec 64) :=
  (List.range total).map fun k => counter + BitVec.ofNat 64 k + 1

/-- The numbers of two runs of gates. -/
theorem gateIds_add (counter : BitVec 64) (a b : Nat) :
    gateIds counter (a + b) = gateIds counter a ++ gateIds (counter + BitVec.ofNat 64 a) b := by
  simp only [gateIds, List.range_add, List.map_append, List.map_map]
  refine congrArg (_ ++ ·) (List.map_congr_left fun k _ => ?_)
  simp only [Function.comp_apply, BitVec.ofNat_add, BitVec.add_assoc]

theorem length_gateIds (counter : BitVec 64) (total : Nat) :
    (gateIds counter total).length = total := by
  simp [gateIds]

/-- The mode and the batch size. -/
structure RunOptions where
  continuous : Bool
  batchSize : Nat

/-- `RuntimeBranching::untaint`: the flag afterwards, and whether it throws
`needs_cleaning`. -/
def untaint (tainted : Bool) : Bool × Bool :=
  let wasTainted := tainted
  let tainted := false
  if wasTainted then (tainted, true) else (true, false)

/-! ## Messages -/

/-- The connection of the thread, and that of its oblivious transfers. -/
inductive Link where
  | P
  | player
deriving DecidableEq, Repr

/-- What the parties send each other between segments. -/
inductive Message where
  | more (gates : List (BitVec 64)) (outputMasks : List (Nat × Nat))
  | done
  | opened
  | init
  | matrix (nOTs : Nat)
  | keys (count : Nat)
deriving DecidableEq, Repr

/-! ## The garbler -/

/-- How `YaoGarbler` goes on after `process_receiver_inputs`. -/
inductive Resume where
  | again
  | init
  | stop
deriving DecidableEq, Repr

/-- Where the garbler is. -/
inductive GarblerControl where
  | schedule
  | enter
  | execute
  | check
  | opened
  | send (last : Bool)
  | inputs (resume : Resume)
  | keys (resume : Resume)
  | resume (resume : Resume)
  | finished
  | failed
deriving DecidableEq, Repr

/-- A thread of the garbler; `program` is what is left from the program counter on. -/
structure GarblerThread where
  control : GarblerControl
  tapes : List (List TapeInstruction)
  program : List TapeInstruction
  complexity : Nat
  tainted : Bool
  counter : BitVec 64
  gates : List (BitVec 64)
  outputMasks : List (Nat × Nat)
  receiverInputKeys : List Nat

namespace GarblerThread

/-- `Processor::reveal`: `get_output` taints and keeps the mask of every wire. -/
def reveal (g : GarblerThread) (args : List RevealArgs) : GarblerThread :=
  { g with
    tainted := g.tainted || !(revealedWires args).isEmpty
    outputMasks := g.outputMasks ++ revealedWires args }

/-- One instruction; `rest` is the program after it. -/
def perform (options : RunOptions) (g : GarblerThread) (rest : List TapeInstruction) :
    TapeInstruction → Action Link Message GarblerThread
  | .gate i => .internal { g with
      control := .check
      program := rest
      gates := g.gates ++ gateIds g.counter i.total
      counter := g.counter + BitVec.ofNat 64 i.total
      complexity := g.complexity + i.total }
  | .inputb args => .internal { g with
      control := .check
      program := rest
      receiverInputKeys := g.receiverInputKeys ++ [nKeys args]
      complexity := g.complexity + nInputBits args }
  | .reveal args =>
    if options.continuous then
      let g := if g.tainted then g.reveal args else g
      match untaint g.tainted with
      -- `needs_cleaning` is caught in `run`, which steps the program counter back
      | (tainted, true) => .internal { g with control := .send false, tainted }
      | (tainted, false) => .internal { g with control := .opened, program := rest, tainted }
    else
      .internal { g.reveal args with control := .check, program := rest }
  | .convcbit =>
    if options.continuous then
      .internal { g with control := .check, program := rest }
    else
      match untaint g.tainted with
      | (tainted, true) => .internal { g with control := .failed, tainted }
      | (tainted, false) => .internal { g with control := .opened, program := rest, tainted }
  | .runTapes =>
    if options.continuous then
      match untaint g.tainted with
      | (tainted, true) => .internal { g with control := .send false, tainted }
      | (tainted, false) => .internal { g with control := .check, program := rest, tainted }
    else
      .internal { g with control := .check, program := rest }

/-- The next action of the garbler. -/
def next (options : RunOptions) (g : GarblerThread) : Action Link Message GarblerThread :=
  match g.control with
  | .schedule =>
    match g.tapes with
    | tape :: tapes => .internal { g with control := .enter, tapes, program := tape }
    | [] =>
      -- `post_run`
      if options.continuous then
        .internal { g with control := .finished }
      else
        .send .P .done { g with control := .inputs .stop }
  | .enter => .internal { g with control := .execute, complexity := 0 }
  | .execute =>
    match g.program with
    | [] => .internal { g with control := .send true }
    | i :: rest => g.perform options rest i
  | .check =>
    if g.complexity < options.batchSize then
      .internal { g with control := .execute }
    else
      .internal { g with control := .send false }
  | .opened => .receive .P fun _ => { g with control := .check, tainted := true }
  | .send last =>
    let resume := if last then .init else .again
    .send .P (.more g.gates g.outputMasks) { g with
      control := if options.continuous then .inputs resume else .resume resume
      gates := []
      outputMasks := [] }
  | .inputs resume =>
    match g.receiverInputKeys with
    | [] => .internal { g with control := .resume resume }
    | nOTs :: _ =>
      -- `extend_correlated` returns at once when there is nothing to extend
      if nOTs = 0 then
        .internal { g with control := .keys resume }
      else
        .receive .player fun _ => { g with control := .keys resume }
  | .keys resume =>
    match g.receiverInputKeys with
    | [] => .internal { g with control := .resume resume }
    | count :: inputs =>
      .send .player (.keys count) { g with control := .inputs resume, receiverInputKeys := inputs }
  | .resume .again => .internal { g with control := .enter }
  | .resume .init => .receive .P fun _ => { g with control := .schedule }
  | .resume .stop => .internal { g with control := .finished }
  | .finished => .finished
  | .failed => .failed

/-- A thread of the garbler with some tapes scheduled. -/
def start (tapes : List (List TapeInstruction)) : GarblerThread :=
  { control := .schedule
    tapes
    program := []
    complexity := 0
    tainted := true
    counter := 0
    gates := []
    outputMasks := []
    receiverInputKeys := [] }

end GarblerThread

/-! ## The evaluator -/

/-- Where the evaluator is. -/
inductive EvaluatorControl where
  | preRun
  | receiveToStore
  | schedule
  | receive
  | pop
  | execute
  | check
  | exchange
  | finished
  | failed
deriving DecidableEq, Repr

/-- The gates and masks that belong to one receive. -/
structure Segment where
  gates : List (BitVec 64)
  outputMasks : List (Nat × Nat)
deriving DecidableEq, Repr

/-- A thread of the evaluator. The gates and masks that it has consumed since each
receive are kept, the last receive first. -/
structure EvaluatorThread where
  control : EvaluatorControl
  tapes : List (List TapeInstruction)
  program : List TapeInstruction
  complexity : Nat
  tainted : Bool
  counter : BitVec 64
  gates : List (BitVec 64)
  outputMasks : List (Nat × Nat)
  store : List Segment
  consumed : List Segment

namespace EvaluatorThread

/-- Note that gates and masks are consumed. -/
def record (gates : List (BitVec 64)) (outputMasks : List (Nat × Nat)) :
    List Segment → List Segment
  | [] => []
  | now :: past => ⟨now.gates ++ gates, now.outputMasks ++ outputMasks⟩ :: past

/-- The buffers are those of a message. -/
def refill (e : EvaluatorThread) (segment : Segment) : EvaluatorThread :=
  { e with
    control := .execute
    complexity := 0
    gates := segment.gates
    outputMasks := segment.outputMasks
    consumed := ⟨[], []⟩ :: e.consumed }

/-- `catch (needs_cleaning&)` in `run`, and its loop. -/
def cleaning (options : RunOptions) : EvaluatorControl :=
  if options.continuous then .receive else .failed

/-- One instruction; `rest` is the program after it. -/
def perform (options : RunOptions) (e : EvaluatorThread) (rest : List TapeInstruction) :
    TapeInstruction → Action Link Message EvaluatorThread
  | .gate i =>
    -- `check_buffer`
    if e.gates.length < i.total then
      .internal { e with control := .failed }
    else
      .internal { e with
        control := .check
        program := rest
        gates := e.gates.drop i.total
        counter := e.counter + BitVec.ofNat 64 i.total
        complexity := e.complexity + i.total
        consumed := record (gateIds e.counter i.total) [] e.consumed }
  | .inputb args =>
    let e := { e with
      control := .exchange
      program := rest
      complexity := e.complexity + nInputBits args }
    if nKeys args = 0 then .internal e else .send .player (.matrix (nKeys args)) e
  | .reveal args =>
    if e.outputMasks.length < (revealedWires args).length then
      .internal { e with control := .failed }
    else
      let e := { e with
        control := .check
        program := rest
        tainted := e.tainted || !(revealedWires args).isEmpty
        outputMasks := e.outputMasks.drop (revealedWires args).length
        consumed := record [] (revealedWires args) e.consumed }
      if options.continuous then
        .send .P .opened { e with control := cleaning options }
      else
        .internal e
  | .convcbit =>
    if options.continuous then
      .internal { e with control := .check, program := rest }
    else
      .send .P .opened { e with control := cleaning options, program := rest }
  | .runTapes =>
    if options.continuous then
      match untaint e.tainted with
      | (tainted, true) => .internal { e with control := cleaning options, program := rest, tainted }
      | (tainted, false) => .internal { e with control := .check, program := rest, tainted }
    else
      .internal { e with control := .check, program := rest }

/-- The next action of the evaluator. -/
def next (options : RunOptions) (e : EvaluatorThread) : Action Link Message EvaluatorThread :=
  match e.control with
  | .preRun =>
    if options.continuous then
      .internal { e with control := .schedule }
    else
      .internal { e with control := .receiveToStore }
  | .receiveToStore => .receive .P fun
    | .more gates outputMasks => { e with store := e.store ++ [⟨gates, outputMasks⟩] }
    | .done => { e with control := .schedule }
    | _ => { e with control := .failed }
  | .schedule =>
    match e.tapes with
    | [] => .internal { e with control := .finished }
    | tape :: tapes =>
      .internal { e with
        control := if options.continuous then .receive else .pop
        tapes
        program := tape }
  | .receive => .receive .P fun
    | .more gates outputMasks => e.refill ⟨gates, outputMasks⟩
    -- the result of `receive` is ignored
    | .done => e.refill ⟨e.gates, e.outputMasks⟩
    | _ => { e with control := .failed }
  | .pop =>
    match e.store with
    | [] => .internal (e.refill ⟨e.gates, e.outputMasks⟩)
    | segment :: store => .internal { e.refill segment with store }
  | .execute =>
    match e.program with
    | [] =>
      if options.continuous then
        .send .P .init { e with control := .schedule }
      else
        .internal { e with control := .schedule }
    | i :: rest => e.perform options rest i
  | .check =>
    if e.complexity < options.batchSize then
      .internal { e with control := .execute }
    else
      .internal { e with control := if options.continuous then .receive else .pop }
  | .exchange => .receive .player fun _ => { e with control := .check }
  | .finished => .finished
  | .failed => .failed

/-- The evaluator before its first tape. -/
def start (tapes : List (List TapeInstruction)) : EvaluatorThread :=
  { control := .preRun
    tapes
    program := []
    complexity := 0
    tainted := true
    counter := 0
    gates := []
    outputMasks := []
    store := []
    consumed := [] }

end EvaluatorThread

/-! ## Both threads -/

/-- Both parties and what is on the way between them. -/
abbrev YaoNet := Net Link Message GarblerThread EvaluatorThread

/-- Both threads with the same tapes scheduled, and nothing in flight. -/
def startNet (tapes : List (List TapeInstruction)) : YaoNet :=
  ⟨.start tapes, .start tapes, fun _ => ⟨[], 0⟩, fun _ => ⟨[], 0⟩⟩

/-- What both threads can reach from the start. -/
def Reachable (options : RunOptions) (tapes : List (List TapeInstruction)) : YaoNet → Prop :=
  Net.Reaches (GarblerThread.next options) (EvaluatorThread.next options) (startNet tapes)

end SimpleOprf.Yao
