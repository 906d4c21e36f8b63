import Mathlib.Data.List.GetD
import Mathlib.Logic.Function.Basic
import SimpleOprf.Basis.Interleaving
import SimpleOprf.Yao.Common

/-!
# Vector instructions on both sides

`xors`, `nots`, `ands` and `andrs` as the garbler and the evaluator run them. A
tuple is processed in units of at most 64 wires, one register each. Every code
path hands lists of units to some threads, whose steps interleave freely.

`CheckVector::at` does not check its index; a wire past the end of a register
reads as the default.
-/

namespace SimpleOprf.Yao

open SimpleOprf.Basis

/-- `GC::Secret::default_length`. -/
def defaultLength : Nat := 64

/-- `DIV_CEIL`. -/
def divCeil (a b : Nat) : Nat := (a + b - 1) / b

/-- The instructions on wires. -/
inductive Instruction where
  | xors (args : List Tuple)
  | nots (r0 r1 n : Nat)
  | ands (args : List Tuple)
  | andrs (args : List Tuple)
deriving Repr

/-- Registers with their wires. -/
abbrev Memory (α : Type) := Nat → List α

/-- One pass of the loop over the registers of a tuple. -/
structure Pass where
  out : Nat
  left : Nat
  right : Nat
  count : Nat
deriving DecidableEq, Repr

/-- The passes over a tuple, `rightStep` being what is added to the right register. -/
def passes (rightStep : Nat → Nat) (t : Tuple) : List Pass :=
  (List.range (divCeil t.size defaultLength)).map fun j =>
    { out := t.out + j
      left := t.left + j
      right := t.right + rightStep j
      count := min defaultLength (t.size - j * defaultLength) }

/-- Replace a register by what is computed from two. -/
def Memory.apply {α : Type} (S : Memory α) (pass : Pass) (wires : List α → List α → List α) :
    Memory α :=
  Function.update S pass.out (wires (S pass.left) (S pass.right))

/-! ## Free operations -/

namespace Processor

/-- `Secret::xor_` on `n` wires. -/
def xorWires {α : Type} [Inhabited α] (xor : α → α → α) (n : Nat) (x y : List α) : List α :=
  (List.range n).map fun i => xor (x.getD i default) (y.getD i default)

/-- `Secret::invert` on `n` wires, with the wire of the public input one. -/
def invertWires {α : Type} [Inhabited α] (xor : α → α → α) (one : α) (n : Nat) (x : List α) :
    List α :=
  (List.range n).map fun i => xor (x.getD i default) one

/-- One pass of XOR over a pair of registers. -/
def xorPass {α : Type} [Inhabited α] (xor : α → α → α) (S : Memory α) (pass : Pass) : Memory α :=
  S.apply pass (xorWires xor pass.count)

/-- `Processor::nots`. -/
def nots {α : Type} [Inhabited α] (xor : α → α → α) (one : α) (S : Memory α) (r0 r1 n : Nat) :
    Memory α :=
  (passes id ⟨n, r0, r1, r1⟩).foldl
    (fun S pass => S.apply pass fun x _ => invertWires xor one pass.count x) S

end Processor

/-- `YaoWire::xors`: the threads' passes. An empty range fails an assertion. -/
def xorJobs (workers : Nat) (args : List Tuple) : Option (List (List Tuple)) :=
  if args.length < 1024 then
    if args = [] then none else some [args]
  else
    let batch := args.length / (workers + 1)
    if batch = 0 then
      none
    else
      some ((List.range workers).map (fun i => (args.drop (i * batch)).take batch) ++
        [args.drop (workers * batch)])

/-- `YaoWire::xors` on a memory, in any order that the threads allow. -/
def XorsStep {α : Type} [Inhabited α] (xor : α → α → α) (workers : Nat) (args : List Tuple)
    (S S' : Memory α) : Prop :=
  ∃ jobs order, xorJobs workers args = some jobs ∧
    Interleaving (jobs.map fun job => job.flatMap (passes id)) order ∧
    S' = order.foldl (Processor.xorPass xor) S

/-! ## AND gates -/

/-- One pass with the buffer position of its first gate and the counter before it. -/
structure AndPass extends Pass where
  repeats : Bool
  slot : Nat
  counter : BitVec 64
deriving DecidableEq, Repr

/-- The wire of the right register that gate `k` of a pass reads. -/
def AndPass.rightWire (pass : AndPass) (k : Nat) : Nat := if pass.repeats then 0 else k

/-- The id of gate `k`; the counter is incremented first. -/
def AndPass.id (pass : AndPass) (k : Nat) : BitVec 64 :=
  pass.counter + BitVec.ofNat 64 k + 1

/-- A gate with its position in the buffer, its id and its wires. -/
structure GateUse where
  slot : Nat
  id : BitVec 64
  out : Nat × Nat
  left : Nat × Nat
  right : Nat × Nat
deriving DecidableEq, Repr

/-- The gates of a pass, with the wires that they read and write. -/
def AndPass.gates (pass : AndPass) : List GateUse :=
  (List.range pass.count).map fun k =>
    ⟨pass.slot + k, pass.id k, (pass.out, k), (pass.left, k), (pass.right, pass.rightWire k)⟩

/-- Passes one after the other, with a gate and an id for every wire. -/
def issue (repeats : Bool) : List Pass → Nat → BitVec 64 → List AndPass
  | [], _, _ => []
  | pass :: rest, slot, counter =>
    { pass with repeats, slot, counter } ::
      issue repeats rest (slot + pass.count) (counter + BitVec.ofNat 64 pass.count)

/-- Where a party stands in the gates buffer, and its gate counter. -/
structure Progress where
  position : Nat
  counter : BitVec 64
deriving DecidableEq, Repr

/-- The progress after `total` gates. -/
def Progress.advance (progress : Progress) (total : Nat) : Progress :=
  ⟨progress.position + total, progress.counter + BitVec.ofNat 64 total⟩

/-- Hand slices of the arguments to consecutive jobs. -/
def dispatch (cfg : ThreadConfig) (repeats : Bool) (passesOf : Tuple → List Pass) :
    List (Nat × List Tuple) → Progress → List (List AndPass)
  | [], _ => []
  | (gates, slice) :: rest, progress =>
    issue repeats (slice.flatMap passesOf) progress.position (gateId cfg progress.counter) ::
      dispatch cfg repeats passesOf rest (progress.advance gates)

/-- The passes of `Processor::and_`, which goes gate by gate. -/
def Processor.andPasses (repeats : Bool) : Tuple → List Pass :=
  passes fun j => if repeats then 0 else j

/-- `Processor::and_`: ids are the bare counter. -/
def Processor.and (repeats : Bool) (args : List Tuple) (progress : Progress) :
    List (List AndPass) :=
  [issue repeats (args.flatMap (andPasses repeats)) progress.position progress.counter]

namespace YaoGarbleWire

/-- The passes of the garbler's batched loop, which steps the right register even
when it repeats. -/
def andPasses : Tuple → List Pass := passes fun j => j

/-- `and_singlethread` of the garbler: up to nine gates go through the processor's own loop. -/
def andSinglethread (cfg : ThreadConfig) (repeats : Bool) (args : List Tuple)
    (progress : Progress) : List (List AndPass) :=
  if checkArgs args < 10 then
    Processor.and repeats args progress
  else
    [issue repeats (args.flatMap andPasses) progress.position (gateId cfg progress.counter)]

/-- The slices for the workers when there are enough gates for several threads. -/
def slicesOf (cfg : ThreadConfig) (args : List Tuple) : List (Nat × List Tuple) :=
  slices args (getSplits cfg.workers cfg.threshold args (checkArgs args)) 0

/-- `and_multithread` of the garbler: below the threshold in one thread, else in the
jobs of the workers. -/
def andMultithread (cfg : ThreadConfig) (repeats : Bool) (args : List Tuple)
    (progress : Progress) : List (List AndPass) :=
  if (checkArgs args : Int) < cfg.threshold then
    andSinglethread cfg repeats args progress
  else
    dispatch cfg repeats andPasses (slicesOf cfg args) progress

end YaoGarbleWire

namespace YaoEvalWire

/-- The evaluator's `int threshold = 1024`. -/
def threshold : Nat := 1024

/-- The passes of a tuple. A repeated right wire is read from the front. -/
def andPasses (repeats : Bool) : Tuple → List Pass := passes fun j => if repeats then 0 else j

/-- `and_singlethread` of the evaluator. -/
def andSinglethread (cfg : ThreadConfig) (repeats : Bool) (args : List Tuple)
    (progress : Progress) : List (List AndPass) :=
  if checkArgs args < 10 then
    Processor.and repeats args progress
  else
    [issue repeats (args.flatMap (andPasses repeats)) progress.position
      (gateId cfg progress.counter)]

/-- The tuples of each job. -/
def slicesOf (cfg : ThreadConfig) (args : List Tuple) : List (Nat × List Tuple) :=
  slices args (getSplits cfg.workers threshold args (checkArgs args)) 0

/-- `and_` of the evaluator. -/
def and (cfg : ThreadConfig) (repeats : Bool) (args : List Tuple) (progress : Progress) :
    List (List AndPass) :=
  if checkArgs args < threshold then
    andSinglethread cfg repeats args progress
  else
    dispatch cfg repeats (andPasses repeats) (slicesOf cfg args) progress

end YaoEvalWire

/-! ## The parties -/

/-- The garbler's registers, gates and progress. -/
structure YaoGarbler where
  S : Memory Key
  gates : Nat → YaoHalfGate
  progress : Progress

/-- The evaluator; its gates buffer is what the garbler sent. -/
structure YaoEvaluator where
  S : Memory Key
  progress : Progress

variable (hash : Key → Key) (delta : Key)

/-- What the garbler computes for gate `k` of a pass. -/
def AndPass.garbleWire (pass : AndPass) (left right : List Key) (k : Nat) : YaoHalfGate × Key :=
  garbleGate hash delta (left.getD k default) (right.getD (pass.rightWire k) default) (pass.id k)

/-- One pass of the garbler: its gates go to their places in the buffer. -/
def garblePass (state : Memory Key × (Nat → YaoHalfGate)) (pass : AndPass) :
    Memory Key × (Nat → YaoHalfGate) :=
  let (S, gates) := state
  let gate := pass.garbleWire hash delta (S pass.left) (S pass.right)
  (S.apply pass.toPass fun left right =>
      (List.range pass.count).map fun k => (pass.garbleWire hash delta left right k).2,
    fun i => if pass.slot ≤ i ∧ i < pass.slot + pass.count then (gate (i - pass.slot)).1
      else gates i)

/-- One pass of the evaluator. -/
def evalPass (gates : Nat → YaoHalfGate) (S : Memory Key) (pass : AndPass) : Memory Key :=
  S.apply pass.toPass fun left right => (List.range pass.count).map fun k =>
    evalGate hash (gates (pass.slot + k)) (left.getD k default)
      (right.getD (pass.rightWire k) default) (pass.id k)

/-- The garbler runs an AND instruction whose sums do not overflow: there is a worker for
every job, and the jobs' passes interleave. -/
def GarblerAnd (cfg : ThreadConfig) (repeats : Bool) (args : List Tuple) (g g' : YaoGarbler) :
    Prop :=
  SumsFit cfg.workers cfg.threshold args ∧ ∃ order, (YaoGarbleWire.andMultithread cfg repeats args g.progress).length ≤ cfg.workers ∧
    Interleaving (YaoGarbleWire.andMultithread cfg repeats args g.progress) order ∧
    (g'.S, g'.gates) = order.foldl (garblePass hash delta) (g.S, g.gates) ∧
    g'.progress = g.progress.advance (checkArgs args)

/-- The evaluator runs an AND instruction, with its own threshold. -/
def EvaluatorAnd (cfg : ThreadConfig) (gates : Nat → YaoHalfGate) (repeats : Bool)
    (args : List Tuple) (e e' : YaoEvaluator) : Prop :=
  SumsFit cfg.workers YaoEvalWire.threshold args ∧ ∃ order, (YaoEvalWire.and cfg repeats args e.progress).length ≤ cfg.workers ∧
    Interleaving (YaoEvalWire.and cfg repeats args e.progress) order ∧
    e'.S = order.foldl (evalPass hash gates) e.S ∧
    e'.progress = e.progress.advance (checkArgs args)

/-- The sums of an instruction do not overflow on a garbler. -/
def Instruction.SumsFit (cfg : ThreadConfig) : Instruction → Prop
  | .xors _ => True
  | .nots _ _ _ => True
  | .ands args => Yao.SumsFit cfg.workers cfg.threshold args
  | .andrs args => Yao.SumsFit cfg.workers cfg.threshold args

/-- One instruction of the garbler. A public input one is the offset. -/
def GarblerStep (cfg : ThreadConfig) (g : YaoGarbler) : Instruction → YaoGarbler → Prop
  | .xors args, g' => XorsStep Key.xor cfg.workers args g.S g'.S ∧ g'.gates = g.gates ∧
      g'.progress = g.progress
  | .nots r0 r1 n, g' => g' = { g with S := Processor.nots Key.xor delta g.S r0 r1 n }
  | .ands args, g' => GarblerAnd hash delta cfg false args g g'
  | .andrs args, g' => GarblerAnd hash delta cfg true args g g'

/-- One instruction of the evaluator. Public inputs are zero keys. -/
def EvaluatorStep (cfg : ThreadConfig) (gates : Nat → YaoHalfGate) (e : YaoEvaluator) :
    Instruction → YaoEvaluator → Prop
  | .xors args, e' => XorsStep Key.xor cfg.workers args e.S e'.S ∧ e'.progress = e.progress
  | .nots r0 r1 n, e' => e' = { e with S := Processor.nots Key.xor 0 e.S r0 r1 n }
  | .ands args, e' => EvaluatorAnd hash cfg gates false args e e'
  | .andrs args, e' => EvaluatorAnd hash cfg gates true args e e'

/-- Runs of a list of instructions. -/
inductive Runs {State : Type} (step : State → Instruction → State → Prop) :
    State → List Instruction → State → Prop
  | nil (s : State) : Runs step s [] s
  | cons {s mid final : State} {i : Instruction} {rest : List Instruction}
      (first : step s i mid) (later : Runs step mid rest final) : Runs step s (i :: rest) final

/-! ## Gates in buffer order -/

/-- The progress after an instruction. -/
def Progress.after (progress : Progress) : Instruction → Progress
  | .xors _ => progress
  | .nots _ _ _ => progress
  | .ands args => progress.advance (checkArgs args)
  | .andrs args => progress.advance (checkArgs args)

/-- The gates of an instruction in the order of the buffer. -/
def instructionGates (jobs : Bool → List Tuple → Progress → List (List AndPass))
    (progress : Progress) : Instruction → List GateUse
  | .xors _ => []
  | .nots _ _ _ => []
  | .ands args => (jobs false args progress).flatten.flatMap AndPass.gates
  | .andrs args => (jobs true args progress).flatten.flatMap AndPass.gates

/-- The gates of a list of instructions, by the given jobs. -/
def runGates (jobs : Bool → List Tuple → Progress → List (List AndPass)) :
    List Instruction → Progress → List GateUse
  | [], _ => []
  | i :: rest, progress =>
    instructionGates jobs progress i ++ runGates jobs rest (progress.after i)

/-- The gates that the garbler writes. -/
def garblerGates (cfg : ThreadConfig) : List Instruction → Progress → List GateUse :=
  runGates (YaoGarbleWire.andMultithread cfg)

/-- The gates that the evaluator consumes. -/
def evaluatorGates (cfg : ThreadConfig) : List Instruction → Progress → List GateUse :=
  runGates (YaoEvalWire.and cfg)

/-! ## Plain evaluation -/

/-- The operand registers of a pass hold the wires that it names. -/
def OperandsHold {α : Type} (S : Memory α) (pass : Pass) (rightCount : Nat) : Prop :=
  pass.count ≤ (S pass.left).length ∧ rightCount ≤ (S pass.right).length

instance instDecidableOperandsHold {α : Type} (S : Memory α) (pass : Pass) (rightCount : Nat) :
    Decidable (OperandsHold S pass rightCount) := by
  unfold OperandsHold
  infer_instance

/-- Apply a pass when its operands hold. -/
def plainPass (rightCount : Pass → Nat) (wires : Pass → List Bool → List Bool → List Bool)
    (V : Memory Bool) (pass : Pass) : Option (Memory Bool) :=
  if OperandsHold V pass (rightCount pass) then some (V.apply pass (wires pass)) else none

/-- Bitwise AND, or AND with the lowest bit of the right register. -/
def plainAnd (repeats : Bool) (pass : Pass) (x y : List Bool) : List Bool :=
  (List.range pass.count).map fun k =>
    x.getD k default && y.getD (if repeats then 0 else k) default

/-- What an instruction does to plain bits. -/
def plainStep (V : Memory Bool) : Instruction → Option (Memory Bool)
  | .xors args => (args.flatMap (passes id)).foldlM
      (plainPass Pass.count fun pass => Processor.xorWires Bool.xor pass.count) V
  | .nots r0 r1 n => (passes id ⟨n, r0, r1, r1⟩).foldlM
      (plainPass Pass.count fun pass x _ => Processor.invertWires Bool.xor true pass.count x) V
  | .ands args => (args.flatMap (Processor.andPasses false)).foldlM
      (plainPass Pass.count (plainAnd false)) V
  | .andrs args => (args.flatMap (Processor.andPasses true)).foldlM
      (plainPass (fun _ => 1) (plainAnd true)) V

/-- What a list of instructions does to them. -/
def plainRun (V : Memory Bool) (instructions : List Instruction) : Option (Memory Bool) :=
  instructions.foldlM plainStep V

end SimpleOprf.Yao
