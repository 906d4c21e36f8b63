import SimpleOprf.Basis.Duplex
import SimpleOprf.OtExtension.Correlated
import SimpleOprf.Yao.Key
import SimpleOprf.Yao.Threads

/-!
# Inputs of the two parties

`inputb` and `inputbvec` with what they do on either side. The evaluator gets the
keys of its bits by correlated OTs in `exchange`. The garbler only queues them there
and serves them when it comes to `process_receiver_inputs`.

Both parties keep the matrices after every extension and the wires that they set.
-/

namespace SimpleOprf.Yao

open SimpleOprf.Basis SimpleOprf.OtExtension

/-! ## The bits of a call -/

/-- An argument of `inputb`, with the words that its sender hands to `my_input`. -/
structure InputbArgs extends InputArgs where
  dest : Nat
  words : List (BitVec 64)
deriving DecidableEq, Repr

/-- An argument of `inputbvec`, with the bits that its sender hands to `my_input`. -/
structure InputVecArgs where
  sender : Nat
  dest : List Nat
  values : List Bool
deriving DecidableEq, Repr

/-- One wire of an input. Only the sender uses the value. -/
structure InputBit where
  sender : Nat
  register : Nat
  index : Nat
  value : Bool
deriving DecidableEq, Repr

/-- Registers of 64 wires each. -/
def InputbArgs.bits (x : InputbArgs) : List InputBit :=
  (List.range ((x.nBits + 63) / 64)).flatMap fun i =>
    (List.range (min 64 (x.nBits - i * 64))).map fun j =>
      ⟨x.sender, x.dest + i, j, (x.words.getD i 0).getLsbD j⟩

/-- A register for each bit. -/
def InputVecArgs.bits (x : InputVecArgs) : List InputBit :=
  x.dest.mapIdx fun i dest => ⟨x.sender, dest, 0, x.values.getD i false⟩

/-- An input instruction of the program, with all its tuples. -/
inductive InputCall where
  | inputb (args : List InputbArgs)
  | inputbvec (args : List InputVecArgs)
deriving DecidableEq, Repr

/-- The input bits of a call, tuple by tuple. -/
def InputCall.bits : InputCall → List InputBit
  | .inputb args => args.flatMap InputbArgs.bits
  | .inputbvec args => args.flatMap InputVecArgs.bits

/-- `inputbvec` throws on a player number that does not exist. -/
def InputCall.invalid : InputCall → Bool
  | .inputb _ => false
  | .inputbvec args => args.any fun x => 2 ≤ x.sender

/-- How an input can go wrong. -/
inductive InputFailure where
  | invalidPlayer
  | wrongChoiceBits
  | shortMessage
  | wrongSignal
  | unexpected
deriving DecidableEq, Repr

/-- A message of the OT connection. -/
inductive OtMessage where
  | matrix (u : List Square)
  | keys (os : List Key)

/-! ## Wires of the garbler -/

/-- The offset that `YaoGarbleMaster` draws, with its signal bit set. -/
def YaoGarbleMaster.delta (word : BitVec 128) : Key := Key.setSignal ⟨word⟩ true

/-- `YaoHalfGate::garble_public_input`. -/
def YaoHalfGate.garblePublicInput (value : Bool) (delta : Key) : Key := if value then delta else 0

/-- `YaoGarbleInput` with what it reaches of the garbler: `keys` is the back of
`receiver_input_keys`. -/
structure YaoGarbleInput (σ : Type) where
  prng : σ
  keys : List Key

section Garbler

variable {σ : Type} (prng : Prng σ)

/-- `finalize_input`: a fresh key for a bit of the evaluator. -/
def YaoGarbleWire.finalizeInput (input : YaoGarbleInput σ) (sender : Nat) :
    YaoGarbleInput σ × Option Key :=
  if sender = 1 then
    let (word, g) := prng.getDoubleword input.prng
    let fullKey := Key.setSignal ⟨word⟩ false
    (⟨g, input.keys ++ [fullKey]⟩, some fullKey)
  else
    (input, none)

/-- The second loop of a call. -/
def YaoGarbleWire.finalizeInputs :
    List InputBit → YaoGarbleInput σ → YaoGarbleInput σ × List (InputBit × Key)
  | [], input => (input, [])
  | bit :: rest, input =>
    let (input, fullKey) := finalizeInput prng input bit.sender
    let (input, wires) := finalizeInputs rest input
    (input, (fullKey.map fun fullKey => (bit, fullKey)).toList ++ wires)

/-- The wires that a call sets in `my_input` and in `finalize_input`. -/
structure GarbledCall where
  own : List (InputBit × Key)
  others : List (InputBit × Key)

/-- The first loop of a call, in which the garbler's inputs become public. -/
def YaoGarbleWire.myInputs (delta : Key) (bits : List InputBit) : List (InputBit × Key) :=
  (bits.filter fun bit => bit.sender = 0).map fun bit =>
    (bit, YaoHalfGate.garblePublicInput bit.value delta)

end Garbler

/-! ## The garbler -/

/-- What the garbler does between two exchanges. -/
inductive GarblerOp where
  | input (call : InputCall)
  /-- Other instructions, by how many doublewords they draw. -/
  | other (draws : Nat)
  | processReceiverInputs
deriving DecidableEq, Repr

/-- Where the garbler is in its program. -/
inductive InputGarblerControl where
  | run
  | send (os : List Key)
  | failed (failure : InputFailure)
deriving DecidableEq, Repr

/-- The garbler as far as inputs go. -/
structure InputGarbler (σ : Type) where
  control : InputGarblerControl
  ops : List GarblerOp
  delta : Key
  prng : σ
  otExt : OtSender σ
  receiverInputKeys : List (List Key)
  matrices : List (List Square)
  calls : List GarbledCall

namespace InputGarbler

variable {σ : Type} (prng : Prng σ) (transpose : Square → Square)

/-- An input call of the garbler. -/
def input (g : InputGarbler σ) (bits : List InputBit) : InputGarbler σ :=
  let own := YaoGarbleWire.myInputs g.delta bits
  -- `exchange` only makes room for the keys
  let (input, others) := YaoGarbleWire.finalizeInputs prng bits ⟨g.prng, []⟩
  { g with
    prng := input.prng
    receiverInputKeys := g.receiverInputKeys ++ [input.keys]
    calls := g.calls ++ [⟨own, others⟩] }

/-- The keys of a batch under the rows of the matrix. -/
def maskKeys (keys : List Key) (squares : List Square) : List Key :=
  keys.mapIdx fun i key => Key.xor key ⟨rowAt squares i⟩

/-- Extend for the front of the queue and prepare its keys. -/
def extend (g : InputGarbler σ) (keys : List Key) (u : List Square) : InputGarbler σ :=
  let otExt := g.otExt.extendCorrelated prng transpose keys.length u
  { g with
    control := .send (maskKeys keys otExt.senderOutput.squares)
    otExt
    matrices := g.matrices ++ [otExt.senderOutput.squares] }

/-- The next action of the garbler. -/
def next (g : InputGarbler σ) : Action Unit OtMessage (InputGarbler σ) :=
  match g.control with
  | .run =>
    match g.ops with
    | [] => .finished
    | .input call :: rest =>
      if call.invalid then
        .internal { g with control := .failed .invalidPlayer }
      else
        .internal ({ g with ops := rest }.input prng call.bits)
    | .other draws :: rest => .internal { g with ops := rest, prng := prng.after g.prng draws }
    | .processReceiverInputs :: rest =>
      match g.receiverInputKeys with
      | [] => .internal { g with ops := rest }
      | keys :: _ =>
        -- `extend_correlated` returns at once when there is nothing to extend
        if keys.length = 0 then
          .internal (g.extend prng transpose keys [])
        else
          .receive () fun
            | .matrix u => g.extend prng transpose keys u
            | .keys _ => { g with control := .failed .unexpected }
  | .send os =>
    .send () (.keys os)
      { g with control := .run, receiverInputKeys := g.receiverInputKeys.tail }
  | .failed _ => .failed

section Next

variable {g : InputGarbler σ} {rest : List GarblerOp} (running : g.control = .run)
include running

theorem next_nil (now : g.ops = []) : g.next prng transpose = .finished := by
  cases g
  cases running
  cases now
  rfl

/-- An input call fails on an unknown player, and sends the garbler's keys otherwise. -/
theorem next_input {c : InputCall} (now : g.ops = .input c :: rest) :
    g.next prng transpose =
      if c.invalid then
        .internal { g with control := .failed .invalidPlayer }
      else
        .internal ({ g with ops := rest }.input prng c.bits) := by
  cases g
  cases running
  cases now
  rfl

/-- Other instructions draw. -/
theorem next_other {draws : Nat} (now : g.ops = .other draws :: rest) :
    g.next prng transpose =
      .internal { g with ops := rest, prng := prng.after g.prng draws } := by
  cases g
  cases running
  cases now
  rfl

theorem next_processReceiverInputs_nil (now : g.ops = .processReceiverInputs :: rest)
    (empty : g.receiverInputKeys = []) :
    g.next prng transpose = .internal { g with ops := rest } := by
  cases g
  cases running
  cases now
  cases empty
  rfl

/-- The front of the queue is served first. -/
theorem next_processReceiverInputs {keys : List Key} {queue : List (List Key)}
    (now : g.ops = .processReceiverInputs :: rest) (front : g.receiverInputKeys = keys :: queue) :
    g.next prng transpose =
      if keys.length = 0 then
        .internal (g.extend prng transpose keys [])
      else
        .receive () fun
          | .matrix u => g.extend prng transpose keys u
          | .keys _ => { g with control := .failed .unexpected } := by
  cases g
  cases running
  cases now
  cases front
  rfl

end Next

/-- The garbler before its first operation. -/
def start (ops : List GarblerOp) (delta : Key) (g : σ) (otExt : OtSender σ) : InputGarbler σ :=
  { control := .run
    ops
    delta
    prng := g
    otExt
    receiverInputKeys := []
    matrices := []
    calls := [] }

end InputGarbler

/-! ## The evaluator -/

/-- `YaoEvalInput`. -/
structure YaoEvalInput where
  inputs : List Bool
  iBit : Nat
  os : List Key
deriving DecidableEq, Repr

namespace YaoEvalWire

/-- `my_input`: the bit joins the choice bits. -/
def myInput (input : YaoEvalInput) (value : Bool) : YaoEvalInput :=
  { input with inputs := input.inputs ++ [value] }

/-- The first loop of a call. -/
def myInputs (bits : List InputBit) (input : YaoEvalInput) : YaoEvalInput :=
  bits.foldl (fun input bit => if bit.sender = 1 then myInput input bit.value else input) input

/-- `set` asserts that the signal of the key is the bit. -/
def finalizeInput (matrix : List Square) (input : YaoEvalInput) (sender : Nat) :
    Except InputFailure (YaoEvalInput × Key) :=
  if sender = 1 then
    match input.os with
    | [] => .error .shortMessage
    | key :: os =>
      let key := Key.xor key ⟨rowAt matrix input.iBit⟩
      if key.getSignal = input.inputs.getD input.iBit false then
        .ok ({ input with iBit := input.iBit + 1, os }, key)
      else
        .error .wrongSignal
  else
    .ok (input, 0)

/-- The second loop of a call. -/
def finalizeInputs (matrix : List Square) :
    List InputBit → YaoEvalInput → Except InputFailure (List (InputBit × Key))
  | [], _ => .ok []
  | bit :: rest, input => do
    let (input, key) ← finalizeInput matrix input bit.sender
    let wires ← finalizeInputs matrix rest input
    .ok ((bit, key) :: wires)

end YaoEvalWire

/-- Where the evaluator is in its program. -/
inductive InputEvaluatorControl where
  | run
  | receive (bits : List InputBit) (input : YaoEvalInput)
  | failed (failure : InputFailure)
deriving DecidableEq, Repr

/-- The evaluator as far as inputs go. -/
structure InputEvaluator (σ : Type) where
  control : InputEvaluatorControl
  calls : List InputCall
  otExt : OtReceiver σ
  matrices : List (List Bool × List Square)
  wires : List (List (InputBit × Key))

namespace InputEvaluator

variable {σ : Type} (prng : Prng σ) (transpose : Square → Square)

/-- A call up to the message of the garbler. -/
def call (e : InputEvaluator σ) (bits : List InputBit) :
    Action Unit OtMessage (InputEvaluator σ) :=
  let input := YaoEvalWire.myInputs bits ⟨[], 0, []⟩
  match e.otExt.extendCorrelated prng transpose input.inputs.length input.inputs with
  | none => .internal { e with control := .failed .wrongChoiceBits }
  | some (otExt, u) =>
    let e := { e with
      control := .receive bits input
      otExt
      matrices := e.matrices ++ [(input.inputs, otExt.receiverOutput.squares)] }
    match u with
    | none => .internal e
    | some u => .send () (.matrix u) e

/-- The rest of a call. -/
def finalize (e : InputEvaluator σ) (bits : List InputBit) (input : YaoEvalInput) :
    OtMessage → InputEvaluator σ
  | .keys os =>
    match YaoEvalWire.finalizeInputs e.otExt.receiverOutput.squares bits { input with os } with
    | .ok wires => { e with control := .run, wires := e.wires ++ [wires] }
    | .error failure => { e with control := .failed failure }
  | .matrix _ => { e with control := .failed .unexpected }

/-- The next action of the evaluator. -/
def next (e : InputEvaluator σ) : Action Unit OtMessage (InputEvaluator σ) :=
  match e.control with
  | .run =>
    match e.calls with
    | [] => .finished
    | call :: rest =>
      if call.invalid then
        .internal { e with control := .failed .invalidPlayer }
      else
        { e with calls := rest }.call prng transpose call.bits
  | .receive bits input => .receive () (e.finalize bits input)
  | .failed _ => .failed

/-- A running evaluator performs its next call. -/
theorem next_call {e : InputEvaluator σ} {c : InputCall} {rest : List InputCall}
    (running : e.control = .run) (now : e.calls = c :: rest) (valid : c.invalid = false) :
    e.next prng transpose = { e with calls := rest }.call prng transpose c.bits := by
  cases e
  cases running
  cases now
  exact if_neg (by rw [valid]; exact Bool.false_ne_true)

/-- The evaluator before its first call. -/
def start (calls : List InputCall) (otExt : OtReceiver σ) : InputEvaluator σ :=
  { control := .run
    calls
    otExt
    matrices := []
    wires := [] }

end InputEvaluator

/-- The calls of a garbler in order. -/
def inputCalls (ops : List GarblerOp) : List InputCall :=
  ops.filterMap fun
    | .input call => some call
    | _ => none

/-- Both parties before a program whose other instructions do not matter to the
evaluator. -/
def inputStart {σ : Type} (ops : List GarblerOp) (delta : Key) (g : σ) (sender : OtSender σ)
    (receiver : OtReceiver σ) : Net Unit OtMessage (InputGarbler σ) (InputEvaluator σ) :=
  ⟨.start ops delta g sender, .start (inputCalls ops) receiver,
    fun _ => ⟨[], 0⟩, fun _ => ⟨[], 0⟩⟩

end SimpleOprf.Yao
