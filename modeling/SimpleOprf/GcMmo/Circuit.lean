import SimpleOprf.GcMmo.Bits

/-!
# Bristol circuits

The circuit record that `load_bristol` fills and the plain interpreter
`eval_circuit_plain`. Vectors are lists; an index outside one is a fault.

A well-formed circuit has its indices in range and as many output wires as it
announces. Both are hypotheses of later results and never assumed of a loaded
file.
-/

namespace SimpleOprf.GcMmo

open SimpleOprf.Basis

/-- `GateType`. -/
inductive GateType where
  | xor
  | and
  | inv
deriving DecidableEq, Repr

/-- `Gate`: the type and the indices of its wires. -/
structure Gate where
  type : GateType
  in0 : UInt32 := 0
  in1 : UInt32 := 0
  out : UInt32 := 0
deriving DecidableEq, Repr

/-- A loaded circuit. `nInput0` counts the garbler's key bits and `nInput1` the
evaluator's plaintext bits. The last field is a memory limit: a longer gate list
alone would take 2^59 bytes, and the garbler adds 144 for each AND gate. -/
structure Circuit where
  nGates : UInt64 := 0
  nWires : UInt64 := 0
  nInput0 : UInt64 := 0
  nInput1 : UInt64 := 0
  nOutput : UInt64 := 0
  nAnd : UInt64 := 0
  nXor : UInt64 := 0
  gates : List Gate
  outputWires : List UInt32
  gates_size : gates.length < 2 ^ 55

/-- Number of input wires, in exact arithmetic. -/
def Circuit.inputs (c : Circuit) : Nat := c.nInput0.toNat + c.nInput1.toNat

/-- Number of AND gates in the gate list. -/
def Circuit.andGates (c : Circuit) : Nat := c.gates.countP (·.type = .and)

/-- A vector of gates is shorter than `2 ^ 55`. -/
theorem andGates_lt (c : Circuit) : c.andGates < 2 ^ 55 :=
  lt_of_le_of_lt List.countP_le_length c.gates_size

/-- A gate that stays inside the wire vector and leaves the inputs alone. -/
structure Gate.InBounds (inputs wires : Nat) (g : Gate) : Prop where
  in0 : g.in0.toNat < wires
  in1 : g.in1.toNat < wires
  out : g.out.toNat < wires
  above : inputs ≤ g.out.toNat

/-- The circuits that the interpreters are meant for: indices below `nWires`,
one output wire for each output, and no gate writing an input wire. -/
structure Circuit.WellFormed (c : Circuit) : Prop where
  inputs : c.inputs ≤ c.nWires.toNat
  gates : ∀ g ∈ c.gates, g.InBounds c.inputs c.nWires.toNat
  outputs : c.outputWires.length = c.nOutput.toNat
  output : ∀ wire ∈ c.outputWires, wire.toNat < c.nWires.toNat

/-- One gate of the plain interpreter. -/
def plainGate (w : List UInt8) (g : Gate) : Outcome (List UInt8) :=
  match g.type with
  | .xor => do
      let x ← readAt w g.in0.toNat
      let y ← readAt w g.in1.toNat
      writeAt w g.out.toNat (x ^^^ y)
  | .and => do
      let x ← readAt w g.in0.toNat
      let y ← readAt w g.in1.toNat
      writeAt w g.out.toNat (x &&& y)
  | .inv => do
      let x ← readAt w g.in0.toNat
      writeAt w g.out.toNat (x ^^^ 1)

/-- The wire vector of `eval_circuit_plain` after its gate loop. -/
def plainWires (c : Circuit) (inBits : List UInt8) : Outcome (List UInt8) :=
  if inBits.length ≠ (c.nInput0 + c.nInput1).toNat then
    .error (.thrown "plain eval: bad input size")
  else do
    let w ← storeFront (List.replicate c.nWires.toNat 0) (inBits.map (· &&& 1))
    c.gates.foldlM plainGate w

/-- The entries of a wire vector at the output wires. -/
def readOutputs {α : Type} (c : Circuit) (w : List α) : Outcome (List α) :=
  (List.range c.nOutput.toNat).mapM fun i => do
    let wire ← readAt c.outputWires i
    readAt w wire.toNat

/-- `eval_circuit_plain`. -/
def evalCircuitPlain (c : Circuit) (inBits : List UInt8) : Outcome (List UInt8) := do
  let w ← plainWires c inBits
  readOutputs c w

/-- The 64-bit sum the code compares sizes with is exact when the inputs fit in
the wire vector. -/
theorem Circuit.WellFormed.inputs_toNat {c : Circuit} (wf : c.WellFormed) :
    (c.nInput0 + c.nInput1).toNat = c.inputs := by
  have fits := wf.inputs
  have wires := c.nWires.toNat_lt
  rw [UInt64.toNat_add]
  exact Nat.mod_eq_of_lt (lt_of_le_of_lt fits wires)

/-- A well-formed circuit from 128 key bits and 128 input bits to 128 output
bits, as the programs expect one. -/
structure Datapath (c : Circuit) : Prop where
  wf : c.WellFormed
  key : c.nInput0 = 128
  input : c.nInput1 = 128
  output : c.nOutput = 128

/-- Such a circuit has 256 inputs. -/
theorem Datapath.inputs {c : Circuit} (datapath : Datapath c) : c.inputs = 256 := by
  rw [Circuit.inputs, datapath.key, datapath.input]
  rfl

/-- The circuit computes `f` from a key block and an input block. -/
def Computes (c : Circuit) (f : Block → Block → Block) : Prop :=
  ∀ k x, evalCircuitPlain c (blockToBits128 k ++ blockToBits128 x) = .ok (blockToBits128 (f k x))

end SimpleOprf.GcMmo
