import SimpleOprf.Basis.TextStream
import SimpleOprf.GcMmo.Circuit

/-!
# The Bristol loader

`load_bristol` reads seven counts with formatted extractions and then one gate
line at a time. A file is the list of its characters; which of them are read as
numbers, skipped or refused is decided by the stream, as in the source.

Signs, saturation and the stream's error bits are those of the standard
library. An exception carries the text that the source gives it.
-/

namespace SimpleOprf.GcMmo

open SimpleOprf.Basis

/-- `in >> x` into a `u64` that is still zero. -/
def readU64 : Extract UInt64 := do
  let value ← Extract.unsigned 64 0
  return UInt64.ofNat value

/-- `ss >> x` into a `u32`; what it holds after a failure is never used. -/
def readU32 : Extract UInt32 := do
  let value ← Extract.unsigned 32 0
  return UInt32.ofNat value

/-- The numbers in front of the gate lines, with the two bundle counts. -/
structure CircuitCounts where
  nGates : UInt64
  nWires : UInt64
  nin : UInt64
  nInput0 : UInt64
  nInput1 : UInt64
  nout : UInt64
  nOutput : UInt64

/-- The counts in the first three lines. -/
def readCounts : Extract CircuitCounts := do
  let nGates ← readU64
  let nWires ← readU64
  let nin ← readU64
  let nInput0 ← readU64
  let nInput1 ← readU64
  let nout ← readU64
  let nOutput ← readU64
  return { nGates, nWires, nin, nInput0, nInput1, nout, nOutput }

/-- The gates read so far and their two counters. -/
structure Netlist where
  gates : List Gate := []
  nAnd : UInt64 := 0
  nXor : UInt64 := 0

/-- Append a gate. A NOT is counted as an XOR, being free like one. -/
def Netlist.push (c : Netlist) (g : Gate) : Netlist :=
  match g.type with
  | .and => { c with gates := c.gates ++ [g], nAnd := c.nAnd + 1 }
  | .xor | .inv => { c with gates := c.gates ++ [g], nXor := c.nXor + 1 }

/-- The two arities at the front of a gate line. -/
def readArity : Extract (Int × Int) := do
  let ninG ← Extract.int 0
  let noutG ← Extract.int 0
  return (ninG, noutG)

/-- The wires and the name of a gate with two inputs. -/
def readBinary : Extract (UInt32 × UInt32 × UInt32 × List Char) := do
  let a ← readU32
  let b ← readU32
  let o ← readU32
  let op ← Extract.word []
  return (a, b, o, op)

/-- The wires and the name of a gate with one input. -/
def readUnary : Extract (UInt32 × UInt32 × List Char) := do
  let a ← readU32
  let o ← readU32
  let op ← Extract.word []
  return (a, o, op)

/-- A gate line with two inputs, or an exception when its name is another. -/
def Netlist.addBinary (c : Netlist) (a b o : UInt32) (op : List Char) : Outcome Netlist :=
  if op = ['X', 'O', 'R'] ∨ op = ['x', 'o', 'r'] then
    .ok (c.push { type := .xor, in0 := a, in1 := b, out := o })
  else if op = ['A', 'N', 'D'] ∨ op = ['a', 'n', 'd'] then
    .ok (c.push { type := .and, in0 := a, in1 := b, out := o })
  else
    .error (.thrown ("unknown gate: " ++ String.ofList op))

/-- A gate line with one input, or an exception when its name is another. -/
def Netlist.addUnary (c : Netlist) (a o : UInt32) (op : List Char) : Outcome Netlist :=
  if op = ['I', 'N', 'V'] ∨ op = ['N', 'O', 'T'] ∨ op = ['i', 'n', 'v'] ∨ op = ['n', 'o', 't'] then
    .ok (c.push { type := .inv, in0 := a, in1 := a, out := o })
  else
    .error (.thrown ("unknown unary gate: " ++ String.ofList op))

/-- One iteration of the line loop. -/
def Netlist.addLine (c : Netlist) (line : List Char) : Outcome Netlist :=
  if line = [] ∨ line.head? = some '#' then
    .ok c
  else
    let ((ninG, noutG), ss) := readArity { rest := line }
    -- A line that does not start with two numbers is passed over.
    if ss.fail then
      .ok c
    else if ninG = 2 ∧ noutG = 1 then
      let (a, b, o, op) := (readBinary ss).1
      c.addBinary a b o op
    else if ninG = 1 ∧ noutG = 1 then
      let (a, o, op) := (readUnary ss).1
      c.addUnary a o op
    else
      .error (.thrown ("unsupported gate arity in: " ++ String.ofList line))

/-- Why `reserve` fails for a gate count that no memory holds. -/
def reserveFault (count : UInt64) : Fault :=
  if 2 ^ 59 ≤ count.toNat then .thrown "vector::reserve" else .thrown "std::bad_alloc"

/-- The last `nOutput` wires, in the wrapping arithmetic of the source. -/
def lastWires (nWires nOutput : UInt64) : List UInt32 :=
  (List.range nOutput.toNat).map fun i => (nWires - nOutput + UInt64.ofNat i).toUInt32

/-- Load a circuit; a file that cannot be opened is `none`. -/
def loadBristol (path : String) (file : Option (List Char)) : Outcome Circuit :=
  match file with
  | none => .error (.thrown ("cannot open circuit: " ++ path))
  | some text =>
    let (h, input) := readCounts { rest := text }
    if h.nin ≠ 2 then
      .error (.thrown "expected 2 input bundles")
    else if h.nout ≠ 1 then
      .error (.thrown "expected 1 output bundle")
    else if room : h.nGates.toNat < 2 ^ 55 then do
      -- The rest of the last line that held a count.
      let (_, input) := Extract.getline input
      let c ← (Extract.lines input).foldlM Netlist.addLine {}
      if counted : c.gates.length = h.nGates.toNat then
        if 4 * h.nOutput.toNat < 2 ^ 63 then
          .ok {
            nGates := h.nGates
            nWires := h.nWires
            nInput0 := h.nInput0
            nInput1 := h.nInput1
            nOutput := h.nOutput
            nAnd := c.nAnd
            nXor := c.nXor
            gates := c.gates
            outputWires := lastWires h.nWires h.nOutput
            gates_size := by rwa [counted] }
        else
          .error (.thrown "vector::_M_default_append")
      else
        .error (.thrown "gate count mismatch")
    else
      .error (reserveFault h.nGates)

end SimpleOprf.GcMmo
