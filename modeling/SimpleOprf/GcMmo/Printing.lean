import SimpleOprf.GcMmo.Bristol

/-!
# Printing and loading circuits

A circuit printed in Bristol Fashion is loaded as it was, whatever empty lines
and comment lines stand between its gate lines.

Numbers are printed in decimal and gate names in either case. The proof follows
the loader line by line over the stream library.
-/

namespace SimpleOprf.GcMmo

open SimpleOprf.Basis

/-- Decimal digits. -/
def number (n : Nat) : List Char := Nat.toDigits 10 n

/-- The line of a gate in Bristol Fashion. -/
def gateLine (g : Gate) : List Char :=
  match g.type with
  | .xor => number 2 ++ ' ' :: (number 1 ++ ' ' :: (number g.in0.toNat ++ ' ' ::
      (number g.in1.toNat ++ ' ' :: (number g.out.toNat ++ [' ', 'X', 'O', 'R']))))
  | .and => number 2 ++ ' ' :: (number 1 ++ ' ' :: (number g.in0.toNat ++ ' ' ::
      (number g.in1.toNat ++ ' ' :: (number g.out.toNat ++ [' ', 'A', 'N', 'D']))))
  | .inv => number 1 ++ ' ' :: (number 1 ++ ' ' :: (number g.in0.toNat ++ ' ' ::
      (number g.out.toNat ++ [' ', 'I', 'N', 'V'])))

/-- The gate lines in order, with empty lines and comment lines anywhere. -/
inductive GateLines : List Gate → List (List Char) → Prop where
  | nil : GateLines [] []
  | gate (g : Gate) {gates : List Gate} {lines : List (List Char)} (rest : GateLines gates lines) :
      GateLines (g :: gates) (gateLine g :: lines)
  | empty {gates : List Gate} {lines : List (List Char)} (rest : GateLines gates lines) :
      GateLines gates ([] :: lines)
  | comment (text : List Char) {gates : List Gate} {lines : List (List Char)}
      (oneLine : '\n' ∉ text) (rest : GateLines gates lines) :
      GateLines gates (('#' :: text) :: lines)

/-- The three header lines. -/
def headerText (c : Circuit) : List Char :=
  number c.gates.length ++ ' ' :: (number c.nWires.toNat ++ '\n' :: (number 2 ++ ' ' ::
    (number c.nInput0.toNat ++ ' ' :: (number c.nInput1.toNat ++ '\n' :: (number 1 ++ ' ' ::
      number c.nOutput.toNat)))))

/-- A circuit file with the given lines behind its header. -/
def bristolText (c : Circuit) (lines : List (List Char)) : List Char :=
  headerText c ++ '\n' :: lines.flatMap fun line => line ++ ['\n']

/-! ## Reading the lines back -/

/-- A printed `u64` is read back. -/
private theorem scans_u64 {lead : List Char} (value : UInt64)
    (blank : ∀ c ∈ lead, isSpace c = true) :
    readU64.Scans (lead ++ number value.toNat) value := by
  intro space rest blankAfter
  have scanned := Extract.scans_unsigned 0 value.toNat_lt blank space rest blankAfter
  rw [readU64, Extract.bind_apply, number, scanned]
  simp only [UInt64.ofNat_toNat]
  rfl

/-- A printed `u32` is read back. -/
private theorem scans_u32 {lead : List Char} (value : UInt32)
    (blank : ∀ c ∈ lead, isSpace c = true) :
    readU32.Scans (lead ++ number value.toNat) value := by
  intro space rest blankAfter
  have scanned := Extract.scans_unsigned 0 value.toNat_lt blank space rest blankAfter
  rw [readU32, Extract.bind_apply, number, scanned]
  simp only [UInt32.ofNat_toNat]
  rfl

/-- A single blank. -/
private theorem one_blank {space : Char} (blank : isSpace space = true) :
    ∀ c ∈ [space], isSpace c = true := by
  intro c member
  rw [List.mem_singleton.mp member]
  exact blank

/-- A space is a blank. -/
private theorem space_blank : isSpace ' ' = true := rfl

/-- The two numbers in front of a gate line. -/
private theorem scans_arity (ninG noutG : Nat) (fitsIn : ninG < 2 ^ 31) (fitsOut : noutG < 2 ^ 31) :
    readArity.Scans (number ninG ++ ' ' :: number noutG) (ninG, noutG) := by
  have first : (Extract.int 0).Scans ([] ++ number ninG) ninG :=
    Extract.scans_int fitsIn (by simp)
  have second : (Extract.int 0).Scans (' ' :: number noutG) noutG :=
    Extract.scans_int fitsOut (one_blank space_blank)
  exact first.bind space_blank (second.map fun noutG => ((ninG : Int), noutG))

/-- The name of a gate ends its line. -/
private theorem finishes_op {op : List Char} (nonempty : op ≠ [])
    (solid : ∀ c ∈ op, isSpace c = false) : (Extract.word []).Finishes (' ' :: op) op :=
  Extract.finishes_word (one_blank space_blank) nonempty solid

/-- The wires and the name of a gate with two inputs are read back. -/
private theorem finishes_binary (a b o : UInt32) {op : List Char} (nonempty : op ≠ [])
    (solid : ∀ c ∈ op, isSpace c = false) :
    readBinary.Finishes (' ' :: (number a.toNat ++ ' ' :: (number b.toNat ++ ' ' ::
      (number o.toNat ++ ' ' :: op)))) (a, b, o, op) := by
  have readA := scans_u32 a (one_blank space_blank)
  have readB := scans_u32 b (one_blank space_blank)
  have readO := scans_u32 o (one_blank space_blank)
  have readOp := (finishes_op nonempty solid).map fun op => (a, b, o, op)
  exact readA.bind_finishes space_blank (readB.bind_finishes space_blank
    (readO.bind_finishes space_blank readOp))

/-- Those of a gate with one input are. -/
private theorem finishes_unary (a o : UInt32) {op : List Char} (nonempty : op ≠ [])
    (solid : ∀ c ∈ op, isSpace c = false) :
    readUnary.Finishes (' ' :: (number a.toNat ++ ' ' :: (number o.toNat ++ ' ' :: op)))
      (a, o, op) := by
  have readA := scans_u32 a (one_blank space_blank)
  have readO := scans_u32 o (one_blank space_blank)
  have readOp := (finishes_op nonempty solid).map fun op => (a, o, op)
  exact readA.bind_finishes space_blank (readO.bind_finishes space_blank readOp)

/-- A gate line is no comment and no empty line. -/
private theorem number_shape (n : Nat) :
    ∃ c rest, number n = c :: rest ∧ c ≠ '#' := by
  cases shape : Nat.toDigits 10 n with
  | nil => exact absurd shape Nat.toDigits_ne_nil
  | cons c rest =>
    have digit : c.isDigit = true := Nat.isDigit_of_mem_toDigits (by omega) (by omega)
      (shape ▸ List.mem_cons_self)
    refine ⟨c, rest, shape, ?_⟩
    rintro rfl
    exact absurd digit (by decide)

/-- A printed line with two inputs adds its gate. -/
private theorem addLine_binary (c : Netlist) (a b o : UInt32) {op : List Char} (nonempty : op ≠ [])
    (solid : ∀ x ∈ op, isSpace x = false) :
    c.addLine (number 2 ++ ' ' :: (number 1 ++ ' ' :: (number a.toNat ++ ' ' ::
      (number b.toNat ++ ' ' :: (number o.toNat ++ ' ' :: op))))) = c.addBinary a b o op := by
  have arity := scans_arity 2 1 (by omega) (by omega) ' '
    (number a.toNat ++ ' ' :: (number b.toNat ++ ' ' :: (number o.toNat ++ ' ' :: op))) rfl
  have rest := finishes_binary a b o nonempty solid
  obtain ⟨first, more, shape, notComment⟩ := number_shape 2
  rw [List.append_assoc, List.cons_append] at arity
  rw [Netlist.addLine, if_neg (by simp [shape, notComment]), arity]
  simp only [Bool.false_eq_true, if_false, Nat.cast_ofNat, Nat.cast_one, and_self, if_true]
  rw [Extract.Finishes] at rest
  simp only [rest]

/-- A printed line with one input adds its gate. -/
private theorem addLine_unary (c : Netlist) (a o : UInt32) {op : List Char} (nonempty : op ≠ [])
    (solid : ∀ x ∈ op, isSpace x = false) :
    c.addLine (number 1 ++ ' ' :: (number 1 ++ ' ' :: (number a.toNat ++ ' ' ::
      (number o.toNat ++ ' ' :: op)))) = c.addUnary a o op := by
  have arity := scans_arity 1 1 (by omega) (by omega) ' '
    (number a.toNat ++ ' ' :: (number o.toNat ++ ' ' :: op)) rfl
  have rest := finishes_unary a o nonempty solid
  obtain ⟨first, more, shape, notComment⟩ := number_shape 1
  rw [List.append_assoc, List.cons_append] at arity
  rw [Netlist.addLine, if_neg (by simp [shape, notComment]), arity]
  simp only [Bool.false_eq_true, if_false, Nat.cast_one, and_self, if_true, OfNat.one_ne_ofNat,
    false_and]
  rw [Extract.Finishes] at rest
  simp only [rest]

/-- The loader reads a gate line back as its gate. -/
theorem addLine_gateLine (c : Netlist) {g : Gate} (unary : g.type = .inv → g.in1 = g.in0) :
    c.addLine (gateLine g) = .ok (c.push g) := by
  obtain ⟨type, a, b, o⟩ := g
  cases type with
  | xor => exact addLine_binary c a b o (by simp) (by simp [isSpace])
  | and => exact addLine_binary c a b o (by simp) (by simp [isSpace])
  | inv =>
    have same : b = a := unary rfl
    subst same
    exact addLine_unary c b o (by simp) (by simp [isSpace])

/-- The line loop over a printed gate list appends exactly its gates. -/
theorem foldlM_gateLines {gates : List Gate} {lines : List (List Char)}
    (printed : GateLines gates lines) (unary : ∀ g ∈ gates, g.type = .inv → g.in1 = g.in0)
    (c : Netlist) : lines.foldlM Netlist.addLine c = .ok (gates.foldl Netlist.push c) := by
  induction printed generalizing c with
  | nil => rfl
  | gate g rest ih =>
    have later := fun g member => unary g (List.mem_cons_of_mem _ member)
    rw [List.foldlM_cons, addLine_gateLine c (unary g List.mem_cons_self), Outcome.ok_bind,
      ih later, List.foldl_cons]
  | empty rest ih => exact ih unary c
  | comment text oneLine rest ih =>
    have passed : c.addLine ('#' :: text) = .ok c := by
      rw [Netlist.addLine, if_pos (.inr rfl)]
    rw [List.foldlM_cons, passed, Outcome.ok_bind, ih unary]

/-! ## The header and the whole file -/

/-- The counts that a printed circuit carries. -/
def printedCounts (c : Circuit) : CircuitCounts where
  nGates := UInt64.ofNat c.gates.length
  nWires := c.nWires
  nin := 2
  nInput0 := c.nInput0
  nInput1 := c.nInput1
  nout := 1
  nOutput := c.nOutput

/-- A line feed is a blank. -/
private theorem feed_blank : isSpace '\n' = true := rfl

/-- The printed counts are read back. -/
private theorem scans_header (c : Circuit) : readCounts.Scans (headerText c) (printedCounts c) := by
  have small : c.gates.length < 2 ^ 64 := lt_trans c.gates_size (by norm_num)
  have gates := @scans_u64 [] (UInt64.ofNat c.gates.length) (by simp)
  rw [UInt64.toNat_ofNat_of_lt' small] at gates
  have wires := scans_u64 c.nWires (one_blank space_blank)
  have bundles := scans_u64 2 (one_blank feed_blank)
  have input0 := scans_u64 c.nInput0 (one_blank space_blank)
  have input1 := scans_u64 c.nInput1 (one_blank space_blank)
  have outputs := scans_u64 1 (one_blank feed_blank)
  have output := (scans_u64 c.nOutput (one_blank space_blank)).map fun nOutput =>
    { printedCounts c with nOutput }
  exact gates.bind space_blank (wires.bind feed_blank (bundles.bind space_blank
    (input0.bind space_blank (input1.bind feed_blank (outputs.bind space_blank output)))))

/-- A number is printed on one line. -/
private theorem number_oneLine (n : Nat) : '\n' ∉ number n := by
  intro member
  have digit : '\n'.isDigit = true := Nat.isDigit_of_mem_toDigits (by omega) (by omega) member
  exact absurd digit (by decide)

/-- So is a gate. -/
private theorem gateLines_oneLine {gates : List Gate} {lines : List (List Char)}
    (printed : GateLines gates lines) : ∀ line ∈ lines, '\n' ∉ line := by
  induction printed with
  | nil => simp
  | gate g rest ih =>
    refine List.forall_mem_cons.mpr ⟨?_, ih⟩
    unfold gateLine
    cases g.type <;> simp [number_oneLine]
  | empty rest ih => exact List.forall_mem_cons.mpr ⟨List.not_mem_nil, ih⟩
  | comment text oneLine rest ih => exact List.forall_mem_cons.mpr ⟨by simp [oneLine], ih⟩

/-- The netlist of a gate list. -/
theorem foldl_push (gates : List Gate) (c : Netlist) :
    gates.foldl Netlist.push c = {
      gates := c.gates ++ gates
      nAnd := c.nAnd + UInt64.ofNat (gates.countP (·.type = .and))
      nXor := c.nXor + UInt64.ofNat (gates.countP (·.type ≠ .and)) } := by
  induction gates generalizing c with
  | nil => simp
  | cons g rest ih =>
    rw [List.foldl_cons, ih]
    cases type : g.type <;>
      simp [Netlist.push, type, UInt64.ofNat_add, add_assoc, add_comm]

/-- A printed circuit loads with the counts and gates it was printed from. -/
theorem loadBristol_text (path : String) (c : Circuit) {lines : List (List Char)}
    (printed : GateLines c.gates lines) (unary : ∀ g ∈ c.gates, g.type = .inv → g.in1 = g.in0)
    (room : 4 * c.nOutput.toNat < 2 ^ 63) :
    loadBristol path (some (bristolText c lines)) = .ok { c with
      nGates := UInt64.ofNat c.gates.length
      nAnd := UInt64.ofNat c.andGates
      nXor := UInt64.ofNat (c.gates.countP (·.type ≠ .and))
      outputWires := lastWires c.nWires c.nOutput } := by
  have small : (UInt64.ofNat c.gates.length).toNat = c.gates.length :=
    UInt64.toNat_ofNat_of_lt' (lt_trans c.gates_size (by norm_num))
  have header := scans_header c '\n' (lines.flatMap fun line => line ++ ['\n']) feed_blank
  have feed : Extract.getline { rest := '\n' :: lines.flatMap fun line => line ++ ['\n'] } =
      (some [], { rest := lines.flatMap fun line => line ++ ['\n'] }) := rfl
  have gates := foldlM_gateLines printed unary {}
  have body := Extract.lines_flatMap (gateLines_oneLine printed)
  unfold loadBristol bristolText
  simp only [header, printedCounts, ne_eq, not_true_eq_false, if_false, small, c.gates_size,
    feed, body, gates, Outcome.ok_bind, foldl_push, dif_pos, List.nil_append, room, if_true,
    zero_add]
  rfl

/-! ## Loading inverts printing -/

/-- The circuits that a Bristol file describes completely: a NOT has one input
and the outputs are the last wires. -/
structure Circuit.Printable (c : Circuit) : Prop where
  unary : ∀ g ∈ c.gates, g.type = .inv → g.in1 = g.in0
  outputs : c.nOutput.toNat ≤ c.nWires.toNat
  last : c.outputWires.map UInt32.toNat =
    (List.range c.nOutput.toNat).map fun i => c.nWires.toNat - c.nOutput.toNat + i

/-- Output wire indices below 2^32 leave room for the output vector. -/
private theorem Circuit.Printable.outputs_lt {c : Circuit} (printable : c.Printable) :
    ∀ i, i < c.nOutput.toNat → c.nWires.toNat - c.nOutput.toNat + i < 2 ^ 32 := by
  intro i inside
  have member : c.nWires.toNat - c.nOutput.toNat + i ∈ c.outputWires.map UInt32.toNat := by
    rw [printable.last]
    exact List.mem_map.mpr ⟨i, List.mem_range.mpr inside, rfl⟩
  obtain ⟨wire, -, same⟩ := List.mem_map.mp member
  rw [← same]
  exact wire.toNat_lt

/-- Output wires that 32 bits hold are the last wires. -/
theorem lastWires_toNat {nWires nOutput : UInt64} (enough : nOutput.toNat ≤ nWires.toNat)
    (small : ∀ i, i < nOutput.toNat → nWires.toNat - nOutput.toNat + i < 2 ^ 32) :
    (lastWires nWires nOutput).map UInt32.toNat =
      (List.range nOutput.toNat).map fun i => nWires.toNat - nOutput.toNat + i := by
  have outputs := nOutput.toNat_lt
  rw [lastWires, List.map_map]
  apply List.map_congr_left
  intro i member
  have inside := List.mem_range.mp member
  have bounded := small i inside
  have start : (nWires - nOutput).toNat = nWires.toNat - nOutput.toNat :=
    UInt64.toNat_sub_of_le _ _ (UInt64.le_iff_toNat_le.mpr enough)
  have index : (UInt64.ofNat i).toNat = i := UInt64.toNat_ofNat_of_lt' (lt_trans inside outputs)
  simp only [Function.comp_apply, UInt64.toNat_toUInt32, UInt64.toNat_add, start, index]
  omega

/-- A printable circuit has its outputs on the last wires. -/
private theorem lastWires_eq {c : Circuit} (printable : c.Printable) :
    lastWires c.nWires c.nOutput = c.outputWires := by
  apply (List.map_injective_iff.mpr fun _ _ => UInt32.toNat_inj.mp)
  rw [printable.last, lastWires_toNat printable.outputs printable.outputs_lt]

/-- Every gate that is no AND is an XOR or a NOT. -/
private theorem countP_free (gates : List Gate) : gates.countP (·.type ≠ .and) =
    gates.countP (·.type = .xor) + gates.countP (·.type = .inv) := by
  induction gates with
  | nil => rfl
  | cons g rest ih =>
    simp only [List.countP_cons, ih]
    cases g.type <;> simp <;> omega

/-- Loading a printed circuit returns it: gates, sizes and output wires as they
were and the two counters as its gate list has them. -/
theorem printed_circuit_loads (path : String) (c : Circuit) (lines : List (List Char))
    (printable : c.Printable) (printed : GateLines c.gates lines) :
    loadBristol path (some (bristolText c lines)) = .ok { c with
      nGates := UInt64.ofNat c.gates.length
      nAnd := UInt64.ofNat (c.gates.countP (·.type = .and))
      nXor := UInt64.ofNat (c.gates.countP (·.type = .xor) + c.gates.countP (·.type = .inv)) } := by
  have room : 4 * c.nOutput.toNat < 2 ^ 63 := by
    have last := printable.outputs_lt (c.nOutput.toNat - 1)
    omega
  rw [loadBristol_text path c printed printable.unary room, lastWires_eq printable, countP_free]
  rfl

/-- Three gates on two input wires. -/
def threeGates : Circuit where
  nGates := 3
  nWires := 5
  nInput0 := 1
  nInput1 := 1
  nOutput := 1
  nAnd := 1
  nXor := 2
  gates := [{ type := .and, in0 := 0, in1 := 1, out := 2 }, { type := .xor, in0 := 2, in1 := 0, out := 3 },
    { type := .inv, in0 := 3, in1 := 3, out := 4 }]
  outputWires := [4]
  gates_size := by decide

/-- Three gates with an empty line before and a comment line after them. -/
theorem threeGates_loads : loadBristol "three.txt" (some (bristolText threeGates
    ([] :: (threeGates.gates.map gateLine ++ [['#', ' ', 'e', 'n', 'd']])))) = .ok threeGates := by
  have printable : threeGates.Printable := ⟨by decide, by decide, by decide⟩
  have printed : GateLines threeGates.gates
      ([] :: (threeGates.gates.map gateLine ++ [['#', ' ', 'e', 'n', 'd']])) :=
    .empty (.gate _ (.gate _ (.gate _ (.comment _ (by decide) .nil))))
  exact printed_circuit_loads "three.txt" threeGates _ printable printed

end SimpleOprf.GcMmo
