import Mathlib.Logic.Function.Basic
import SimpleOprf.Garbling.HalfGate

/-!
# Garbled evaluation of Boolean circuits

A circuit is a list of gates over numbered wires, which later gates may assign
again. It has three interpretations: on bits, on the garbler's zero labels, and
on the evaluator's active labels. `Aligned` relates the three states; every gate
preserves it, so garbled evaluation computes the plain value on every wire.

The development is over any scheme of labels with a table for each AND gate, and
assumes only that evaluating a table gives the active label of the conjunction.
-/

namespace SimpleOprf.Garbling

/-- The gate operations of a free-XOR circuit. -/
inductive Operation where
  | xor
  | and
  | inv
deriving DecidableEq, Repr

/-- One gate; `inv` ignores its second input. -/
structure Gate where
  operation : Operation
  left : Nat
  right : Nat
  out : Nat
deriving DecidableEq, Repr

/-- Assign one gate on bits. -/
def plainGate (bits : Nat → ZMod 2) (gate : Gate) : Nat → ZMod 2 :=
  Function.update bits gate.out <|
    match gate.operation with
    | .xor => bits gate.left + bits gate.right
    | .and => bits gate.left * bits gate.right
    | .inv => bits gate.left + 1

/-- The plain value of every wire. -/
def plain (gates : List Gate) (bits : Nat → ZMod 2) : Nat → ZMod 2 :=
  gates.foldl plainGate bits

variable {L : Type} [AddCommGroup L] [Module (ZMod 2) L]

/-- The garbler's state: a zero label for every wire and the tables so far. -/
structure Garbled (L : Type) where
  zero : Nat → L
  tables : List (Table L)

/-- The evaluator's state: an active label for every wire and the number of AND
gates already evaluated. -/
structure Evaluated (L : Type) where
  label : Nat → L
  gate : Nat

namespace Scheme

variable (scheme : Scheme L)

/-- Assign one gate on zero labels; an AND gate appends its table. -/
def garbleGate (state : Garbled L) (gate : Gate) : Garbled L :=
  match gate.operation with
  | .xor =>
      { state with
        zero := Function.update state.zero gate.out (state.zero gate.left + state.zero gate.right) }
  | .inv =>
      { state with
        zero := Function.update state.zero gate.out (state.zero gate.left + scheme.delta) }
  | .and =>
      let a := state.zero gate.left
      let b := state.zero gate.right
      let cipher := scheme.table state.tables.length (scheme.select b) a b
      { zero := Function.update state.zero gate.out
          (scheme.outputZero state.tables.length cipher a b)
        tables := state.tables ++ [cipher] }

/-- Garble a gate list. -/
def garble (gates : List Gate) (state : Garbled L) : Garbled L :=
  gates.foldl scheme.garbleGate state

/-- Assign one gate on active labels; an AND gate consumes the next table. -/
def evaluateGate (tables : List (Table L)) (state : Evaluated L) (gate : Gate) : Evaluated L :=
  match gate.operation with
  | .xor =>
      { state with
        label := Function.update state.label gate.out
          (state.label gate.left + state.label gate.right) }
  | .inv => { state with label := Function.update state.label gate.out (state.label gate.left) }
  | .and =>
      { label := Function.update state.label gate.out
          (scheme.evaluate state.gate (tables.getD state.gate ⟨0, 0⟩)
            (state.label gate.left) (state.label gate.right))
        gate := state.gate + 1 }

/-- Evaluate a gate list on active labels. -/
def evaluateCircuit (tables : List (Table L)) (gates : List Gate) (state : Evaluated L) :
    Evaluated L :=
  gates.foldl (scheme.evaluateGate tables) state

/-- The three interpreters agree: each active label is the zero label shifted by
the plain bit, and the evaluator is at the garbler's table. -/
structure Aligned (garbled : Garbled L) (evaluated : Evaluated L) (bits : Nat → ZMod 2) : Prop where
  label : ∀ wire, evaluated.label wire = active (garbled.zero wire) scheme.delta (bits wire)
  gate : evaluated.gate = garbled.tables.length

variable {scheme}

/-- A gate keeps the labels aligned when what it writes is. -/
private theorem update_aligned {zero label : Nat → L} {bits : Nat → ZMod 2} {delta : L}
    (aligned : ∀ wire, label wire = active (zero wire) delta (bits wire)) {out : Nat}
    {newZero newLabel : L} {newBit : ZMod 2} (written : newLabel = active newZero delta newBit)
    (wire : Nat) :
    Function.update label out newLabel wire =
      active (Function.update zero out newZero wire) delta (Function.update bits out newBit wire) := by
  by_cases same : wire = out
  · subst same
    simpa using written
  · simpa [Function.update_of_ne same] using aligned wire

/-- Garbling only appends tables. -/
theorem garbleGate_extends_tables (state : Garbled L) (gate : Gate) :
    state.tables <+: (scheme.garbleGate state gate).tables := by
  unfold garbleGate
  split
  · exact List.prefix_rfl
  · exact List.prefix_rfl
  · exact List.prefix_append _ _

/-- Garbling only appends tables. -/
theorem garble_extends_tables (gates : List Gate) (state : Garbled L) :
    state.tables <+: (scheme.garble gates state).tables := by
  induction gates generalizing state with
  | nil => exact List.prefix_rfl
  | cons gate rest ih =>
    exact (garbleGate_extends_tables state gate).trans (ih (scheme.garbleGate state gate))

/-- Garbling appends one table for each AND gate. -/
theorem length_garble_tables (gates : List Gate) (state : Garbled L) :
    (scheme.garble gates state).tables.length =
      state.tables.length + gates.countP (·.operation = .and) := by
  induction gates generalizing state with
  | nil => rfl
  | cons gate rest ih =>
    obtain ⟨operation, left, right, out⟩ := gate
    change (scheme.garble rest (scheme.garbleGate state _)).tables.length = _
    rw [ih]
    cases operation with
    | xor => simp [garbleGate]
    | inv => simp [garbleGate]
    | and =>
      simp only [garbleGate, List.length_append, List.length_singleton, List.countP_cons,
        decide_true, if_true]
      omega

/-- A wire that no gate writes keeps its zero label. -/
theorem garble_zero_of_untouched (gates : List Gate) (state : Garbled L) {wire : Nat}
    (untouched : ∀ gate ∈ gates, gate.out ≠ wire) :
    (scheme.garble gates state).zero wire = state.zero wire := by
  induction gates generalizing state with
  | nil => rfl
  | cons gate rest ih =>
    have head := untouched gate List.mem_cons_self
    have kept : (scheme.garbleGate state gate).zero wire = state.zero wire := by
      unfold garbleGate
      split <;> exact Function.update_of_ne head.symm _ _
    have tail := ih (scheme.garbleGate state gate)
      fun other member => untouched other (List.mem_cons_of_mem _ member)
    exact tail.trans kept

/-- One gate keeps the three interpreters aligned, given tables that extend the
garbler's. -/
theorem Aligned.step {garbled : Garbled L} {evaluated : Evaluated L} {bits : Nat → ZMod 2}
    (aligned : scheme.Aligned garbled evaluated bits) {tables : List (Table L)} (gate : Gate)
    (extends_ : (scheme.garbleGate garbled gate).tables <+: tables) :
    scheme.Aligned (scheme.garbleGate garbled gate) (scheme.evaluateGate tables evaluated gate)
      (plainGate bits gate) := by
  obtain ⟨operation, left, right, out⟩ := gate
  have leftLabel := aligned.label left
  have rightLabel := aligned.label right
  cases operation with
  | xor =>
    refine ⟨update_aligned aligned.label ?_, aligned.gate⟩
    rw [leftLabel, rightLabel, active_add]
  | inv =>
    refine ⟨update_aligned aligned.label ?_, aligned.gate⟩
    rw [leftLabel, active_shift]
  | and =>
    obtain ⟨later, rfl⟩ := extends_
    have found : (garbled.tables ++ [scheme.table garbled.tables.length
          (scheme.select (garbled.zero right)) (garbled.zero left) (garbled.zero right)] ++
        later).getD garbled.tables.length ⟨0, 0⟩ =
          scheme.table garbled.tables.length (scheme.select (garbled.zero right))
            (garbled.zero left) (garbled.zero right) := by
      simp [List.getD_eq_getElem?_getD]
    refine ⟨update_aligned aligned.label ?_, ?_⟩
    · simp only [garbleGate, leftLabel, rightLabel, aligned.gate, found]
      rw [scheme.evaluate_select]
    · simp [garbleGate, evaluateGate, aligned.gate]

/-- Garbled evaluation with the garbler's tables computes the plain value of
every wire. -/
theorem Aligned.run {garbled : Garbled L} {evaluated : Evaluated L} {bits : Nat → ZMod 2}
    (aligned : scheme.Aligned garbled evaluated bits) {tables : List (Table L)}
    (gates : List Gate) (extends_ : (scheme.garble gates garbled).tables <+: tables) :
    scheme.Aligned (scheme.garble gates garbled) (scheme.evaluateCircuit tables gates evaluated)
      (plain gates bits) := by
  induction gates generalizing garbled evaluated bits with
  | nil => exact aligned
  | cons gate rest ih =>
    have now := (garble_extends_tables rest (scheme.garbleGate garbled gate)).trans extends_
    exact ih (aligned.step gate now) extends_

end Scheme

end SimpleOprf.Garbling
