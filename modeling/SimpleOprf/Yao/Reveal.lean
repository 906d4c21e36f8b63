import SimpleOprf.Basis.Loops
import SimpleOprf.Basis.Reader
import SimpleOprf.Yao.Agreement
import SimpleOprf.Yao.Threads

/-!
# Revealing

The garbler keeps the mask of every wire that it opens and the evaluator takes
the masks off. `Secret::reveal` is told how many bits to open, but opens the
whole register, up to the size of a clear register.

Calls, not triples, are what the two sides do in step: both go through the same
list, one keeping masks and the other taking them off.
-/

namespace SimpleOprf.Yao

open SimpleOprf.Basis

/-- `GC::Clear`. -/
abbrev Clear := BitVec 64

/-- `Clear::N_BITS`. -/
def clearBits : Nat := 64

/-- Three arguments of the instruction. -/
structure RevealTriple where
  n : Nat
  r0 : Nat
  r1 : Nat
deriving DecidableEq, Repr

/-- The output masks of a party, kept or still to be consumed, and its flag. -/
structure OutputState where
  outputMasks : List Bool
  tainted : Bool

section Processor

variable {Wire : Type} (getOutput : Wire → OutputState → Outcome (Bool × OutputState))

/-- The loop of `Secret::reveal` over the wires from number `i` on. -/
def openWires : List Wire → Nat → Clear → OutputState → Outcome (Clear × OutputState)
  | [], _, x, s => .ok (x, s)
  | wire :: rest, i, x, s => do
    let (out, s) ← getOutput wire s
    openWires rest (i + 1) (x ^^^ ((BitVec.ofBool out).setWidth 64 <<< i)) s

/-- `Secret::reveal`. The number of bits is checked and then ignored: up to 64 wires
are opened. -/
def Secret.reveal (registers : List Wire) (nBits : Nat) (s : OutputState) :
    Outcome (Clear × OutputState) :=
  if registers.length < nBits then .error (.thrown "not enough wires for revealing")
  else openWires getOutput (registers.take (min clearBits registers.length)) 0 0 s

/-- One register of a triple. -/
def Processor.revealRegister (S : Memory Wire) (t : RevealTriple)
    (state : (Nat → Clear) × OutputState) (i : Nat) : Outcome ((Nat → Clear) × OutputState) := do
  let (x, s) ← Secret.reveal getOutput (S (t.r1 + i)) (min clearBits (t.n - i * clearBits)) state.2
  return (Function.update state.1 (t.r0 + i) x, s)

/-- One triple: as many registers as its bits need. -/
def Processor.revealTriple (S : Memory Wire) (state : (Nat → Clear) × OutputState)
    (t : RevealTriple) : Outcome ((Nat → Clear) × OutputState) :=
  (List.range (divCeil t.n defaultLength)).foldlM (Processor.revealRegister getOutput S t) state

/-- `Processor::reveal`: all triples. -/
def Processor.reveal (S : Memory Wire) (args : List RevealTriple)
    (state : (Nat → Clear) × OutputState) : Outcome ((Nat → Clear) × OutputState) :=
  args.foldlM (Processor.revealTriple getOutput S) state

end Processor

/-- The clear registers that an instruction names. -/
def clearRegisters (args : List RevealTriple) : List Nat :=
  args.flatMap fun t => (List.range (divCeil t.n clearBits)).map fun i => t.r0 + i

namespace YaoGarbleWire

/-- The garbler's `get_output`: keeps the signal bit as a mask and returns zero. -/
def getOutput (wire : Key) (s : OutputState) : Outcome (Bool × OutputState) :=
  .ok (false, ⟨s.outputMasks ++ [wire.getSignal], true⟩)

/-- `unpack` of one register after the other. -/
def unpack : List Nat → (Nat → Clear) → Reader (Nat → Clear)
  | [], C => pure C
  | r :: rest, C => do
    let x ← Reader.word (.thrown "insufficient data")
    unpack rest (Function.update C r x.toBitVec)

/-- `reveal_inst`, with the message that can be received, if any. The result says
whether it threw `needs_cleaning`. -/
def revealInst (continuous : Bool) (S : Memory Key) (args : List RevealTriple)
    (buffer : List UInt8) (C : Nat → Clear) (g : OutputState) :
    Outcome (Bool × (Nat → Clear) × OutputState) :=
  if continuous then do
    let (C, g) ← if g.tainted then Processor.reveal getOutput S args (C, g) else .ok (C, g)
    match untaint g.tainted with
    | (tainted, true) => .ok (true, C, { g with tainted })
    | (_, false) =>
      let C ← (unpack (clearRegisters args) C).parse buffer
      .ok (false, C, { g with tainted := true })
  else do
    let (C, g) ← Processor.reveal getOutput S args (C, g)
    .ok (false, C, g)

end YaoGarbleWire

namespace YaoEvalWire

/-- The evaluator's `get_output`: takes the next mask off the signal bit. -/
def getOutput (wire : Key) (s : OutputState) : Outcome (Bool × OutputState) :=
  match s.outputMasks with
  | [] => .error (.thrown "not enough data in buffer")
  | mask :: rest => .ok (wire.getSignal ^^ mask, ⟨rest, true⟩)

/-- `reveal_inst`, with the message that it sends. -/
def revealInst (continuous : Bool) (S : Memory Key) (args : List RevealTriple) (C : Nat → Clear)
    (e : OutputState) : Outcome (List UInt8 × (Nat → Clear) × OutputState) := do
  let (C, e) ← Processor.reveal getOutput S args (C, e)
  if continuous then
    return ((clearRegisters args).flatMap fun r => le64 (UInt64.ofBitVec (C r)), C, e)
  else
    return ([], C, e)

end YaoEvalWire

/-- What both parties have after the instruction. -/
structure Revealed where
  /-- The masks that the garbler has appended. -/
  masks : List Bool
  /-- The masks that the evaluator has not consumed. -/
  left : List Bool
  garbler : Nat → Clear
  evaluator : Nat → Clear

/-- The instruction on both sides. In continuous mode the garbler executes it
twice, sends its buffers in between and receives what the evaluator has opened. -/
def revealBoth (continuous : Bool) (G E : Memory Key) (args : List RevealTriple)
    (kept later : List Bool) (CG CE : Nat → Clear) : Outcome Revealed := do
  let (cleaning, CG, g) ← YaoGarbleWire.revealInst continuous G args [] CG ⟨kept, true⟩
  let masks := g.outputMasks.drop kept.length
  let (buffer, CE, e) ← YaoEvalWire.revealInst continuous E args CE ⟨masks ++ later, true⟩
  if cleaning then
    let (_, CG, _) ← YaoGarbleWire.revealInst continuous G args buffer CG { g with outputMasks := [] }
    return ⟨masks, e.outputMasks, CG, CE⟩
  else
    return ⟨masks, e.outputMasks, CG, CE⟩

/-! ## One register after the other -/

/-- One call of `Secret::reveal`. -/
structure RevealCall where
  nBits : Nat
  dest : Nat
  source : Nat
deriving DecidableEq, Repr

/-- The registers that a triple opens. -/
def RevealTriple.calls (t : RevealTriple) : List RevealCall :=
  (List.range (divCeil t.n defaultLength)).map fun i =>
    ⟨min clearBits (t.n - i * clearBits), t.r0 + i, t.r1 + i⟩

/-- The clear registers after some calls that compute `x`. -/
def written (x : Nat → Clear) (calls : List RevealCall) (C : Nat → Clear) : Nat → Clear :=
  calls.foldl (fun C call => Function.update C call.dest (x call.source)) C

section Calls

variable {Wire : Type} {getOutput : Wire → OutputState → Outcome (Bool × OutputState)}

/-- The effect of one call on the clear registers and the masks. -/
def Processor.revealCall (getOutput : Wire → OutputState → Outcome (Bool × OutputState))
    (S : Memory Wire) (state : (Nat → Clear) × OutputState) (call : RevealCall) :
    Outcome ((Nat → Clear) × OutputState) := do
  let (x, s) ← Secret.reveal getOutput (S call.source) call.nBits state.2
  return (Function.update state.1 call.dest x, s)

/-- The nested loops are one loop over the calls. -/
theorem Processor.reveal_eq_foldlM (S : Memory Wire) (args : List RevealTriple)
    (state : (Nat → Clear) × OutputState) :
    Processor.reveal getOutput S args state =
      (args.flatMap RevealTriple.calls).foldlM (Processor.revealCall getOutput S) state := by
  induction args generalizing state with
  | nil => rfl
  | cons t rest ih =>
    rw [List.flatMap_cons, List.foldlM_append, RevealTriple.calls, List.foldlM_map]
    exact bind_congr fun state => ih state

end Calls

/-- The clear registers are those that the calls write. -/
theorem clearRegisters_eq (args : List RevealTriple) :
    clearRegisters args = (args.flatMap RevealTriple.calls).map RevealCall.dest := by
  simp only [clearRegisters, RevealTriple.calls, List.map_flatMap, List.map_map]
  rfl

@[simp] theorem written_append (x : Nat → Clear) (first second : List RevealCall)
    (C : Nat → Clear) : written x (first ++ second) C = written x second (written x first C) := by
  simp [written]

/-- A register that no call writes. -/
theorem written_of_notMem {x : Nat → Clear} {calls : List RevealCall} {r : Nat}
    (absent : r ∉ calls.map RevealCall.dest) (C : Nat → Clear) : written x calls C r = C r := by
  have frame : ∀ (C : Nat → Clear) (call : RevealCall) (j : Nat), j ≠ call.dest →
      Function.update C call.dest (x call.source) j = C j :=
    fun C call j other => Function.update_of_ne other _ _
  exact @foldl_untouched _ _ _ _ _ (fun C j => C j) RevealCall.dest frame calls r
    (fun call member same => absent (List.mem_map.mpr ⟨call, member, same.symm⟩)) C

/-- The registers that the calls of one triple write. -/
theorem written_calls (x : Nat → Clear) (t : RevealTriple) (C : Nat → Clear) {i : Nat}
    (inside : i < divCeil t.n defaultLength) :
    written x t.calls C (t.r0 + i) = x (t.r1 + i) := by
  unfold RevealTriple.calls
  generalize divCeil t.n defaultLength = m at inside
  induction m with
  | zero => omega
  | succ m ih =>
    rw [List.range_succ, List.map_append, written_append]
    rcases Nat.lt_succ_iff_lt_or_eq.mp inside with before | rfl
    · rw [written_of_notMem (by simp; omega), ih before]
    · simp [written]

/-- Registers that all get the value of `x` at their own number. -/
theorem foldl_update_of_mem {registers : List Nat} {x : Nat → Clear} {r : Nat}
    (C : Nat → Clear) (member : r ∈ registers ∨ C r = x r) :
    registers.foldl (fun C r => Function.update C r (x r)) C r = x r := by
  induction registers generalizing C with
  | nil => exact member.resolve_left List.not_mem_nil
  | cons first rest ih =>
    rw [List.foldl_cons]
    refine ih _ ?_
    by_cases here : r = first
    · subst here
      exact .inr (Function.update_self ..)
    · rw [Function.update_of_ne here]
      exact member.imp_left fun found => (List.mem_cons.mp found).resolve_left here

/-- Every call leaves the register that it names at zero. -/
theorem written_zero {calls : List RevealCall} {r : Nat} (member : r ∈ calls.map RevealCall.dest)
    (C : Nat → Clear) : written (fun _ => 0) calls C r = 0 := by
  have zeros := foldl_update_of_mem (x := fun _ => 0) C (.inl member)
  rwa [List.foldl_map] at zeros

/-! ## What is opened -/

/-- The wires of a register that are opened. -/
def opened {α : Type} (registers : List α) : List α :=
  registers.take (min clearBits registers.length)

/-- The masks that go with some calls. -/
def openedMasks (G : Memory Key) (calls : List RevealCall) : List Bool :=
  calls.flatMap fun call => (opened (G call.source)).map Key.getSignal

/-- A clear register made from bits, the first one at place `i`. -/
def packBits : List Bool → Nat → Clear → Clear
  | [], _, x => x
  | b :: bits, i, x => packBits bits (i + 1) (x ^^^ ((BitVec.ofBool b).setWidth 64 <<< i))

/-- The bits that a loop from place `i` on packs. -/
theorem getLsbD_packBits (bits : List Bool) (i : Nat) (x : Clear) {j : Nat} (inside : j < 64) :
    (packBits bits i x).getLsbD j =
      (x.getLsbD j ^^ (decide (i ≤ j) && bits.getD (j - i) false)) := by
  induction bits generalizing i x with
  | nil => simp [packBits]
  | cons b bits ih =>
    rw [packBits, ih, BitVec.getLsbD_xor, BitVec.getLsbD_shiftLeft, Bool.xor_assoc]
    congr 1
    rcases Nat.lt_trichotomy j i with below | rfl | above
    · simp [below, Nat.not_le_of_lt below, Nat.not_le_of_lt (Nat.lt_succ_of_lt below)]
    · simp [inside]
    · obtain ⟨d, rfl⟩ : ∃ d, j = i + 1 + d := ⟨j - (i + 1), by omega⟩
      have next : i + 1 + d - i = d + 1 := by omega
      have past : i ≤ i + 1 + d := by omega
      rw [next, Nat.add_sub_cancel_left, List.getD_cons_succ]
      simp [past]

/-! ## The garbler -/

/-- The masks of some wires are kept. -/
def OutputState.keep (s : OutputState) (masks : List Bool) : OutputState :=
  ⟨s.outputMasks ++ masks, s.tainted || !masks.isEmpty⟩

theorem OutputState.keep_nil (s : OutputState) : s.keep [] = s := by
  simp [keep]

/-- Masks that are kept add up. -/
theorem OutputState.keep_keep (s : OutputState) (first second : List Bool) :
    (s.keep first).keep second = s.keep (first ++ second) := by
  have empty : (first ++ second).isEmpty = (first.isEmpty && second.isEmpty) := by
    cases first <;> rfl
  simp [keep, List.append_assoc, Bool.or_assoc, empty]

/-- The garbler keeps the signal bits and opens nothing. -/
theorem YaoGarbleWire.openWires_eq (wires : List Key) (i : Nat) (x : Clear) (s : OutputState) :
    openWires YaoGarbleWire.getOutput wires i x s = .ok (x, s.keep (wires.map Key.getSignal)) := by
  induction wires generalizing i s with
  | nil => rw [openWires, List.map_nil, OutputState.keep_nil]
  | cons wire rest ih =>
    have blank : x ^^^ ((BitVec.ofBool false).setWidth 64 <<< i) = x := by simp
    have kept : (⟨s.outputMasks ++ [wire.getSignal], true⟩ : OutputState) =
        s.keep [wire.getSignal] := by
      simp [OutputState.keep]
    rw [openWires, getOutput, Outcome.ok_bind]
    dsimp only
    rw [blank, ih, kept, OutputState.keep_keep]
    rfl

/-- The garbler keeps the masks in the order of the calls and computes zeros. -/
theorem YaoGarbleWire.foldlM_calls {G : Memory Key} {calls : List RevealCall}
    (enough : ∀ call ∈ calls, call.nBits ≤ (G call.source).length) (C : Nat → Clear)
    (s : OutputState) :
    calls.foldlM (Processor.revealCall getOutput G) (C, s) =
      .ok (written (fun _ => 0) calls C, s.keep (openedMasks G calls)) := by
  induction calls generalizing C s with
  | nil =>
    rw [openedMasks, List.flatMap_nil, OutputState.keep_nil]
    rfl
  | cons call rest ih =>
    have first : Processor.revealCall getOutput G (C, s) call =
        .ok (Function.update C call.dest 0,
          s.keep ((opened (G call.source)).map Key.getSignal)) := by
      rw [Processor.revealCall, Secret.reveal,
        if_neg (Nat.not_lt_of_le (enough call List.mem_cons_self)), openWires_eq]
      rfl
    rw [List.foldlM_cons, first, Outcome.ok_bind,
      ih fun other member => enough other (List.mem_cons_of_mem _ member),
      OutputState.keep_keep]
    rfl

/-! ## The evaluator -/

/-- The flag once some masks have been consumed. -/
def OutputState.consumed (left : List Bool) (tainted : Bool) (masks : List Bool) : OutputState :=
  ⟨left, tainted || !masks.isEmpty⟩

/-- The evaluator takes the masks off in order. -/
theorem YaoEvalWire.openWires_eq {wires : List Key} {masks : List Bool}
    (aligned : wires.length = masks.length) (i : Nat) (x : Clear) (left : List Bool)
    (tainted : Bool) :
    openWires YaoEvalWire.getOutput wires i x ⟨masks ++ left, tainted⟩ =
      .ok (packBits (List.zipWith (fun wire mask => wire.getSignal ^^ mask) wires masks) i x,
        OutputState.consumed left tainted masks) := by
  induction wires generalizing masks i x tainted with
  | nil =>
    rw [List.length_eq_zero_iff.mp aligned.symm]
    simp [openWires, packBits, OutputState.consumed]
  | cons wire rest ih =>
    obtain ⟨mask, masks, rfl⟩ := List.exists_cons_of_length_eq_add_one aligned.symm
    rw [openWires, getOutput]
    dsimp only [List.cons_append]
    rw [Outcome.ok_bind]
    dsimp only
    rw [ih (Nat.succ.inj aligned)]
    simp [packBits, OutputState.consumed]

section Aligned

variable {delta : Key} {G E : Memory Key} {V : Memory Bool}

/-- Taking the masks off gives the plain bits. -/
theorem Carries.unmask (odd : delta.getSignal = true) {g e : List Key} {v : List Bool}
    (carries : Carries delta g e v) :
    List.zipWith (fun wire mask => wire.getSignal ^^ mask) (opened e)
      ((opened g).map Key.getSignal) = opened v := by
  have signal : ∀ (a : Key) (b : Bool), ((keyOf a delta b).getSignal ^^ a.getSignal) = b := by
    intro a b
    cases b with
    | false => simp [keyOf]
    | true =>
      have flipped : (Key.xor a delta).getSignal = (a.getSignal ^^ delta.getSignal) :=
        BitVec.getLsbD_xor
      rw [keyOf, if_pos rfl, flipped, odd]
      cases a.getSignal <;> rfl
  refine List.ext_getElem ?_ fun k low high => ?_
  · simp [opened, carries.garbler, carries.evaluator]
  · have key := carries.keys k
    simp only [opened, List.length_take, lt_min_iff] at high
    have inG : k < g.length := by rw [carries.garbler]; exact high.2
    have inE : k < e.length := by rw [carries.evaluator]; exact high.2
    rw [List.getD_eq_getElem _ _ inG, List.getD_eq_getElem _ _ inE,
      List.getD_eq_getElem _ _ high.2] at key
    simp only [opened, List.getElem_zipWith, List.getElem_map, List.getElem_take, key, signal]

/-- The evaluator takes the masks in the order in which the garbler kept them. -/
theorem YaoEvalWire.foldlM_calls (odd : delta.getSignal = true) (aligned : Aligned delta G E V)
    {calls : List RevealCall} (enough : ∀ call ∈ calls, call.nBits ≤ (V call.source).length)
    (C : Nat → Clear) (left : List Bool) (tainted : Bool) :
    calls.foldlM (Processor.revealCall getOutput E)
        (C, ⟨openedMasks G calls ++ left, tainted⟩) =
      .ok (written (fun r => packBits (opened (V r)) 0 0) calls C,
        OutputState.consumed left tainted (openedMasks G calls)) := by
  induction calls generalizing C tainted with
  | nil => simp [openedMasks, OutputState.consumed, written, pure, Except.pure]
  | cons call rest ih =>
    have carries := aligned call.source
    have counts : (opened (E call.source)).length =
        ((opened (G call.source)).map Key.getSignal).length := by
      simp [opened, carries.garbler, carries.evaluator]
    have enoughE : ¬(E call.source).length < call.nBits := by
      rw [carries.evaluator]
      exact Nat.not_lt_of_le (enough call List.mem_cons_self)
    have first : Processor.revealCall getOutput E
        (C, ⟨openedMasks G (call :: rest) ++ left, tainted⟩) call =
        .ok (Function.update C call.dest (packBits (opened (V call.source)) 0 0),
          OutputState.consumed (openedMasks G rest ++ left) tainted
            ((opened (G call.source)).map Key.getSignal)) := by
      rw [Processor.revealCall, Secret.reveal, if_neg enoughE, openedMasks, List.flatMap_cons,
        List.append_assoc]
      dsimp only
      rw [← opened, openWires_eq counts, carries.unmask odd]
      rfl
    rw [List.foldlM_cons, first, Outcome.ok_bind, OutputState.consumed,
      ih fun other member => enough other (List.mem_cons_of_mem _ member)]
    have empty : ∀ first second : List Bool,
        (first ++ second).isEmpty = (first.isEmpty && second.isEmpty) := by
      intro first second
      cases first <;> rfl
    simp [written, OutputState.consumed, openedMasks, empty, Bool.or_assoc]

end Aligned

/-! ## Both parties -/

/-- The garbler reads back the registers that it is sent. -/
theorem YaoGarbleWire.reads_unpack (registers : List Nat) (x C : Nat → Clear) :
    (unpack registers C).Reads (registers.flatMap fun r => le64 (UInt64.ofBitVec (x r)))
      (registers.foldl (fun C r => Function.update C r (x r)) C) := by
  induction registers generalizing C with
  | nil => exact Reader.Reads.pure C
  | cons r rest ih =>
    rw [List.flatMap_cons]
    exact (Reader.reads_word _ _).bind (ih _)

/-- The check of `Secret::reveal` passes for every register. -/
def Enough (V : Memory Bool) (args : List RevealTriple) : Prop :=
  ∀ call ∈ args.flatMap RevealTriple.calls, call.nBits ≤ (V call.source).length

section Both

variable {delta : Key} {G E : Memory Key} {V : Memory Bool}

section Instructions

variable {args : List RevealTriple}

/-- What the instruction does to the garbler. -/
theorem YaoGarbleWire.reveal_eq (enough : ∀ call ∈ args.flatMap RevealTriple.calls,
    call.nBits ≤ (G call.source).length) (C : Nat → Clear) (s : OutputState) :
    Processor.reveal getOutput G args (C, s) =
      .ok (written (fun _ => 0) (args.flatMap RevealTriple.calls) C,
        s.keep (openedMasks G (args.flatMap RevealTriple.calls))) := by
  rw [Processor.reveal_eq_foldlM, foldlM_calls enough]

/-- The garbler starts over once its buffers have gone out. -/
theorem YaoGarbleWire.revealInst_tainted (enough : ∀ call ∈ args.flatMap RevealTriple.calls,
    call.nBits ≤ (G call.source).length) (continuous : Bool) (buffer : List UInt8)
    (C : Nat → Clear) (kept : List Bool) :
    revealInst continuous G args buffer C ⟨kept, true⟩ =
      .ok (continuous, written (fun _ => 0) (args.flatMap RevealTriple.calls) C,
        ⟨kept ++ openedMasks G (args.flatMap RevealTriple.calls), !continuous⟩) := by
  cases continuous with
  | false => simp [revealInst, reveal_eq enough, OutputState.keep]
  | true => simp [revealInst, reveal_eq enough, OutputState.keep, untaint]

/-- The garbler takes over the clear registers of the evaluator. -/
theorem YaoGarbleWire.revealInst_received (x C : Nat → Clear) (masks : List Bool) :
    revealInst true G args
        ((clearRegisters args).flatMap fun r => le64 (UInt64.ofBitVec (x r))) C ⟨masks, false⟩ =
      .ok (false, (clearRegisters args).foldl (fun C r => Function.update C r (x r)) C,
        ⟨masks, true⟩) := by
  simp [revealInst, untaint, (reads_unpack (clearRegisters args) x C).parse_eq]

/-- What the instruction does to an evaluator that has the masks. -/
theorem YaoEvalWire.revealInst_eq (odd : delta.getSignal = true) (aligned : Aligned delta G E V)
    (enough : Enough V args) (continuous : Bool) (C : Nat → Clear) (later : List Bool) :
    revealInst continuous E args C
        ⟨openedMasks G (args.flatMap RevealTriple.calls) ++ later, true⟩ =
      .ok (if continuous then (clearRegisters args).flatMap fun r =>
          le64 (UInt64.ofBitVec (written (fun r => packBits (opened (V r)) 0 0)
            (args.flatMap RevealTriple.calls) C r)) else [],
        written (fun r => packBits (opened (V r)) 0 0) (args.flatMap RevealTriple.calls) C,
        ⟨later, true⟩) := by
  rw [revealInst, Processor.reveal_eq_foldlM, foldlM_calls odd aligned enough]
  cases continuous with
  | false => simp [OutputState.consumed, pure, Except.pure]
  | true => simp [OutputState.consumed, pure, Except.pure]

/-- Both parties open the same wires, and the evaluator consumes what the garbler has kept. -/
theorem revealBoth_eq (odd : delta.getSignal = true) (aligned : Aligned delta G E V)
    (enough : Enough V args) (continuous : Bool) (kept later : List Bool) (CG CE : Nat → Clear) :
    ∃ R, revealBoth continuous G E args kept later CG CE = .ok R ∧
      R.masks = openedMasks G (args.flatMap RevealTriple.calls) ∧ R.left = later ∧
      R.evaluator = written (fun r => packBits (opened (V r)) 0 0)
        (args.flatMap RevealTriple.calls) CE ∧
      ∀ r ∈ clearRegisters args, R.garbler r = if continuous then R.evaluator r else 0 := by
  have enoughG : ∀ call ∈ args.flatMap RevealTriple.calls,
      call.nBits ≤ (G call.source).length := by
    intro call member
    rw [(aligned call.source).garbler]
    exact enough call member
  rw [revealBoth, YaoGarbleWire.revealInst_tainted enoughG, Outcome.ok_bind]
  dsimp only
  rw [List.drop_left, YaoEvalWire.revealInst_eq odd aligned enough, Outcome.ok_bind]
  cases continuous with
  | false =>
    refine ⟨_, rfl, rfl, rfl, rfl, fun r member => ?_⟩
    rw [clearRegisters_eq] at member
    exact written_zero member CG
  | true =>
    simp only [if_true, Bool.not_true, YaoGarbleWire.revealInst_received, Outcome.ok_bind]
    exact ⟨_, rfl, rfl, rfl, rfl, fun r member => foldl_update_of_mem _ (.inl member)⟩

end Instructions

end Both

/-! ## Exact registers -/

/-- The masks of the bits that a triple asks for, one for each bit. -/
def askedMasks (G : Memory Key) (t : RevealTriple) : List Bool :=
  (List.range t.n).map fun b => ((G (t.r1 + b / clearBits)).getD (b % clearBits) default).getSignal

/-- No register of a triple holds more wires than are asked of it, up to the size
of a clear register, nor fewer. -/
def Exact (V : Memory Bool) (t : RevealTriple) : Prop :=
  ∀ i < divCeil t.n clearBits,
    min clearBits (V (t.r1 + i)).length = min clearBits (t.n - i * clearBits)

/-- The clear registers of every triple hold its low bits and zeros above them,
unless a later triple writes them again. -/
def Opens (V : Memory Bool) (args : List RevealTriple) (C : Nat → Clear) : Prop :=
  ∀ before t after, args = before ++ t :: after → ∀ i < divCeil t.n clearBits,
    t.r0 + i ∉ clearRegisters after → ∀ j < clearBits,
      (C (t.r0 + i)).getLsbD j =
        (decide (i * clearBits + j < t.n) && (V (t.r1 + i)).getD j false)

/-- A function on the wires that are opened. -/
theorem map_opened {α β : Type} [Inhabited α] (f : α → β) (registers : List α) :
    (opened registers).map f =
      (List.range (min clearBits registers.length)).map fun k => f (registers.getD k default) := by
  refine List.ext_getElem (by simp [opened]) fun k low high => ?_
  have inside : k < registers.length := by
    simp only [List.length_map, opened, List.length_take] at low
    omega
  simp [opened, inside]

/-- Numbers below `n`, some at a time. -/
theorem flatMap_chunks {β : Type} (f : Nat → β) (n size m : Nat) :
    ((List.range m).flatMap fun i =>
      (List.range (min size (n - i * size))).map fun k => f (i * size + k)) =
        (List.range (min n (m * size))).map f := by
  induction m with
  | zero => simp
  | succ m ih =>
    have grown : min n ((m + 1) * size) = min n (m * size) + min size (n - m * size) := by
      rw [Nat.succ_mul]
      omega
    rw [List.range_succ, List.flatMap_append, ih, List.flatMap_singleton, grown, List.range_add,
      List.map_append, List.map_map]
    congr 1
    by_cases more : m * size ≤ n
    · rw [Nat.min_eq_right more]
      rfl
    · have none : n - m * size = 0 := by omega
      simp [none]

/-- The registers hold all the bits. -/
theorem le_divCeil_mul (n : Nat) {size : Nat} (positive : 0 < size) :
    n ≤ divCeil n size * size := by
  have covered := Nat.div_add_mod (n + size - 1) size
  have remainder := Nat.mod_lt (n + size - 1) positive
  rw [divCeil, Nat.mul_comm]
  omega

section Exact

variable {delta : Key} {G E : Memory Key} {V : Memory Bool}

/-- On exact registers the masks are those that are asked for. -/
theorem Exact.openedMasks_eq {t : RevealTriple} (exact : Exact V t)
    (lengths : ∀ r, (G r).length = (V r).length) : openedMasks G t.calls = askedMasks G t := by
  have each : ∀ i ∈ List.range (divCeil t.n clearBits),
      (opened (G (t.r1 + i))).map Key.getSignal =
        (List.range (min clearBits (t.n - i * clearBits))).map fun k =>
          ((G (t.r1 + (i * clearBits + k) / clearBits)).getD
            ((i * clearBits + k) % clearBits) default).getSignal := by
    intro i member
    rw [map_opened, lengths, exact i (List.mem_range.mp member)]
    refine List.map_congr_left fun k inside => ?_
    have small : k < 64 := by
      have low := List.mem_range.mp inside
      rw [clearBits] at low
      omega
    have register : (i * clearBits + k) / clearBits = i := by
      rw [clearBits]
      omega
    have wire : (i * clearBits + k) % clearBits = k := by
      rw [clearBits]
      omega
    rw [register, wire]
  have covered : t.n ≤ divCeil t.n clearBits * clearBits := le_divCeil_mul t.n (by decide)
  have chunks := flatMap_chunks
    (fun b => ((G (t.r1 + b / clearBits)).getD (b % clearBits) default).getSignal)
    t.n clearBits (divCeil t.n clearBits)
  rw [min_eq_left covered] at chunks
  rw [askedMasks, openedMasks, RevealTriple.calls, List.flatMap_map, ← chunks]
  exact List.flatMap_congr each

/-- Exact registers are wide enough. -/
theorem Exact.enough {args : List RevealTriple} (exact : ∀ t ∈ args, Exact V t) :
    Enough V args := by
  intro call member
  obtain ⟨t, found, calls⟩ := List.mem_flatMap.mp member
  obtain ⟨i, inside, rfl⟩ := List.mem_map.mp calls
  have size := exact t found i (List.mem_range.mp inside)
  dsimp only
  rw [← size]
  exact min_le_right _ _

/-- On exact registers the bits that are asked for are opened. -/
theorem Exact.opens {args : List RevealTriple} (exact : ∀ t ∈ args, Exact V t)
    (C : Nat → Clear) :
    Opens V args (written (fun r => packBits (opened (V r)) 0 0)
      (args.flatMap RevealTriple.calls) C) := by
  rintro before t after rfl i inside absent j small
  have size := exact t (by simp) i inside
  rw [clearRegisters_eq] at absent
  rw [List.flatMap_append, List.flatMap_cons, written_append, written_append,
    written_of_notMem absent, written_calls _ _ _ inside, getLsbD_packBits _ _ _ small]
  rw [opened, size]
  by_cases low : i * clearBits + j < t.n
  · have kept : j < min clearBits (t.n - i * clearBits) := by omega
    simp [low, kept]
  · have past : ((V (t.r1 + i)).take (min clearBits (t.n - i * clearBits)))[j]? = none := by
      rw [List.getElem?_eq_none_iff, List.length_take]
      omega
    simp [low, past]

/-- On exact registers the parties open what is asked for, whatever the triples. -/
theorem revealBoth_opens (odd : delta.getSignal = true) (aligned : Aligned delta G E V)
    {args : List RevealTriple} (exact : ∀ t ∈ args, Exact V t) (continuous : Bool)
    (kept later : List Bool) (CG CE : Nat → Clear) :
    ∃ R, revealBoth continuous G E args kept later CG CE = .ok R ∧
      R.masks = args.flatMap (askedMasks G) ∧ R.left = later ∧ Opens V args R.evaluator ∧
      (continuous = true → Opens V args R.garbler) ∧
      (continuous = false → ∀ r ∈ clearRegisters args, R.garbler r = 0) := by
  obtain ⟨R, ran, masks, left, evaluator, garbler⟩ :=
    revealBoth_eq odd aligned (Exact.enough exact) continuous kept later CG CE
  have opens : Opens V args R.evaluator := by
    rw [evaluator]
    exact Exact.opens exact CE
  refine ⟨R, ran, ?_, left, opens, ?_, ?_⟩
  · rw [masks, openedMasks, List.flatMap_assoc]
    exact List.flatMap_congr fun t member =>
      (exact t member).openedMasks_eq fun r => (aligned r).garbler
  · rintro rfl before t after parts i inside absent j small
    have named : t.r0 + i ∈ clearRegisters args := by
      refine List.mem_flatMap.mpr ⟨t, by simp [parts], ?_⟩
      exact List.mem_map_of_mem (List.mem_range.mpr inside)
    rw [garbler _ named]
    exact opens before t after parts i inside absent j small
  · rintro rfl r member
    exact garbler r member

end Exact

/-- Registers of any widths whose wires are given by their place. -/
theorem aligned_range (delta : Key) (widths : Nat → Nat) (key : Nat → Nat → Key)
    (bit : Nat → Nat → Bool) :
    Aligned delta (fun r => (List.range (widths r)).map (key r))
      (fun r => (List.range (widths r)).map fun i => keyOf (key r i) delta (bit r i))
      (fun r => (List.range (widths r)).map (bit r)) := by
  refine fun r => ⟨by simp, by simp, fun i => ?_⟩
  by_cases inside : i < widths r
  · simp [List.getD_eq_getElem?_getD, inside]
  · -- Past the end all three read their defaults.
    have past : (List.range (widths r))[i]? = none := by simpa using inside
    simp only [List.getD_eq_getElem?_getD, List.getElem?_map, past, Option.map_none,
      Option.getD_none]
    rfl

/-- Registers of `n` equal wires. -/
theorem aligned_replicate (delta key : Key) (b : Bool) (n : Nat) :
    Aligned delta (fun _ => List.replicate n key) (fun _ => List.replicate n (keyOf key delta b))
      (fun _ => List.replicate n b) := by
  simpa using aligned_range delta (fun _ => n) (fun _ _ => key) (fun _ _ => b)

/-- The widths of three registers: 70 bits in registers 0 and 1, 3 bits in register 8. -/
def sampleWidths (r : Nat) : Nat :=
  if r = 0 then 64 else if r = 1 then 6 else if r = 8 then 3 else 0

/-- The garbler's keys of the wires, all different and with either signal. -/
def sampleKey (r i : Nat) : Key := ⟨BitVec.ofNat 128 (4 * (64 * r + i) + i % 2)⟩

/-- Every third wire carries a one. -/
def sampleBit (_r i : Nat) : Bool := decide (i % 3 = 0)

/-- Two triples in continuous mode: 70 bits over two registers, and 3 bits of a third. -/
theorem sampleRegisters_open :
    ∃ R, revealBoth true (fun r => (List.range (sampleWidths r)).map (sampleKey r))
        (fun r => (List.range (sampleWidths r)).map fun i =>
          keyOf (sampleKey r i) ⟨1⟩ (sampleBit r i))
        [⟨70, 0, 0⟩, ⟨3, 4, 8⟩] [] [] (fun _ => 0) (fun _ => 0) = .ok R ∧
      R.masks = List.flatMap (askedMasks fun r => (List.range (sampleWidths r)).map (sampleKey r))
        [⟨70, 0, 0⟩, ⟨3, 4, 8⟩] ∧
      R.left = [] ∧
      Opens (fun r => (List.range (sampleWidths r)).map (sampleBit r)) [⟨70, 0, 0⟩, ⟨3, 4, 8⟩]
        R.evaluator ∧
      (true = true → Opens (fun r => (List.range (sampleWidths r)).map (sampleBit r))
        [⟨70, 0, 0⟩, ⟨3, 4, 8⟩] R.garbler) ∧
      (true = false → ∀ r ∈ clearRegisters [⟨70, 0, 0⟩, ⟨3, 4, 8⟩], R.garbler r = 0) := by
  have odd : (⟨1⟩ : Key).getSignal = true := by decide
  refine revealBoth_opens odd (aligned_range ⟨1⟩ sampleWidths sampleKey sampleBit) ?_ true [] []
    (fun _ => 0) (fun _ => 0)
  intro t member i inside
  dsimp only
  rw [List.length_map, List.length_range]
  rcases List.mem_cons.mp member with rfl | last
  · -- The 70 bits fill two registers.
    have two : i < 2 := inside
    interval_cases i <;> rfl
  · obtain rfl := List.mem_singleton.mp last
    have one : i < 1 := inside
    interval_cases i
    rfl

/-- The garbler opens nothing in one-shot mode, and a register of two wires is
opened as a whole where one bit is asked for. -/
theorem reveal_not_exact :
    (Aligned ⟨1⟩ (fun _ => List.replicate 1 ⟨2⟩)
        (fun _ => List.replicate 1 (keyOf ⟨2⟩ ⟨1⟩ true)) (fun _ => List.replicate 1 true) ∧
      Enough (fun _ => List.replicate 1 true) [⟨1, 0, 0⟩] ∧
      ∀ R, revealBoth false (fun _ => List.replicate 1 ⟨2⟩)
          (fun _ => List.replicate 1 (keyOf ⟨2⟩ ⟨1⟩ true)) [⟨1, 0, 0⟩] [] [] (fun _ => 0)
          (fun _ => 0) = .ok R →
        ¬ Opens (fun _ => List.replicate 1 true) [⟨1, 0, 0⟩] R.garbler) ∧
    (Aligned ⟨1⟩ (fun _ => List.replicate 2 ⟨2⟩)
        (fun _ => List.replicate 2 (keyOf ⟨2⟩ ⟨1⟩ true)) (fun _ => List.replicate 2 true) ∧
      Enough (fun _ => List.replicate 2 true) [⟨1, 0, 0⟩] ∧
      ∀ R, revealBoth true (fun _ => List.replicate 2 ⟨2⟩)
          (fun _ => List.replicate 2 (keyOf ⟨2⟩ ⟨1⟩ true)) [⟨1, 0, 0⟩] [] [] (fun _ => 0)
          (fun _ => 0) = .ok R →
        R.masks ≠ List.flatMap (askedMasks fun _ => List.replicate 2 ⟨2⟩) [⟨1, 0, 0⟩]) := by
  have odd : (⟨1⟩ : Key).getSignal = true := by decide
  have enough : ∀ n, 1 ≤ n → Enough (fun _ => List.replicate n true) [⟨1, 0, 0⟩] := by
    intro n positive call member
    obtain rfl := List.mem_singleton.mp member
    rw [List.length_replicate]
    exact positive
  refine ⟨⟨aligned_replicate _ _ _ _, enough 1 le_rfl, fun R ran opens => ?_⟩,
    aligned_replicate _ _ _ _, enough 2 one_le_two, fun R ran masks => ?_⟩
  · obtain ⟨R', ran', -, -, -, zeros⟩ := revealBoth_eq odd
      (aligned_replicate ⟨1⟩ ⟨2⟩ true 1) (enough 1 le_rfl) false [] [] (fun _ => 0) (fun _ => 0)
    obtain rfl : R = R' := Except.ok.inj (ran.symm.trans ran')
    have bit := opens [] ⟨1, 0, 0⟩ [] rfl 0 (by decide) (by decide) 0 (by decide)
    rw [zeros 0 (by decide)] at bit
    exact absurd bit (by simp)
  · obtain ⟨R', ran', opened, -⟩ := revealBoth_eq odd
      (aligned_replicate ⟨1⟩ ⟨2⟩ true 2) (enough 2 one_le_two) true [] [] (fun _ => 0) (fun _ => 0)
    obtain rfl : R = R' := Except.ok.inj (ran.symm.trans ran')
    exact absurd (opened.symm.trans masks) (by decide)

end SimpleOprf.Yao
