import Mathlib.Data.List.Forall2
import SimpleOprf.Yao.Inputs

/-!
# Transfer of the evaluator's inputs

The garbler may serve the calls long after they were made, in one go or call by call.
One schedule, in which the evaluator follows as it is served, decides what every
other one computes.
-/

namespace SimpleOprf.Yao

open SimpleOprf.Basis SimpleOprf.OtExtension

/-! ## One call -/

/-- The choice bits of a call. -/
def choiceBits (bits : List InputBit) : List Bool :=
  (bits.filter fun bit => bit.sender = 1).map InputBit.value

/-- A wire of the garbler as the evaluator holds it. -/
def carried (delta : Key) (wire : InputBit × Key) : InputBit × Key :=
  (wire.1, keyOf wire.2 delta wire.1.value)

/-- The evaluator holds the active keys of both parties' inputs, and the signals of its
own ones are their values. -/
structure Delivered (delta : Key) (garbled : GarbledCall) (wires : List (InputBit × Key)) :
    Prop where
  others : wires.filter (fun wire => wire.1.sender = 1) = garbled.others.map (carried delta)
  own : wires.filter (fun wire => wire.1.sender = 0) = garbled.own.map (carried delta)
  signal : ∀ wire ∈ wires, wire.1.sender = 1 → wire.2.getSignal = wire.1.value

/-- What the garbler keeps of a call. -/
structure Garbles (delta : Key) (call : InputCall) (garbled : GarbledCall) : Prop where
  valid : call.invalid = false
  own : garbled.own = YaoGarbleWire.myInputs delta call.bits
  others : garbled.others.map Prod.fst = call.bits.filter fun bit => bit.sender = 1
  even : ∀ wire ∈ garbled.others, wire.2.getSignal = false

/-- The evaluator collects its choice bits in order. -/
theorem YaoEvalWire.myInputs_eq (bits : List InputBit) (input : YaoEvalInput) :
    myInputs bits input = { input with inputs := input.inputs ++ choiceBits bits } := by
  induction bits generalizing input with
  | nil => simp [myInputs, choiceBits]
  | cons bit rest ih =>
    rw [myInputs, List.foldl_cons, ← myInputs, ih]
    by_cases own : bit.sender = 1
    · simp [own, myInput, choiceBits]
    · simp [own, choiceBits]

/-- The garbler draws a key for every bit of the evaluator, in order. -/
theorem YaoGarbleWire.finalizeInputs_eq {σ : Type} (prng : Prng σ) (bits : List InputBit)
    (input : YaoGarbleInput σ) :
    let (after, wires) := finalizeInputs prng bits input
    after.keys = input.keys ++ wires.map Prod.snd ∧
      wires.map Prod.fst = (bits.filter fun bit => bit.sender = 1) ∧
      ∀ wire ∈ wires, wire.2.getSignal = false := by
  induction bits generalizing input with
  | nil => simp [finalizeInputs]
  | cons bit rest ih =>
    by_cases other : bit.sender = 1
    · obtain ⟨keys, bits, even⟩ := ih (finalizeInput prng input bit.sender).1
      simp only [finalizeInputs, finalizeInput, other, if_true] at keys bits even ⊢
      refine ⟨by simp [keys], by simp [bits, other], ?_⟩
      intro wire member
      rcases List.mem_cons.mp member with rfl | later
      · exact Key.getSignal_setSignal _ _
      · exact even wire later
    · obtain ⟨keys, bits, even⟩ := ih input
      simp only [finalizeInputs, finalizeInput, if_neg other]
      exact ⟨keys, by simpa [other] using bits, even⟩

/-- Under an even key the signal bit is the bit. -/
theorem getSignal_keyOf {fullKey delta : Key} (even : fullKey.getSignal = false)
    (odd : delta.getSignal = true) (v : Bool) : (keyOf fullKey delta v).getSignal = v := by
  cases v with
  | false => exact even
  | true =>
    rw [keyOf, if_pos rfl, Key.getSignal, Key.xor, BitVec.getLsbD_xor]
    exact (congrArg₂ _ even odd).trans rfl

/-- The row of the evaluator takes the mask of a key off and leaves the offset. -/
theorem xor_correlated (fullKey delta : Key) (row : BitVec 128) (v : Bool) :
    Key.xor (Key.xor fullKey ⟨row⟩) ⟨row ^^^ (if v then delta.r else 0)⟩ =
      keyOf fullKey delta v := by
  have cancel : (⟨row⟩ : Key) + ⟨row ^^^ (if v then delta.r else 0)⟩ =
      ⟨if v then delta.r else 0⟩ := by
    refine Key.ext_r ?_
    rw [Key.r_add, ← BitVec.xor_assoc, BitVec.xor_self, BitVec.zero_xor]
  rw [Key.xor_eq_add, Key.xor_eq_add, add_assoc, cancel]
  cases v with
  | false => exact add_zero fullKey
  | true => rfl

/-- The evaluator's key of a public input is zero. -/
theorem keyOf_publicInput (delta : Key) (v : Bool) :
    keyOf (YaoHalfGate.garblePublicInput v delta) delta v = 0 := by
  cases v with
  | false => rfl
  | true => exact Key.add_self delta

/-- The masked keys from an index on. -/
def maskKeysFrom (i : Nat) (keys : List Key) (squares : List Square) : List Key :=
  keys.mapIdx fun j key => Key.xor key ⟨rowAt squares (i + j)⟩

theorem maskKeysFrom_cons (i : Nat) (key : Key) (keys : List Key) (squares : List Square) :
    maskKeysFrom i (key :: keys) squares =
      Key.xor key ⟨rowAt squares i⟩ :: maskKeysFrom (i + 1) keys squares := by
  rw [maskKeysFrom, List.mapIdx_cons, maskKeysFrom]
  refine congrArg (_ :: ·) (congrArg (List.mapIdx · keys) (funext fun j => ?_))
  rw [Nat.add_comm j 1, Nat.add_assoc]

/-- On correlated rows no assertion fails, and the wires are the active keys. -/
theorem YaoEvalWire.finalizeInputs_ok {delta : Key} (odd : delta.getSignal = true)
    {inputs : List Bool} {received sent : List Square}
    (correlated : Correlated delta.r inputs received sent) (bits : List InputBit) (i : Nat)
    {others : List (InputBit × Key)}
    (same : others.map Prod.fst = bits.filter fun bit => bit.sender = 1)
    (even : ∀ wire ∈ others, wire.2.getSignal = false)
    (here : inputs.drop i = choiceBits bits) :
    ∃ wires, finalizeInputs received bits
        ⟨inputs, i, maskKeysFrom i (others.map Prod.snd) sent⟩ = .ok wires ∧
      wires.map Prod.fst = bits ∧
      wires.filter (fun wire => wire.1.sender = 1) = others.map (carried delta) ∧
      (∀ wire ∈ wires, wire.1.sender = 1 → wire.2.getSignal = wire.1.value) ∧
      ∀ wire ∈ wires, wire.1.sender ≠ 1 → wire.2 = 0 := by
  induction bits generalizing i others with
  | nil =>
    obtain rfl := List.map_eq_nil_iff.mp same
    exact ⟨[], rfl, rfl, rfl, nofun, nofun⟩
  | cons bit rest ih =>
    by_cases own : bit.sender = 1
    · rw [List.filter_cons_of_pos (by simpa using own)] at same
      obtain ⟨⟨first, fullKey⟩, others, rfl, found, sameRest⟩ := List.map_eq_cons_iff.mp same
      obtain rfl : bit = first := found.symm
      rw [choiceBits, List.filter_cons_of_pos (by simpa using own), List.map_cons] at here
      have choice : inputs[i]? = some bit.value := by
        rw [← List.head?_drop, here, List.head?_cons]
      have later : inputs.drop (i + 1) = choiceBits rest := by
        rw [← List.tail_drop, here, List.tail_cons, choiceBits]
      have key : Key.xor (Key.xor fullKey ⟨rowAt sent i⟩) ⟨rowAt received i⟩ =
          keyOf fullKey delta bit.value := by
        rw [correlated i bit.value choice]
        exact xor_correlated fullKey delta _ bit.value
      have signal := getSignal_keyOf (even _ List.mem_cons_self) odd bit.value
      obtain ⟨wires, run, bits, keys, signals, zero⟩ := ih (i + 1) sameRest
        (fun wire member => even wire (List.mem_cons_of_mem _ member)) later
      refine ⟨(bit, keyOf fullKey delta bit.value) :: wires, ?_, by rw [List.map_cons, bits], ?_,
        ?_, ?_⟩
      · rw [List.map_cons, maskKeysFrom_cons, finalizeInputs, finalizeInput, if_pos own]
        simp only [key, List.getD_eq_getElem?_getD, choice, Option.getD_some, signal, if_true]
        change (finalizeInputs received rest _ >>= fun wires => _) = _
        rw [run]
        rfl
      · rw [List.filter_cons_of_pos (by simpa using own), keys]
        rfl
      · exact List.forall_mem_cons.mpr ⟨fun _ => signal, signals⟩
      · exact List.forall_mem_cons.mpr ⟨fun other => absurd own other, zero⟩
    · rw [List.filter_cons_of_neg (by simpa using own)] at same
      rw [choiceBits, List.filter_cons_of_neg (by simpa using own), ← choiceBits] at here
      obtain ⟨wires, run, bits, keys, signals, zero⟩ := ih i same even here
      refine ⟨(bit, 0) :: wires, ?_, by rw [List.map_cons, bits], ?_, ?_, ?_⟩
      · rw [finalizeInputs, finalizeInput, if_neg own]
        change (finalizeInputs received rest _ >>= fun wires => _) = _
        rw [run]
        rfl
      · rw [List.filter_cons_of_neg (by simpa using own), keys]
      · exact List.forall_mem_cons.mpr ⟨fun evaluator => absurd evaluator own, signals⟩
      · exact List.forall_mem_cons.mpr ⟨fun _ => rfl, zero⟩

/-- The wires of the garbler's inputs are zero and stand for its public inputs. -/
theorem own_carried (delta : Key) {bits : List InputBit} {wires : List (InputBit × Key)}
    (same : wires.map Prod.fst = bits) (zero : ∀ wire ∈ wires, wire.1.sender ≠ 1 → wire.2 = 0) :
    wires.filter (fun wire => wire.1.sender = 0) =
      (YaoGarbleWire.myInputs delta bits).map (carried delta) := by
  subst same
  simp only [YaoGarbleWire.myInputs, List.map_map, List.filter_map]
  symm
  refine (List.map_congr_left fun wire member => ?_).trans (List.map_id _)
  obtain ⟨member, own⟩ := List.mem_filter.mp member
  have sender : wire.1.sender ≠ 1 := by
    have first : wire.1.sender = 0 := of_decide_eq_true own
    omega
  simp only [Function.comp_apply, carried, keyOf_publicInput, ← zero wire member sender, id]

/-! ## The schedule -/

section Schedule

variable {σ : Type} {prng : Prng σ} {transpose : Square → Square}

/-- The garbler has made some calls that it has not served yet, and the evaluator is at
the first of them. -/
structure InStep (delta : Key) (all : List InputCall)
    (pending : List (InputCall × GarbledCall))
    (s : Net Unit OtMessage (InputGarbler σ) (InputEvaluator σ)) : Prop where
  garbler : s.left.control = .run
  evaluator : s.right.control = .run
  calls : s.right.calls = pending.map Prod.fst ++ inputCalls s.left.ops
  queue : s.left.receiverInputKeys = pending.map fun p => p.2.others.map Prod.snd
  toRight : (s.toRight ()).Idle
  toLeft : (s.toLeft ()).Idle
  offset : s.left.delta = delta
  base : s.left.otExt.baseReceiverInput = delta.r
  aligned : BaseOtsAgree s.left.otExt s.right.otExt
  garbles : ∀ p ∈ pending, Garbles delta p.1 p.2
  matrices : List.Forall₂ (fun batch sent => Correlated delta.r batch.1 batch.2 sent)
    s.right.matrices s.left.matrices
  wires : ∃ served, s.left.calls = served ++ pending.map Prod.snd ∧
    List.Forall₂ (Delivered delta) served s.right.wires
  covered : ∃ done, all = done ++ s.right.calls ∧
    s.right.wires.map (List.map Prod.fst) = done.map InputCall.bits

/-- Some schedule leads to a state. -/
abbrev InputLeads (prng : Prng σ) (transpose : Square → Square) :=
  Net.Leads (C := Unit) (InputGarbler.next prng transpose) (InputEvaluator.next prng transpose)

variable {delta : Key} {all : List InputCall} {p : InputCall × GarbledCall}
  {pending : List (InputCall × GarbledCall)}
  {s : Net Unit OtMessage (InputGarbler σ) (InputEvaluator σ)}

/-- A garbled call has a key for every choice bit. -/
theorem Garbles.length {call : InputCall} {garbled : GarbledCall} (h : Garbles delta call garbled) :
    (garbled.others.map Prod.snd).length = (choiceBits call.bits).length := by
  rw [List.length_map, ← List.length_map (f := Prod.fst), h.others, choiceBits, List.length_map]

variable (prng transpose) in
/-- The evaluator on the keys of a call that the garbler has just extended for. -/
theorem InStep.leads_keys (odd : delta.getSignal = true)
    (inStep : InStep delta all (p :: pending) s) {u : List Square} {otExt : OtReceiver σ}
    {toRight toLeft : Unit → Fifo OtMessage} (idle : (toRight ()).Idle) (idle' : (toLeft ()).Idle)
    (sender : OtSender σ) (extended : s.left.otExt.extendCorrelated prng transpose
      (p.2.others.map Prod.snd).length u = sender)
    (aligned : BaseOtsAgree sender otExt) (base : sender.baseReceiverInput = delta.r)
    (correlated : Correlated delta.r (choiceBits p.1.bits) otExt.receiverOutput.squares
      sender.senderOutput.squares) :
    InputLeads prng transpose (fun t => InStep delta all pending t ∧ t.left.ops = s.left.ops)
      ⟨s.left.extend prng transpose (p.2.others.map Prod.snd) u,
        { s.right with
          control := .receive p.1.bits ⟨choiceBits p.1.bits, 0, []⟩
          calls := pending.map Prod.fst ++ inputCalls s.left.ops
          otExt
          matrices := s.right.matrices ++
            [(choiceBits p.1.bits, otExt.receiverOutput.squares)] },
        toRight, toLeft⟩ := by
  have garbles := inStep.garbles p List.mem_cons_self
  obtain ⟨wires, run, same, others, signal, zero⟩ := YaoEvalWire.finalizeInputs_ok odd correlated
    p.1.bits 0 garbles.others garbles.even rfl
  obtain ⟨served, calls, delivered⟩ := inStep.wires
  obtain ⟨done, covers, bits⟩ := inStep.covered
  have own := own_carried delta same zero
  rw [← garbles.own] at own
  have masked : InputGarbler.maskKeys (p.2.others.map Prod.snd) sender.senderOutput.squares =
      maskKeysFrom 0 (p.2.others.map Prod.snd) sender.senderOutput.squares := by
    simp only [InputGarbler.maskKeys, maskKeysFrom, Nat.zero_add]
  obtain ⟨sent, rightIdle⟩ := idle.pushOn (c := ())
    (.keys (maskKeysFrom 0 (p.2.others.map Prod.snd) sender.senderOutput.squares))
  have prepared : s.left.extend prng transpose (p.2.others.map Prod.snd) u =
      { s.left with
        control := .send (maskKeysFrom 0 (p.2.others.map Prod.snd) sender.senderOutput.squares)
        otExt := sender
        matrices := s.left.matrices ++ [sender.senderOutput.squares] } := by
    rw [InputGarbler.extend, extended, masked]
  rw [prepared]
  refine .left_send rfl (.right_receive rfl sent (.here ⟨?_, rfl⟩))
  have finalized : InputEvaluator.finalize
      { s.right with
        control := .receive p.1.bits ⟨choiceBits p.1.bits, 0, []⟩
        calls := pending.map Prod.fst ++ inputCalls s.left.ops
        otExt
        matrices := s.right.matrices ++ [(choiceBits p.1.bits, otExt.receiverOutput.squares)] }
      p.1.bits ⟨choiceBits p.1.bits, 0, []⟩
      (.keys (maskKeysFrom 0 (p.2.others.map Prod.snd) sender.senderOutput.squares)) =
      { control := .run
        calls := pending.map Prod.fst ++ inputCalls s.left.ops
        otExt
        matrices := s.right.matrices ++ [(choiceBits p.1.bits, otExt.receiverOutput.squares)]
        wires := s.right.wires ++ [wires] } := by
    rw [InputEvaluator.finalize, run]
  rw [finalized]
  exact {
    garbler := rfl
    evaluator := rfl
    calls := rfl
    queue := by rw [inStep.queue]; rfl
    toRight := rightIdle
    toLeft := idle'
    offset := inStep.offset
    base := base
    aligned := aligned
    garbles := fun q member => inStep.garbles q (List.mem_cons_of_mem p member)
    matrices := List.rel_append inStep.matrices (.cons correlated .nil)
    wires := ⟨served ++ [p.2], by rw [calls]; simp,
      List.rel_append delivered (.cons ⟨others, own, signal⟩ .nil)⟩
    covered := ⟨done ++ [p.1], by rw [covers, inStep.calls]; simp, by simp [bits, same]⟩ }

/-- Serve the first call of the queue. -/
theorem InStep.serve (transposes : Transposes transpose) (odd : delta.getSignal = true)
    (inStep : InStep delta all (p :: pending) s) {rest : List GarblerOp}
    (now : s.left.ops = .processReceiverInputs :: rest) :
    InputLeads prng transpose (fun t => InStep delta all pending t ∧ t.left.ops = s.left.ops) s := by
  have garbles := inStep.garbles p List.mem_cons_self
  have evaluator := InputEvaluator.next_call prng transpose inStep.evaluator inStep.calls
    garbles.valid
  have garbler := InputGarbler.next_processReceiverInputs prng transpose inStep.garbler now
    inStep.queue
  rw [InputEvaluator.call, YaoEvalWire.myInputs_eq] at evaluator
  by_cases none : choiceBits p.1.bits = []
  · have count : (p.2.others.map Prod.snd).length = 0 := by
      rw [garbles.length, none, List.length_nil]
    have leads := inStep.leads_keys prng transpose odd (u := []) inStep.toRight inStep.toLeft
      s.left.otExt (by rw [count]; rfl) inStep.aligned inStep.base (by rw [none]; exact nofun)
    simp only [none, List.append_nil, List.length_nil] at evaluator leads
    rw [if_pos count] at garbler
    exact .right_internal evaluator (.left_internal garbler leads)
  · obtain ⟨otExt, u, run, aligned, base, correlated⟩ :=
      extendCorrelated_correct prng transposes inStep.aligned none
    rw [inStep.base] at base correlated
    rw [← garbles.length] at aligned base correlated
    have count : (p.2.others.map Prod.snd).length ≠ 0 := by
      rw [garbles.length]
      exact fun zero => none (List.eq_nil_of_length_eq_zero zero)
    obtain ⟨sent, leftIdle⟩ := inStep.toLeft.pushOn (c := ()) (.matrix u)
    have leads := inStep.leads_keys prng transpose odd inStep.toRight leftIdle _ rfl aligned base correlated
    rw [if_neg count] at garbler
    simp only [List.nil_append, run] at evaluator
    exact .right_send evaluator (.left_receive garbler sent leads)

/-- A call waits until it is served. -/
theorem InStep.input (inStep : InStep delta all pending s) {call : InputCall}
    {rest : List GarblerOp} (now : s.left.ops = .input call :: rest) (valid : call.invalid = false) :
    ∃ garbled, InStep delta all (pending ++ [(call, garbled)])
      { s with left := { s.left with ops := rest }.input prng call.bits } := by
  obtain ⟨served, calls, delivered⟩ := inStep.wires
  have finalized := YaoGarbleWire.finalizeInputs_eq prng call.bits ⟨s.left.prng, []⟩
  simp only [InputGarbler.input]
  revert finalized
  generalize YaoGarbleWire.finalizeInputs prng call.bits ⟨s.left.prng, []⟩ = result
  obtain ⟨after, others⟩ := result
  rintro ⟨keys, same, even⟩
  have garbled : Garbles delta call ⟨YaoGarbleWire.myInputs s.left.delta call.bits, others⟩ :=
    ⟨valid, by rw [inStep.offset], same, even⟩
  refine ⟨_, { inStep with
    calls := ?_
    queue := ?_
    garbles := List.forall_mem_append.mpr ⟨inStep.garbles, List.forall_mem_singleton.mpr garbled⟩
    wires := ⟨served, ?_, delivered⟩ }⟩
  · rw [inStep.calls, now, List.map_append, List.append_assoc]
    rfl
  · simp only [inStep.queue, keys, List.nil_append, List.map_append, List.map_cons, List.map_nil]
  · rw [calls, List.map_append, List.append_assoc]
    rfl

/-- The garbler is at the end of its program, or at a call that throws. -/
def InputGarbler.Stops (g : InputGarbler σ) : Prop :=
  g.ops = [] ∨ ∃ call rest, g.ops = .input call :: rest ∧ call.invalid = true

/-- A program that leaves no call unserved. -/
def Serves (ops : List GarblerOp) (pending : List (InputCall × GarbledCall)) : Prop :=
  ops.getLast? = some .processReceiverInputs ∨ (ops = [] ∧ pending = [])

/-- An operation that was performed leaves the rest to serve what is pending. -/
theorem Serves.tail {op : GarblerOp} {ops : List GarblerOp}
    {pending' : List (InputCall × GarbledCall)} (serves : Serves (op :: ops) pending)
    (served : op = .processReceiverInputs → pending' = []) : Serves ops pending' := by
  rcases serves with last | ⟨nil, -⟩
  · cases ops with
    | nil => exact .inr ⟨rfl, served (Option.some.inj last)⟩
    | cons next ops => exact .inl (by rwa [List.getLast?_cons_cons] at last)
  · cases nil

variable (prng) in
/-- The garbler comes to the end of its program or to a call that throws. -/
theorem InStep.advance (transposes : Transposes transpose) (odd : delta.getSignal = true)
    (inStep : InStep delta all pending s) :
    InputLeads prng transpose (fun t => ∃ pending', InStep delta all pending' t ∧ t.left.Stops ∧
      (t.left.ops = [] → Serves s.left.ops pending → pending' = [])) s := by
  induction h : s.left.ops generalizing s pending with
  | nil =>
    refine .here ⟨pending, inStep, .inl h, fun _ serves => ?_⟩
    rcases serves with last | ⟨-, none⟩
    · cases last
    · exact none
  | cons op ops ih =>
    cases op with
    | input call =>
      cases valid : call.invalid with
      | true =>
        exact .here ⟨pending, inStep, .inr ⟨call, ops, h, valid⟩, fun nil => nomatch h.symm.trans nil⟩
      | false =>
        obtain ⟨garbled, moved⟩ := inStep.input h valid
        have now := InputGarbler.next_input prng transpose inStep.garbler h
        rw [if_neg (by rw [valid]; exact Bool.false_ne_true)] at now
        refine .left_internal now ((ih moved rfl).trans fun t ⟨pending', inStep', stops, served⟩ =>
          .here ⟨pending', inStep', stops, fun nil serves => served nil (serves.tail nofun)⟩)
    | other draws =>
      have moved : InStep delta all pending
          { s with left := { s.left with ops, prng := prng.after s.left.prng draws } } := by
        refine { inStep with calls := ?_ }
        rw [inStep.calls, h]
        rfl
      refine .left_internal (InputGarbler.next_other prng transpose inStep.garbler h)
        ((ih moved rfl).trans fun t ⟨pending', inStep', stops, served⟩ =>
          .here ⟨pending', inStep', stops, fun nil serves => served nil (serves.tail nofun)⟩)
    | processReceiverInputs =>
      induction pending generalizing s with
      | nil =>
        have moved : InStep delta all [] { s with left := { s.left with ops } } := by
          refine { inStep with calls := ?_ }
          rw [inStep.calls, h]
          rfl
        refine .left_internal
          (InputGarbler.next_processReceiverInputs_nil prng transpose inStep.garbler h inStep.queue)
          ((ih moved rfl).trans fun t ⟨pending', inStep', stops, served⟩ =>
            .here ⟨pending', inStep', stops, fun nil serves =>
              served nil (serves.tail fun _ => rfl)⟩)
      | cons p pending more =>
        refine (inStep.serve transposes odd h).trans fun t ⟨inStep', same⟩ => ?_
        refine (more inStep' (same.trans h)).trans fun u ⟨pending', later, stops, served⟩ => ?_
        refine .here ⟨pending', later, stops, fun nil serves => served nil ?_⟩
        rcases serves with last | ⟨none, -⟩
        · exact .inl last
        · cases none

/-- Where a run ends: the evaluator may have started a call that is never served. -/
structure InputsEnd (prng : Prng σ) (transpose : Square → Square) (delta : Key)
    (t : Net Unit OtMessage (InputGarbler σ) (InputEvaluator σ)) : Prop where
  stuck : t.Stuck (InputGarbler.next prng transpose) (InputEvaluator.next prng transpose)
  matrices : ∃ paired more, t.right.matrices = paired ++ more ∧
    List.Forall₂ (fun batch sent => Correlated delta.r batch.1 batch.2 sent) paired t.left.matrices
  wires : ∃ served later, t.left.calls = served ++ later ∧
    List.Forall₂ (Delivered delta) served t.right.wires
  failure : ∀ failure, t.right.control = .failed failure → failure = .invalidPlayer

/-- The evaluator when the garbler does nothing more. -/
theorem InStep.halt (inStep : InStep delta all pending s) {l : InputGarbler σ}
    (halted : ∀ outgoing incoming, (l.next prng transpose).perform outgoing incoming = none)
    (matrices : l.matrices = s.left.matrices) (calls : l.calls = s.left.calls) :
    InputLeads prng transpose (InputsEnd prng transpose delta)
      ⟨l, s.right, s.toRight, s.toLeft⟩ := by
  obtain ⟨served, made, delivered⟩ := inStep.wires
  have left : ∀ (r : InputEvaluator σ) (toRight toLeft : Unit → Fifo OtMessage),
      Net.stepLeft (InputGarbler.next prng transpose) ⟨l, r, toRight, toLeft⟩ = none := by
    intro r toRight toLeft
    rw [Net.stepLeft, halted, Option.map_none]
  have ended : ∀ (r : InputEvaluator σ) (toLeft : Unit → Fifo OtMessage)
      (more : List (List Bool × List Square)),
      Net.stepRight (InputEvaluator.next prng transpose) ⟨l, r, s.toRight, toLeft⟩ = none →
      r.matrices = s.right.matrices ++ more → r.wires = s.right.wires →
      (∀ failure, r.control = .failed failure → failure = .invalidPlayer) →
      InputsEnd prng transpose delta ⟨l, r, s.toRight, toLeft⟩ := by
    intro r toLeft more right batches same failure
    refine ⟨⟨left r _ _, right⟩, ⟨_, more, batches, ?_⟩, ⟨served, _, calls.trans made, ?_⟩, failure⟩
    · rw [matrices]
      exact inStep.matrices
    · rwa [same]
  have waits : ∀ (r : InputEvaluator σ) (toLeft : Unit → Fifo OtMessage) (callBits : List InputBit)
      (input : YaoEvalInput), r.control = .receive callBits input →
      Net.stepRight (InputEvaluator.next prng transpose) ⟨l, r, s.toRight, toLeft⟩ = none := by
    intro r toLeft callBits input receiving
    simp only [Net.stepRight, InputEvaluator.next, receiving, Action.perform,
      inStep.toRight.head?_eq_none, Option.map_none]
  cases now : s.right.calls with
  | nil =>
    have running : ∀ failure, s.right.control = .failed failure → failure = .invalidPlayer := by
      intro failure failed
      cases inStep.evaluator.symm.trans failed
    refine .here (ended _ _ [] ?_ (List.append_nil _).symm rfl running)
    simp only [Net.stepRight, InputEvaluator.next, inStep.evaluator, now, Action.perform,
      Option.map_none]
  | cons c rest =>
    cases valid : c.invalid with
    | true =>
      have stops : InputEvaluator.next prng transpose s.right =
          .internal { s.right with control := .failed .invalidPlayer } := by
        simp only [InputEvaluator.next, inStep.evaluator, now, valid, if_true]
      refine .right_internal stops (.here (ended _ _ [] rfl (List.append_nil _).symm rfl ?_))
      exact fun failure failed => (InputEvaluatorControl.failed.inj failed).symm
    | false =>
      have called := InputEvaluator.next_call prng transpose inStep.evaluator now valid
      rw [InputEvaluator.call, YaoEvalWire.myInputs_eq] at called
      by_cases none : choiceBits c.bits = []
      · simp only [none, List.append_nil, List.length_nil,
          OtReceiver.extendCorrelated, if_true] at called
        exact .right_internal called (.here (ended _ _ _ (waits _ _ _ _ rfl) rfl rfl (by rintro _ ⟨⟩)))
      · obtain ⟨otExt, u, newReceiverInput, run, -⟩ :=
          s.right.otExt.extendCorrelated_batch prng transpose none
        simp only [List.nil_append, run] at called
        exact .right_send called (.here (ended _ _ _ (waits _ _ _ _ rfl) rfl rfl (by rintro _ ⟨⟩)))

variable (prng) in
/-- Every run can be brought to an end where all wires that were set are right. -/
theorem InStep.leads_end (transposes : Transposes transpose) (odd : delta.getSignal = true)
    (inStep : InStep delta all pending s) :
    InputLeads prng transpose (InputsEnd prng transpose delta) s := by
  refine (inStep.advance prng transposes odd).trans fun t ⟨pending', inStep, stops, _⟩ => ?_
  rcases stops with nil | ⟨call, rest, now, invalid⟩
  · have finished := InputGarbler.next_nil prng transpose inStep.garbler nil
    exact inStep.halt (fun _ _ => by rw [finished]; rfl) rfl rfl
  · have stops := InputGarbler.next_input prng transpose inStep.garbler now
    rw [if_pos invalid] at stops
    exact .left_internal stops (inStep.halt (fun _ _ => rfl) rfl rfl)

end Schedule

/-! ## Every run -/

section Runs

variable {σ : Type} (prng : Prng σ) (transpose : Square → Square)

/-- Two histories that are only added to. -/
def Continues {α β : Type} (before after : List α × List β) : Prop :=
  before.1 <+: after.1 ∧ before.2 <+: after.2

theorem Continues.refl {α β : Type} (histories : List α × List β) :
    Continues histories histories :=
  ⟨List.prefix_rfl, List.prefix_rfl⟩

theorem Continues.trans {α β : Type} {a b c : List α × List β} (first : Continues a b)
    (second : Continues b c) : Continues a c :=
  ⟨first.1.trans second.1, first.2.trans second.2⟩

/-- What the garbler has sent and drawn so far. -/
def InputGarbler.histories (g : InputGarbler σ) : List (List Square) × List GarbledCall :=
  (g.matrices, g.calls)

/-- What the evaluator has received and set so far. -/
def InputEvaluator.histories (e : InputEvaluator σ) :
    List (List Bool × List Square) × List (List (InputBit × Key)) :=
  (e.matrices, e.wires)

/-- An action of the garbler continues its histories. -/
theorem InputGarbler.next_keeps (g : InputGarbler σ) :
    (g.next prng transpose).Next fun _ g' => Continues g.histories g'.histories := by
  unfold next
  split
  · split
    · trivial
    · split
      · exact ⟨List.prefix_rfl, List.prefix_rfl⟩
      · exact ⟨List.prefix_rfl, List.prefix_append _ _⟩
    · exact ⟨List.prefix_rfl, List.prefix_rfl⟩
    · split
      · exact ⟨List.prefix_rfl, List.prefix_rfl⟩
      · split
        · exact ⟨List.prefix_append _ _, List.prefix_rfl⟩
        · intro message
          cases message with
          | matrix u => exact ⟨List.prefix_append _ _, List.prefix_rfl⟩
          | keys os => exact ⟨List.prefix_rfl, List.prefix_rfl⟩
  · exact ⟨List.prefix_rfl, List.prefix_rfl⟩
  · trivial

/-- So does an input call of the evaluator. -/
theorem InputEvaluator.call_keeps (e : InputEvaluator σ) (bits : List InputBit) :
    (e.call prng transpose bits).Next fun _ e' => Continues e.histories e'.histories := by
  dsimp only [call]
  split
  · exact ⟨List.prefix_rfl, List.prefix_rfl⟩
  · split
    · exact ⟨List.prefix_append _ _, List.prefix_rfl⟩
    · exact ⟨List.prefix_append _ _, List.prefix_rfl⟩

/-- So does the end of a call. -/
theorem InputEvaluator.finalize_keeps (e : InputEvaluator σ) (bits : List InputBit)
    (input : YaoEvalInput) (message : OtMessage) :
    Continues e.histories (e.finalize bits input message).histories := by
  cases message with
  | matrix u => exact ⟨List.prefix_rfl, List.prefix_rfl⟩
  | keys os =>
    dsimp only [finalize]
    split
    · exact ⟨List.prefix_rfl, List.prefix_append _ _⟩
    · exact ⟨List.prefix_rfl, List.prefix_rfl⟩

/-- So does every action of the evaluator. -/
theorem InputEvaluator.next_keeps (e : InputEvaluator σ) :
    (e.next prng transpose).Next fun _ e' => Continues e.histories e'.histories := by
  unfold next
  split
  · split
    · trivial
    · split
      · exact ⟨List.prefix_rfl, List.prefix_rfl⟩
      · exact call_keeps prng transpose _ _
  · exact e.finalize_keeps _ _
  · trivial

variable {prng transpose} (transposes : Transposes transpose) {word : BitVec 128}
  {sender : OtSender σ} {receiver : OtReceiver σ}
  (base : sender.baseReceiverInput = (YaoGarbleMaster.delta word).r)
  (baseOts : BaseOtsAgree sender receiver) {ops : List GarblerOp} {g : σ}
  {s : Net Unit OtMessage (InputGarbler σ) (InputEvaluator σ)}

variable (ops g) in
include base baseOts in
/-- The parties start in step. -/
theorem inStep_start : InStep (YaoGarbleMaster.delta word) (inputCalls ops) []
    (inputStart ops (YaoGarbleMaster.delta word) g sender receiver) where
  garbler := rfl
  evaluator := rfl
  calls := rfl
  queue := rfl
  toRight := rfl
  toLeft := rfl
  offset := rfl
  base := base
  aligned := baseOts
  garbles := nofun
  matrices := .nil
  wires := ⟨[], rfl, .nil⟩
  covered := ⟨[], rfl, rfl⟩

/-- An entry of a list is one of every continuation. -/
theorem getElem?_of_isPrefix {α : Type} {as bs : List α} (extends_ : as <+: bs) {k : Nat} {a : α}
    (found : as[k]? = some a) : bs[k]? = some a := by
  obtain ⟨more, rfl⟩ := extends_
  rw [List.getElem?_append_left (List.getElem?_eq_some_iff.mp found).1, found]

/-- Entries of the same place are related, also when one list goes on. -/
theorem related_of_getElem? {α β : Type} {r : α → β → Prop} {as more : List α} {bs : List β}
    (all : List.Forall₂ r as bs) {k : Nat} {a : α} {b : β} (first : (as ++ more)[k]? = some a)
    (second : bs[k]? = some b) : r a b := by
  obtain ⟨inside, rfl⟩ := List.getElem?_eq_some_iff.mp second
  have present : k < as.length := by rwa [all.length_eq]
  rw [List.getElem?_append_left present, List.getElem?_eq_getElem present] at first
  cases first
  exact (List.forall₂_iff_get.mp all).2 k present inside

/-- What every state before an end satisfies. -/
structure InputsCorrect (delta : Key)
    (s : Net Unit OtMessage (InputGarbler σ) (InputEvaluator σ)) : Prop where
  matrices : ∀ (k : Nat) sent choices received, s.left.matrices[k]? = some sent →
    s.right.matrices[k]? = some (choices, received) → Correlated delta.r choices received sent
  wires : ∀ (k : Nat) garbled wires, s.left.calls[k]? = some garbled →
    s.right.wires[k]? = some wires → Delivered delta garbled wires
  signal : ∀ wires ∈ s.right.wires, ∀ wire ∈ wires, wire.1.sender = 1 →
    wire.2.getSignal = wire.1.value
  failure : ∀ failure, s.right.control = .failed failure → failure = .invalidPlayer

/-- What is right at an end was right before it. -/
theorem InputsEnd.correct {delta : Key}
    {t : Net Unit OtMessage (InputGarbler σ) (InputEvaluator σ)}
    (ends : InputsEnd prng transpose delta t)
    (reaches : s.Reaches (InputGarbler.next prng transpose) (InputEvaluator.next prng transpose) t) :
    InputsCorrect delta s := by
  obtain ⟨paired, more, batches, correlated⟩ := ends.matrices
  obtain ⟨served, later, made, delivered⟩ := ends.wires
  have left := Net.left_related (r := fun g g' => Continues g.histories g'.histories)
    (fun g => .refl _) Continues.trans (InputGarbler.next_keeps prng transpose) reaches
  have right := Net.right_related (r := fun e e' => Continues e.histories e'.histories)
    (fun e => .refl _) Continues.trans (InputEvaluator.next_keeps prng transpose) reaches
  refine ⟨fun k sent choices received first second => ?_, fun k garbled wires first second => ?_,
    fun wires member => ?_, fun failure failed => ?_⟩
  · have batch : t.right.matrices[k]? = some (choices, received) :=
      getElem?_of_isPrefix right.1 second
    rw [batches] at batch
    exact related_of_getElem? correlated batch (getElem?_of_isPrefix left.1 first)
  · have call : t.left.calls[k]? = some garbled := getElem?_of_isPrefix left.2 first
    rw [made] at call
    exact related_of_getElem? delivered call (getElem?_of_isPrefix right.2 second)
  · obtain ⟨k, inside, rfl⟩ := List.mem_iff_getElem.mp (right.2.subset member)
    exact ((List.forall₂_iff_get.mp delivered).2 k (by rwa [delivered.length_eq]) inside).signal
  · have stays := Net.right_eq (fun _ _ => by rw [InputEvaluator.next, failed]; rfl) reaches
    exact ends.failure failure (by rw [stays, failed])

include transposes base baseOts in
/-- In every run all wires that were set are right. -/
theorem inputs_correct
    (reaches : (inputStart ops (YaoGarbleMaster.delta word) g sender receiver).Reaches
      (InputGarbler.next prng transpose) (InputEvaluator.next prng transpose) s) :
    InputsCorrect (YaoGarbleMaster.delta word) s := by
  obtain ⟨t, end_, ends⟩ :=
    (inStep_start base baseOts ops g).leads_end prng transposes (Key.getSignal_setSignal _ _)
  exact ends.correct (ends.stuck.of_reaches end_ reaches)

include transposes base baseOts in
/-- In every run, however far the garbler is behind with the keys, the matrices of each
batch are correlated, the evaluator's wires are the active keys of its inputs, and the
assertion on their signals never fails. -/
theorem inputs_transferred
    (reaches : (inputStart ops (YaoGarbleMaster.delta word) g sender receiver).Reaches
      (InputGarbler.next prng transpose) (InputEvaluator.next prng transpose) s) :
    (∀ (k : Nat) sent choices received, s.left.matrices[k]? = some sent →
        s.right.matrices[k]? = some (choices, received) →
        ∀ i b, choices[i]? = some b → rowAt received i =
          rowAt sent i ^^^ (if b then (YaoGarbleMaster.delta word).r else 0)) ∧
      (∀ (k : Nat) garbled wires, s.left.calls[k]? = some garbled →
        s.right.wires[k]? = some wires →
        wires.filter (fun wire => wire.1.sender = 1) = garbled.others.map fun wire =>
          (wire.1, keyOf wire.2 (YaoGarbleMaster.delta word) wire.1.value)) ∧
      (∀ wires ∈ s.right.wires, ∀ wire ∈ wires, wire.1.sender = 1 →
        wire.2.getSignal = wire.1.value) ∧
      s.right.control ≠ .failed .wrongSignal := by
  have correct := inputs_correct transposes base baseOts reaches
  exact ⟨correct.matrices, fun k garbled wires first second =>
    (correct.wires k garbled wires first second).others, correct.signal,
    fun failed => nomatch correct.failure _ failed⟩

variable (prng) in
include transposes base baseOts in
/-- When no call throws and the garbler serves its queue at the end, no run is stuck
before all bits of all calls have their wires. -/
theorem inputs_served (valid : ∀ call ∈ inputCalls ops, call.invalid = false)
    (last : ops.getLast? = some .processReceiverInputs)
    (reaches : (inputStart ops (YaoGarbleMaster.delta word) g sender receiver).Reaches
      (InputGarbler.next prng transpose) (InputEvaluator.next prng transpose) s) :
    ∃ t, s.Reaches (InputGarbler.next prng transpose) (InputEvaluator.next prng transpose) t ∧
      t.Finished (InputGarbler.next prng transpose) (InputEvaluator.next prng transpose) ∧
      t.right.wires.map (List.map Prod.fst) = (inputCalls ops).map InputCall.bits := by
  obtain ⟨t, end_, pending, inStep, stops, served⟩ :=
    (inStep_start base baseOts ops g).advance prng transposes (Key.getSignal_setSignal _ _)
  obtain ⟨done, covers, bits⟩ := inStep.covered
  have now := inStep.calls
  have nil : t.left.ops = [] := by
    rcases stops with nil | ⟨call, rest, stopped, invalid⟩
    · exact nil
    · have member : call ∈ inputCalls ops := by
        rw [covers, now, stopped]
        simp [inputCalls]
      rw [valid call member] at invalid
      cases invalid
  rw [served nil (.inl last), nil] at now
  have finished : t.Finished (InputGarbler.next prng transpose)
      (InputEvaluator.next prng transpose) :=
    ⟨InputGarbler.next_nil prng transpose inStep.garbler nil, by
      simp only [InputEvaluator.next, inStep.evaluator, now]
      rfl⟩
  refine ⟨t, finished.of_reaches end_ reaches, finished, ?_⟩
  rw [covers, now, bits]
  exact congrArg _ (List.append_nil done).symm

end Runs

/-- A generator that counts. -/
def countingPrng : Prng Nat where
  getDoubleword g := (BitVec.ofNat 128 g, g + 1)
  getWord g := (BitVec.ofNat 64 g, g + 1)

/-- A receiver whose generators are numbers apart from each other. -/
def sampleReceiver : OtReceiver Nat := ⟨⟨[], fun i => 1000 * i⟩, ⟨[], fun i => 1000 * i + 500⟩, 7⟩

/-- The sender with the generators at its choice bits. -/
def sampleSender : OtSender Nat where
  baseReceiverInput := (YaoGarbleMaster.delta 0x8004).r
  senderOutput := ⟨[], fun i => if (YaoGarbleMaster.delta 0x8004).r.getLsbD i then 1000 * i + 500
    else 1000 * i⟩
  G := 8

/-- Bits of both parties, a call without any, and a queue that is served twice. -/
def sampleOps : List GarblerOp :=
  [.input (.inputb [⟨⟨1, 3⟩, 0, [5]⟩, ⟨⟨0, 1⟩, 1, [1]⟩]), .other 2, .input (.inputbvec []),
    .processReceiverInputs, .input (.inputbvec [⟨1, [4, 6], [false, true]⟩]),
    .processReceiverInputs]

/-- The sample can be brought to its end, where every wire has its bit's signal. -/
theorem sampleOps_transferred :
    ∃ t, (inputStart sampleOps (YaoGarbleMaster.delta 0x8004) 5 sampleSender
        sampleReceiver).Reaches (InputGarbler.next countingPrng transposed)
        (InputEvaluator.next countingPrng transposed) t ∧
      t.right.wires.map (List.map Prod.fst) =
        [[⟨1, 0, 0, true⟩, ⟨1, 0, 1, false⟩, ⟨1, 0, 2, true⟩, ⟨0, 1, 0, true⟩], [],
          [⟨1, 4, 0, false⟩, ⟨1, 6, 0, true⟩]] ∧
      (∀ wires ∈ t.right.wires, ∀ wire ∈ wires, wire.1.sender = 1 →
        wire.2.getSignal = wire.1.value) ∧
      t.right.control ≠ .failed .wrongSignal := by
  obtain ⟨t, reaches, -, bits⟩ := inputs_served (s := inputStart sampleOps
      (YaoGarbleMaster.delta 0x8004) 5 sampleSender sampleReceiver)
    countingPrng transposes_transposed rfl (fun _ => rfl) (by decide) rfl .refl
  obtain ⟨-, -, signal, safe⟩ := inputs_transferred transposes_transposed rfl (fun _ => rfl) reaches
  exact ⟨t, reaches, bits, signal, safe⟩

end SimpleOprf.Yao
