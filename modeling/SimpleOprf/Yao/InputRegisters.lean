import SimpleOprf.Yao.Registers

/-!
# Inputs in the registers

What a call of `inputb` or `inputbvec` leaves in the registers of both parties. The first
loop of a call makes room in the registers and writes the garbler's inputs, the second one
writes the keys of the evaluator's inputs.
-/

namespace SimpleOprf.Yao

open SimpleOprf.Basis SimpleOprf.OtExtension

/-- One register of a call. -/
structure InputPart where
  sender : Nat
  register : Nat
  values : List Bool
deriving DecidableEq, Repr

/-- The bits of a part, in order. -/
def InputPart.bits (p : InputPart) : List InputBit :=
  p.values.mapIdx fun j value => ⟨p.sender, p.register, j, value⟩

/-- A tuple of `inputb` sets a register for every 64 bits. -/
def InputbArgs.parts (x : InputbArgs) : List InputPart :=
  (List.range ((x.nBits + 63) / 64)).map fun i =>
    ⟨x.sender, x.dest + i,
      (List.range (min 64 (x.nBits - i * 64))).map fun j => (x.words.getD i 0).getLsbD j⟩

/-- A tuple of `inputbvec` sets a register for every bit. -/
def InputVecArgs.parts (x : InputVecArgs) : List InputPart :=
  x.dest.mapIdx fun i dest => ⟨x.sender, dest, [x.values.getD i false]⟩

namespace InputCall

/-- The registers that a call sets. -/
def parts : InputCall → List InputPart
  | .inputb args => args.flatMap InputbArgs.parts
  | .inputbvec args => args.flatMap InputVecArgs.parts

/-- The wires of a call are those of its registers. -/
theorem bits_eq (call : InputCall) : call.bits = call.parts.flatMap InputPart.bits := by
  cases call with
  | inputb args =>
    rw [bits, parts, List.flatMap_assoc]
    refine List.flatMap_congr fun x _ => ?_
    rw [InputbArgs.bits, InputbArgs.parts, List.flatMap_map]
    refine List.flatMap_congr fun i _ => ?_
    refine List.ext_getElem (by simp [InputPart.bits]) fun j low high => ?_
    simp [InputPart.bits]
  | inputbvec args =>
    rw [bits, parts, List.flatMap_assoc]
    refine List.flatMap_congr fun x _ => ?_
    rw [InputVecArgs.bits, InputVecArgs.parts]
    generalize x.dest = dests
    have cut : ∀ k, dests.mapIdx (fun i dest => InputBit.mk x.sender dest 0 (x.values.getD (k + i) false)) =
        (dests.mapIdx fun i dest =>
          InputPart.mk x.sender dest [x.values.getD (k + i) false]).flatMap InputPart.bits := by
      induction dests with
      | nil => exact fun _ => rfl
      | cons dest rest ih =>
        intro k
        have later := ih (k + 1)
        simp only [List.mapIdx_cons, List.flatMap_cons, Nat.add_right_comm k 1] at later ⊢
        rw [InputPart.bits]
        exact congrArg _ later
    simpa using cut 0

end InputCall

/-! ## The garbler -/

namespace YaoGarbleWire

/-- The first loop. -/
def storeOwn (delta : Key) (S : Memory Key) (p : InputPart) : Memory Key :=
  if p.sender = 0 then
    S.assign p.register (p.values.map fun value => YaoHalfGate.garblePublicInput value delta)
  else S.resizeRegs p.register p.values.length

/-- The second loop on the keys that it draws. -/
def storeOthers : List InputPart → List Key → Memory Key → Memory Key
  | [], _, S => S
  | p :: rest, keys, S =>
    if p.sender = 1 then
      storeOthers rest (keys.drop p.values.length)
        (S.assign p.register (keys.take p.values.length))
    else storeOthers rest keys (S.resizeRegs p.register p.values.length)

/-- A call: the registers, the generator, and the keys for the queue. -/
def inputCall {σ : Type} (prng : Prng σ) (delta : Key) (call : InputCall) (S : Memory Key) (g : σ) :
    Memory Key × σ × List Key :=
  let S := call.parts.foldl (storeOwn delta) S
  let (input, wires) := finalizeInputs prng call.bits ⟨g, []⟩
  (storeOthers call.parts (wires.map Prod.snd) S, input.prng, input.keys)

end YaoGarbleWire

/-! ## The evaluator -/

/-- The garbler in `process_receiver_inputs`. -/
structure InputServer (σ : Type) where
  otExt : OtSender σ
  receiverInputKeys : List (List Key)

/-- Serve the front of the queue. -/
def InputServer.serve {σ : Type} (prng : Prng σ) (transpose : Square → Square)
    (s : InputServer σ) (u : List Square) : Option (List Key × InputServer σ) :=
  match s.receiverInputKeys with
  | [] => none
  | keys :: rest =>
    let otExt := s.otExt.extendCorrelated prng transpose keys.length u
    some (InputGarbler.maskKeys keys otExt.senderOutput.squares, ⟨otExt, rest⟩)

namespace YaoEvalWire

/-- The second loop on the keys that it unmasks. -/
def storeWires : List InputPart → List Key → Memory Key → Memory Key
  | [], _, S => S
  | p :: rest, keys, S =>
    storeWires rest (keys.drop p.values.length) (S.assign p.register (keys.take p.values.length))

/-- A call with the messages that it exchanges, unless one of the parties fails. -/
def inputCall {σ : Type} (prng : Prng σ) (transpose : Square → Square) (call : InputCall)
    (S : Memory Key) (otExt : OtReceiver σ) (server : InputServer σ) :
    Option (Memory Key × OtReceiver σ × InputServer σ) := do
  let S := call.parts.foldl (fun S p => S.resizeRegs p.register p.values.length) S
  let input := myInputs call.bits ⟨[], 0, []⟩
  let (otExt, u) ← otExt.extendCorrelated prng transpose input.inputs.length input.inputs
  let (os, server) ← server.serve prng transpose (u.getD [])
  let wires ← (finalizeInputs otExt.receiverOutput.squares call.bits { input with os }).toOption
  return (storeWires call.parts (wires.map Prod.snd) S, otExt, server)

end YaoEvalWire

/-- The values of a call in plain registers. -/
def InputCall.plain (call : InputCall) (V : Memory Bool) : Memory Bool :=
  call.parts.foldl (fun V p => V.assign p.register p.values) V

/-- Two players, and a register for each part of its own. -/
structure InputCall.WellFormed (call : InputCall) : Prop where
  senders : ∀ p ∈ call.parts, p.sender < 2
  registers : (call.parts.map InputPart.register).Nodup

/-! ## Both sides -/

/-- The keys that the evaluator gets under the keys that the garbler draws. -/
def activeKeys (delta : Key) : List InputPart → List Key → List Key
  | [], _ => []
  | p :: rest, keys =>
    if p.sender = 1 then
      List.zipWith (fun key value => keyOf key delta value) (keys.take p.values.length) p.values ++
        activeKeys delta rest (keys.drop p.values.length)
    else List.replicate p.values.length 0 ++ activeKeys delta rest keys

theorem InputPart.length_bits (p : InputPart) : p.bits.length = p.values.length := by
  simp [bits]

/-- All bits of a part have its sender. -/
theorem InputPart.sender_of_mem {p : InputPart} {bit : InputBit} (member : bit ∈ p.bits) :
    bit.sender = p.sender := by
  obtain ⟨i, inside, rfl⟩ := List.mem_mapIdx.mp member
  rfl

/-- They have its values. -/
theorem InputPart.map_value_bits (p : InputPart) : p.bits.map InputBit.value = p.values := by
  refine List.ext_getElem (by simp [bits]) fun i low high => by simp [bits]

/-- The bits of the evaluator among those of a register. -/
theorem InputPart.filter_bits (p : InputPart) :
    p.bits.filter (fun bit => bit.sender = 1) = if p.sender = 1 then p.bits else [] := by
  split
  · rename_i own
    refine List.filter_eq_self.mpr fun bit member => ?_
    rw [sender_of_mem member, own]
    rfl
  · rename_i other
    refine List.filter_eq_nil_iff.mpr fun bit member => ?_
    rw [sender_of_mem member]
    simpa using other

section Both

variable {delta : Key}

/-- The wires of a call in the order of its registers. -/
theorem map_snd_wires {parts : List InputPart} {wires others : List (InputBit × Key)}
    (bits : wires.map Prod.fst = parts.flatMap InputPart.bits)
    (drawn : others.map Prod.fst =
      (parts.flatMap InputPart.bits).filter fun bit => bit.sender = 1)
    (own : wires.filter (fun wire => wire.1.sender = 1) = others.map (carried delta))
    (zero : ∀ wire ∈ wires, wire.1.sender ≠ 1 → wire.2 = 0) :
    wires.map Prod.snd = activeKeys delta parts (others.map Prod.snd) := by
  induction parts generalizing wires others with
  | nil =>
    obtain rfl := List.map_eq_nil_iff.mp bits
    rfl
  | cons p rest ih =>
    rw [List.flatMap_cons] at bits drawn
    rw [List.filter_append, p.filter_bits] at drawn
    obtain ⟨first, later, rfl, firstBits, laterBits⟩ := List.map_eq_append_iff.mp bits
    have size : first.length = p.values.length := by
      rw [← p.length_bits, ← firstBits, List.length_map]
    have sender : ∀ wire ∈ first, wire.1.sender = p.sender := fun wire member =>
      InputPart.sender_of_mem (firstBits ▸ List.mem_map_of_mem member)
    have laterZero := fun wire member => zero wire (List.mem_append_right first member)
    rw [List.filter_append] at own
    by_cases evaluator : p.sender = 1
    · rw [if_pos evaluator] at drawn
      obtain ⟨mine, rest', rfl, mineBits, restBits⟩ := List.map_eq_append_iff.mp drawn
      have kept : first.filter (fun wire => wire.1.sender = 1) = first :=
        List.filter_eq_self.mpr fun wire member => by simpa [evaluator] using sender wire member
      have count : mine.length = p.values.length := by
        rw [← p.length_bits, ← mineBits, List.length_map]
      rw [kept, List.map_append] at own
      obtain ⟨same, others⟩ := List.append_inj own (by rw [size, List.length_map, count])
      have values : p.values = mine.map fun wire => wire.1.value := by
        rw [← p.map_value_bits, ← mineBits, List.map_map]
        rfl
      rw [activeKeys, if_pos evaluator, List.map_append, ih laterBits restBits others laterZero,
        List.map_append, List.take_left' (by rw [List.length_map, count]),
        List.drop_left' (by rw [List.length_map, count]), same, values, List.map_map]
      refine congrArg (· ++ _) ?_
      rw [List.zipWith_map, List.zipWith_self]
      rfl
    · rw [if_neg evaluator, List.nil_append] at drawn
      have dropped : first.filter (fun wire => wire.1.sender = 1) = [] :=
        List.filter_eq_nil_iff.mpr fun wire member => by simpa [sender wire member] using evaluator
      have zeros : first.map Prod.snd = List.replicate p.values.length 0 := by
        refine List.eq_replicate_iff.mpr ⟨by rw [List.length_map, size], fun key member => ?_⟩
        obtain ⟨wire, found, rfl⟩ := List.mem_map.mp member
        exact zero wire (List.mem_append_left later found) (by rwa [sender wire found])
      rw [dropped, List.nil_append] at own
      rw [activeKeys, if_neg evaluator, List.map_append, ih laterBits drawn own laterZero, zeros]

/-- The keys for the evaluator's bits are as many as those bits. -/
theorem sum_others {parts : List InputPart} {others : List (InputBit × Key)}
    (drawn : others.map Prod.fst =
      (parts.flatMap InputPart.bits).filter fun bit => bit.sender = 1) :
    (others.map Prod.snd).length =
      ((parts.filter fun p => p.sender = 1).map fun p => p.values.length).sum := by
  rw [List.length_map, ← List.length_map (f := Prod.fst), drawn]
  clear drawn
  induction parts with
  | nil => rfl
  | cons p rest ih =>
    rw [List.flatMap_cons, List.filter_append, List.length_append, ih, p.filter_bits]
    by_cases own : p.sender = 1
    · simp [own, p.length_bits]
    · simp [own]

/-- The second loops of both parties, from what the first ones left. -/
theorem store_aligned {parts : List InputPart} (senders : ∀ p ∈ parts, p.sender < 2)
    (distinct : (parts.map InputPart.register).Nodup) {keys : List Key} {G E : Memory Key}
    {V : Memory Bool} (count : keys.length =
      ((parts.filter fun p => p.sender = 1).map fun p => p.values.length).sum)
    (publics : ∀ p ∈ parts, p.sender = 0 → G p.register =
      p.values.map fun value => YaoHalfGate.garblePublicInput value delta)
    (others : ∀ r, r ∉ parts.map InputPart.register → Carries delta (G r) (E r) (V r)) :
    Aligned delta (YaoGarbleWire.storeOthers parts keys G)
      (YaoEvalWire.storeWires parts (activeKeys delta parts keys) E)
      (parts.foldl (fun V p => V.assign p.register p.values) V) := by
  induction parts generalizing keys G E V with
  | nil => exact fun r => others r List.not_mem_nil
  | cons p rest ih =>
    rw [List.map_cons, List.nodup_cons] at distinct
    have later := fun q member => senders q (List.mem_cons_of_mem p member)
    -- the registers of the rest are as before, and this one is done
    have step : ∀ {g e : List Key} {remaining : List Key}, Carries delta g e p.values →
        remaining.length =
          ((rest.filter fun p => p.sender = 1).map fun p => p.values.length).sum →
        Aligned delta (YaoGarbleWire.storeOthers rest remaining (G.assign p.register g))
          (YaoEvalWire.storeWires rest (activeKeys delta rest remaining) (E.assign p.register e))
          (rest.foldl (fun V p => V.assign p.register p.values) (V.assign p.register p.values)) := by
      intro g e remaining carries count
      refine ih later distinct.2 count (fun q member garbler => ?_) fun r absent => ?_
      · have apart : q.register ≠ p.register := fun same =>
          distinct.1 (same ▸ List.mem_map_of_mem member)
        rw [Memory.assign, Function.update_of_ne apart]
        exact publics q (List.mem_cons_of_mem p member) garbler
      · by_cases here : r = p.register
        · subst here
          simpa [Memory.assign] using carries
        · simp only [Memory.assign, Function.update_of_ne here]
          exact others r (by simpa [here] using absent)
    rw [List.foldl_cons, YaoGarbleWire.storeOthers, YaoEvalWire.storeWires, activeKeys]
    by_cases evaluator : p.sender = 1
    · rw [List.filter_cons_of_pos (by simpa using evaluator), List.map_cons, List.sum_cons] at count
      have full : (keys.take p.values.length).length = p.values.length := by
        rw [List.length_take]
        omega
      have zipped : (List.zipWith (fun key value => keyOf key delta value)
          (keys.take p.values.length) p.values).length = p.values.length := by
        rw [List.length_zipWith, full, Nat.min_self]
      rw [if_pos evaluator, if_pos evaluator, List.take_left' zipped, List.drop_left' zipped]
      refine step ⟨full, zipped, fun i => ?_⟩ (by rw [List.length_drop]; omega)
      by_cases inside : i < p.values.length
      · rw [List.getD_eq_getElem _ _ (zipped.symm ▸ inside),
          List.getD_eq_getElem _ _ (full.symm ▸ inside), List.getD_eq_getElem _ _ inside,
          List.getElem_zipWith]
      · rw [List.getD_eq_default _ _ (by omega), List.getD_eq_default _ _ (by omega),
          List.getD_eq_default _ _ (by omega)]
        rfl
    · rw [List.filter_cons_of_neg (by simpa using evaluator)] at count
      have garbler : p.sender = 0 := by
        have two := senders p List.mem_cons_self
        omega
      rw [if_neg evaluator, if_neg evaluator, List.take_left' List.length_replicate,
        List.drop_left' List.length_replicate]
      refine step ⟨by simp, by simp, fun i => ?_⟩ count
      rw [publics p List.mem_cons_self garbler]
      by_cases inside : i < p.values.length
      · simp [List.getD_eq_getElem?_getD, inside, keyOf_publicInput]
      · simp only [List.getD_eq_getElem?_getD, List.getElem?_map, List.getElem?_replicate, inside,
          if_false]
        have past : (List.range p.values.length)[i]? = none := by simpa using inside
        have none : p.values[i]? = none := by simpa using inside
        rw [past, none]
        rfl

/-- A loop over the registers of a call leaves the others alone. -/
theorem foldl_registers {α : Type} {body : Memory α → InputPart → Memory α}
    (frame : ∀ S p r, r ≠ p.register → body S p r = S r) {parts : List InputPart} {r : Nat}
    (absent : r ∉ parts.map InputPart.register) (S : Memory α) : parts.foldl body S r = S r :=
  @foldl_untouched _ _ _ _ body (fun S r => S r) InputPart.register frame parts r
    (fun p member same => absent (List.mem_map.mpr ⟨p, member, same.symm⟩)) S

/-- Setting registers leaves the others. -/
theorem assign_frame {α : Type} (S : Memory α) {r r' : Nat} (apart : r' ≠ r) (registers : List α) :
    S.assign r registers r' = S r' := Function.update_of_ne apart _ _

/-- Storing a part leaves the other registers. -/
theorem storeOwn_frame (S : Memory Key) (p : InputPart) (r : Nat) (apart : r ≠ p.register) :
    YaoGarbleWire.storeOwn delta S p r = S r := by
  unfold YaoGarbleWire.storeOwn
  split
  · exact assign_frame S apart _
  · exact assign_frame S apart _

/-- The first loop of the garbler leaves its inputs in their registers. -/
theorem storeOwn_register {parts : List InputPart}
    (distinct : (parts.map InputPart.register).Nodup) (S : Memory Key) {p : InputPart}
    (member : p ∈ parts) (own : p.sender = 0) :
    parts.foldl (YaoGarbleWire.storeOwn delta) S p.register =
      p.values.map fun value => YaoHalfGate.garblePublicInput value delta := by
  obtain ⟨before, after, rfl⟩ := List.append_of_mem member
  rw [List.map_append, List.map_cons] at distinct
  have last : ∀ q ∈ after, p.register ≠ q.register := by
    have tail := (List.nodup_append.mp distinct).2.1
    exact fun q found same =>
      (List.nodup_cons.mp tail).1 (same ▸ List.mem_map_of_mem found)
  have written := @foldl_written _ _ _ _ (YaoGarbleWire.storeOwn delta) (fun S r => S r)
    InputPart.register storeOwn_frame before after p last S
  rw [written, YaoGarbleWire.storeOwn, if_pos own]
  exact Function.update_self ..

variable {σ : Type} (prng : Prng σ) {transpose : Square → Square}

/-- The extension for a call, also for one without bits of the evaluator. -/
theorem extendCorrelated_served (transposes : Transposes transpose) {s : OtSender σ}
    {r : OtReceiver σ} (baseOts : BaseOtsAgree s r) (choices : List Bool) :
    ∃ r' u, r.extendCorrelated prng transpose choices.length choices = some (r', u) ∧
      BaseOtsAgree (s.extendCorrelated prng transpose choices.length (u.getD [])) r' ∧
      (s.extendCorrelated prng transpose choices.length (u.getD [])).baseReceiverInput =
        s.baseReceiverInput ∧
      Correlated s.baseReceiverInput choices r'.receiverOutput.squares
        (s.extendCorrelated prng transpose choices.length (u.getD [])).senderOutput.squares := by
  by_cases empty : choices = []
  · subst empty
    exact ⟨r, none, rfl, baseOts, rfl, nofun⟩
  · obtain ⟨r', u, ran, aligned, base, correlated⟩ :=
      extendCorrelated_correct prng transposes baseOts empty
    exact ⟨r', some u, ran, aligned, base, correlated⟩

/-- The keys that the garbler draws in a call. -/
theorem inputCall_keys {call : InputCall} {G G' : Memory Key} {g g' : σ} {keys : List Key}
    (garbled : YaoGarbleWire.inputCall prng delta call G g = (G', g', keys)) :
    ∃ others : List (InputBit × Key), keys = others.map Prod.snd ∧
      others.map Prod.fst = (call.bits.filter fun bit => bit.sender = 1) ∧
      (∀ wire ∈ others, wire.2.getSignal = false) ∧
      G' = YaoGarbleWire.storeOthers call.parts keys
        (call.parts.foldl (YaoGarbleWire.storeOwn delta) G) := by
  have finalized := YaoGarbleWire.finalizeInputs_eq prng call.bits ⟨g, []⟩
  unfold YaoGarbleWire.inputCall at garbled
  revert garbled finalized
  generalize YaoGarbleWire.finalizeInputs prng call.bits ⟨g, []⟩ = result
  obtain ⟨after, others⟩ := result
  rintro garbled ⟨queued, drawn, even⟩
  rw [List.nil_append] at queued
  dsimp only at garbled
  rw [Prod.mk.injEq, Prod.mk.injEq] at garbled
  obtain ⟨rfl, rfl, rfl⟩ := garbled
  exact ⟨others, queued, drawn, even, by rw [queued]⟩

/-- What the evaluator holds once it has the active keys of a call. -/
def evaluated (delta : Key) (call : InputCall) (keys : List Key) (E : Memory Key) : Memory Key :=
  YaoEvalWire.storeWires call.parts (activeKeys delta call.parts keys)
    (call.parts.foldl (fun S p => S.resizeRegs p.register p.values.length) E)

/-- After an input call the evaluator's registers carry the bits under the garbler's
keys. -/
theorem evaluated_aligned {G E : Memory Key} {V : Memory Bool} (aligned : Aligned delta G E V)
    {call : InputCall} (wellFormed : call.WellFormed) {g g' : σ} {G' : Memory Key}
    {keys : List Key} (garbled : YaoGarbleWire.inputCall prng delta call G g = (G', g', keys)) :
    Aligned delta G' (evaluated delta call keys E) (call.plain V) := by
  obtain ⟨others, rfl, drawn, -, rfl⟩ := inputCall_keys prng garbled
  rw [InputCall.bits_eq] at drawn
  refine store_aligned wellFormed.senders wellFormed.registers (sum_others drawn)
    (fun p member garbler => storeOwn_register wellFormed.registers G member garbler)
    fun r absent => ?_
  have resized := @foldl_registers Key (fun S p => S.resizeRegs p.register p.values.length)
    (fun S p r apart => assign_frame S apart _) call.parts r absent E
  rw [foldl_registers storeOwn_frame absent, resized]
  exact aligned r

/-- The evaluator gets the active keys of a call from a garbler that serves it. -/
theorem inputCall_evaluated (transposes : Transposes transpose) (odd : delta.getSignal = true)
    {call : InputCall} {g g' : σ} {G G' : Memory Key} {keys : List Key}
    (garbled : YaoGarbleWire.inputCall prng delta call G g = (G', g', keys)) {sender : OtSender σ}
    {otExt : OtReceiver σ} (baseOts : BaseOtsAgree sender otExt)
    (base : sender.baseReceiverInput = delta.r) (E : Memory Key) (queue : List (List Key)) :
    ∃ otExt' sender', YaoEvalWire.inputCall prng transpose call E otExt ⟨sender, keys :: queue⟩ =
        some (evaluated delta call keys E, otExt', ⟨sender', queue⟩) ∧
      BaseOtsAgree sender' otExt' ∧ sender'.baseReceiverInput = delta.r := by
  obtain ⟨others, rfl, drawn, even, -⟩ := inputCall_keys prng garbled
  have count : (others.map Prod.snd).length = (choiceBits call.bits).length := by
    rw [List.length_map, ← List.length_map (f := Prod.fst), drawn, choiceBits, List.length_map]
  obtain ⟨otExt', u, extended, agree, kept, correlated⟩ :=
    extendCorrelated_served prng transposes baseOts (choiceBits call.bits)
  rw [base] at kept correlated
  obtain ⟨wires, run, bits, own, -, zero⟩ := YaoEvalWire.finalizeInputs_ok odd correlated call.bits 0
    drawn even rfl
  refine ⟨otExt', _, ?_, agree, kept⟩
  have masked : InputGarbler.maskKeys (others.map Prod.snd) (sender.extendCorrelated prng transpose
      (choiceBits call.bits).length (u.getD [])).senderOutput.squares =
      maskKeysFrom 0 (others.map Prod.snd) (sender.extendCorrelated prng transpose
        (choiceBits call.bits).length (u.getD [])).senderOutput.squares := by
    simp only [InputGarbler.maskKeys, maskKeysFrom, Nat.zero_add]
  have keys : wires.map Prod.snd = activeKeys delta call.parts (others.map Prod.snd) := by
    rw [InputCall.bits_eq] at bits drawn
    exact map_snd_wires bits drawn own zero
  simp only [YaoEvalWire.inputCall, YaoEvalWire.myInputs_eq, List.nil_append, extended,
    InputServer.serve, count, masked, run, Option.bind_eq_bind, Option.bind_some,
    Except.toOption, pure, keys, evaluated]

end Both

end SimpleOprf.Yao
