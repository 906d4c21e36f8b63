import SimpleOprf.Basis.InBounds
import SimpleOprf.GcMmo.Garble

/-!
# When the interpreters stay inside their vectors

For any circuit, well formed or not, the exact condition under which each of
the three interpreters makes no access outside a vector.

A gate reads its inputs before it writes its output and an AND gate its table
in between, so the condition is a conjunction over the gates, in the order in
which they run.
-/

namespace SimpleOprf.GcMmo

open SimpleOprf.Basis SimpleOprf.Basis.Outcome

/-- The wires that a gate touches exist; a NOT does not read its second input. -/
structure Gate.InRange (wires : Nat) (g : Gate) : Prop where
  in0 : g.in0.toNat < wires
  in1 : g.type ≠ .inv → g.in1.toNat < wires
  out : g.out.toNat < wires

variable {α β : Type}

/-- Reading two wires before an access to the output wire. -/
private theorem binary_inBounds {w : List α} {a b o : Nat} {tail : α → α → Outcome β}
    (writes : ∀ x y, InBounds (tail x y) ↔ o < w.length) :
    InBounds (do let x ← readAt w a; let y ← readAt w b; tail x y) ↔
      a < w.length ∧ b < w.length ∧ o < w.length := by
  rw [inBounds_bind, inBounds_readAt]
  refine and_congr_right fun insideA => ?_
  constructor
  · intro rest
    obtain ⟨readB, write⟩ := inBounds_bind.mp (rest _ (readAt_of_lt insideA))
    have insideB := inBounds_readAt.mp readB
    exact ⟨insideB, (writes _ _).mp (write _ (readAt_of_lt insideB))⟩
  · rintro ⟨insideB, insideO⟩ x _
    rw [inBounds_bind, inBounds_readAt]
    exact ⟨insideB, fun y _ => (writes x y).mpr insideO⟩

/-- A gate with one input reads it and writes its output. -/
private theorem unary_inBounds {w : List α} {a o : Nat} {tail : α → Outcome β}
    (writes : ∀ x, InBounds (tail x) ↔ o < w.length) :
    InBounds (do let x ← readAt w a; tail x) ↔ a < w.length ∧ o < w.length := by
  rw [inBounds_bind, inBounds_readAt]
  refine and_congr_right fun insideA => ?_
  constructor
  · intro rest
    exact (writes _).mp (rest _ (readAt_of_lt insideA))
  · intro insideO x _
    exact (writes x).mpr insideO

/-- Two reads and a write fail out of bounds only. -/
private theorem binary_only {w : List α} {a b : Nat} {tail : α → α → Outcome β}
    (writes : ∀ x y, OnlyOutOfBounds (tail x y)) :
    OnlyOutOfBounds (do let x ← readAt w a; let y ← readAt w b; tail x y) :=
  (readAt_only w a).bind fun x => (readAt_only w b).bind fun y => writes x y

/-- One read and a write fail out of bounds only. -/
private theorem unary_only {w : List α} {a : Nat} {tail : α → Outcome β}
    (writes : ∀ x, OnlyOutOfBounds (tail x)) :
    OnlyOutOfBounds (do let x ← readAt w a; tail x) :=
  (readAt_only w a).bind writes

/-- The three wires of a gate that is no INV. -/
private theorem inRange_binary {wires : Nat} {type : GateType} {a b o : UInt32}
    (binary : type ≠ .inv) : (Gate.mk type a b o).InRange wires ↔
      a.toNat < wires ∧ b.toNat < wires ∧ o.toNat < wires :=
  ⟨fun range => ⟨range.in0, range.in1 binary, range.out⟩,
    fun ⟨in0, in1, out⟩ => ⟨in0, fun _ => in1, out⟩⟩

/-- The two wires of an INV gate. -/
private theorem inRange_unary {wires : Nat} {a b o : UInt32} :
    (Gate.mk .inv a b o).InRange wires ↔ a.toNat < wires ∧ o.toNat < wires :=
  ⟨fun range => ⟨range.in0, range.out⟩, fun ⟨in0, out⟩ => ⟨in0, fun binary => absurd rfl binary, out⟩⟩

/-! ## Plain evaluation -/

/-- A plaintext gate is inside exactly when its wires are. -/
theorem plainGate_inBounds {w : List UInt8} {g : Gate} :
    InBounds (plainGate w g) ↔ g.InRange w.length := by
  obtain ⟨type, a, b, o⟩ := g
  have writes : ∀ x, InBounds (writeAt w o.toNat x) ↔ o.toNat < w.length := fun x =>
    inBounds_writeAt
  cases type with
  | xor => exact (binary_inBounds fun _ _ => writes _).trans (inRange_binary (by decide)).symm
  | and => exact (binary_inBounds fun _ _ => writes _).trans (inRange_binary (by decide)).symm
  | inv => exact (unary_inBounds fun _ => writes _).trans inRange_unary.symm

/-- It fails out of bounds only. -/
theorem plainGate_only (w : List UInt8) (g : Gate) : OnlyOutOfBounds (plainGate w g) := by
  obtain ⟨type, a, b, o⟩ := g
  cases type with
  | xor => exact binary_only fun _ _ => writeAt_only _ _ _
  | and => exact binary_only fun _ _ => writeAt_only _ _ _
  | inv => exact unary_only fun _ => writeAt_only _ _ _

theorem length_of_plainGate {w next : List UInt8} {g : Gate} (ran : plainGate w g = .ok next) :
    next.length = w.length := by
  unfold plainGate at ran
  split at ran
  · obtain ⟨_, -, ran⟩ := bind_eq_ok.mp ran
    obtain ⟨_, -, ran⟩ := bind_eq_ok.mp ran
    exact length_of_writeAt ran
  · obtain ⟨_, -, ran⟩ := bind_eq_ok.mp ran
    obtain ⟨_, -, ran⟩ := bind_eq_ok.mp ran
    exact length_of_writeAt ran
  · obtain ⟨_, -, ran⟩ := bind_eq_ok.mp ran
    exact length_of_writeAt ran

/-- The plain gate loop stays inside exactly when every gate does. -/
theorem plainGates_inBounds {gates : List Gate} {w : List UInt8} :
    InBounds (gates.foldlM plainGate w) ↔ ∀ g ∈ gates, g.InRange w.length := by
  refine inBounds_foldlM (fun state => state.length = w.length) plainGate_only ?_ ?_ rfl
  · intro state sized g _
    rw [plainGate_inBounds, sized]
  · intro state sized g next ran
    exact (length_of_plainGate ran).trans sized

/-! ## Garbling -/

/-- A garbled gate is inside exactly when its wires are. -/
theorem garbleGate_inBounds {aes : Block → Block} {delta : Block} {state : GarbleState} {g : Gate} :
    InBounds (garbleGate aes delta state g) ↔ g.InRange state.wire0.length := by
  obtain ⟨type, a, b, o⟩ := g
  cases type with
  | xor =>
    exact (binary_inBounds fun _ _ => inBounds_bind_ok.trans inBounds_writeAt).trans
      (inRange_binary (by decide)).symm
  | and =>
    exact (binary_inBounds fun _ _ => inBounds_bind_ok.trans inBounds_writeAt).trans
      (inRange_binary (by decide)).symm
  | inv =>
    exact (unary_inBounds fun _ => inBounds_bind_ok.trans inBounds_writeAt).trans
      inRange_unary.symm

/-- It fails out of bounds only. -/
theorem garbleGate_only (aes : Block → Block) (delta : Block) (state : GarbleState) (g : Gate) :
    OnlyOutOfBounds (garbleGate aes delta state g) := by
  obtain ⟨type, a, b, o⟩ := g
  cases type with
  | xor => exact binary_only fun _ _ => (writeAt_only _ _ _).bind fun _ => .ok _
  | and => exact binary_only fun _ _ => (writeAt_only _ _ _).bind fun _ => .ok _
  | inv => exact unary_only fun _ => (writeAt_only _ _ _).bind fun _ => .ok _

theorem length_of_garbleGate {aes : Block → Block} {delta : Block} {state next : GarbleState}
    {g : Gate} (ran : garbleGate aes delta state g = .ok next) :
    next.wire0.length = state.wire0.length := by
  unfold garbleGate at ran
  split at ran
  · obtain ⟨_, -, ran⟩ := bind_eq_ok.mp ran
    obtain ⟨_, -, ran⟩ := bind_eq_ok.mp ran
    obtain ⟨_, written, ran⟩ := bind_eq_ok.mp ran
    cases ran
    exact length_of_writeAt written
  · obtain ⟨_, -, ran⟩ := bind_eq_ok.mp ran
    obtain ⟨_, written, ran⟩ := bind_eq_ok.mp ran
    cases ran
    exact length_of_writeAt written
  · obtain ⟨_, -, ran⟩ := bind_eq_ok.mp ran
    obtain ⟨_, -, ran⟩ := bind_eq_ok.mp ran
    obtain ⟨_, written, ran⟩ := bind_eq_ok.mp ran
    cases ran
    exact length_of_writeAt written

/-- All gates are inside exactly when the wires of each are. -/
theorem garbleGates_inBounds {aes : Block → Block} {delta : Block} {gates : List Gate}
    {state : GarbleState} :
    InBounds (gates.foldlM (garbleGate aes delta) state) ↔
      ∀ g ∈ gates, g.InRange state.wire0.length := by
  refine inBounds_foldlM (fun later => later.wire0.length = state.wire0.length)
    (garbleGate_only aes delta) ?_ ?_ rfl
  · intro later sized g _
    rw [garbleGate_inBounds, sized]
  · intro later sized g next ran
    exact (length_of_garbleGate ran).trans sized

/-! ## Evaluation -/

/-- An AND gate of the evaluator also reads the table that its counter names. -/
theorem activeGate_inBounds {aes : Block → Block} {tables : List AndGateTable} {w : List Block}
    {andId : Nat} {g : Gate} : InBounds (activeGate aes tables (w, andId) g) ↔
      g.InRange w.length ∧ (g.type = .and → andId < tables.length) := by
  obtain ⟨type, a, b, o⟩ := g
  cases type with
  | xor =>
    refine (binary_inBounds fun _ _ => inBounds_bind_ok.trans inBounds_writeAt).trans ?_
    rw [inRange_binary (by decide)]
    exact (and_iff_left fun isAnd => by cases isAnd).symm
  | inv =>
    refine (unary_inBounds fun _ => inBounds_bind_ok.trans inBounds_writeAt).trans ?_
    rw [inRange_unary]
    exact (and_iff_left fun isAnd => by cases isAnd).symm
  | and =>
    rw [inRange_binary (by decide)]
    have wires : ∀ t, InBounds (do
        let wa ← readAt w a.toNat
        let wb ← readAt w b.toNat
        let next ← writeAt w o.toNat (evalAndGate aes andId t wa wb)
        .ok (next, andId + 1) : Outcome (List Block × Nat)) ↔
        a.toNat < w.length ∧ b.toNat < w.length ∧ o.toNat < w.length := fun t =>
      binary_inBounds fun _ _ => inBounds_bind_ok.trans inBounds_writeAt
    change InBounds (readAt tables andId >>= _) ↔ _
    rw [inBounds_bind, inBounds_readAt]
    constructor
    · rintro ⟨supplied, rest⟩
      exact ⟨(wires _).mp (rest _ (readAt_of_lt supplied)), fun _ => supplied⟩
    · rintro ⟨range, supplied⟩
      exact ⟨supplied rfl, fun t _ => (wires t).mpr range⟩

/-- An evaluated gate fails out of bounds only. -/
theorem activeGate_only (aes : Block → Block) (tables : List AndGateTable)
    (state : List Block × Nat) (g : Gate) : OnlyOutOfBounds (activeGate aes tables state g) := by
  obtain ⟨type, a, b, o⟩ := g
  cases type with
  | xor => exact binary_only fun _ _ => (writeAt_only _ _ _).bind fun _ => .ok _
  | inv => exact unary_only fun _ => (writeAt_only _ _ _).bind fun _ => .ok _
  | and =>
    exact (readAt_only _ _).bind fun _ => binary_only fun _ _ =>
      (writeAt_only _ _ _).bind fun _ => .ok _

theorem length_of_activeGate {aes : Block → Block} {tables : List AndGateTable}
    {w : List Block} {andId : Nat} {next : List Block × Nat} {g : Gate}
    (ran : activeGate aes tables (w, andId) g = .ok next) :
    next.1.length = w.length ∧ next.2 = andId + if g.type = .and then 1 else 0 := by
  obtain ⟨type, a, b, o⟩ := g
  cases type with
  | xor =>
    obtain ⟨_, -, ran⟩ := bind_eq_ok.mp ran
    obtain ⟨_, -, ran⟩ := bind_eq_ok.mp ran
    obtain ⟨_, written, ran⟩ := bind_eq_ok.mp ran
    cases ran
    exact ⟨length_of_writeAt written, rfl⟩
  | inv =>
    obtain ⟨_, -, ran⟩ := bind_eq_ok.mp ran
    obtain ⟨_, written, ran⟩ := bind_eq_ok.mp ran
    cases ran
    exact ⟨length_of_writeAt written, rfl⟩
  | and =>
    obtain ⟨_, -, ran⟩ := bind_eq_ok.mp ran
    obtain ⟨_, -, ran⟩ := bind_eq_ok.mp ran
    obtain ⟨_, -, ran⟩ := bind_eq_ok.mp ran
    obtain ⟨_, written, ran⟩ := bind_eq_ok.mp ran
    cases ran
    exact ⟨length_of_writeAt written, rfl⟩

/-- The evaluator's loop stays inside exactly when every gate does and there is a
table for every AND gate still to come. -/
theorem activeGates_inBounds {aes : Block → Block} {tables : List AndGateTable}
    {gates : List Gate} {w : List Block} {andId : Nat} (counted : andId ≤ tables.length) :
    InBounds (gates.foldlM (activeGate aes tables) (w, andId)) ↔
      (∀ g ∈ gates, g.InRange w.length) ∧
        andId + gates.countP (·.type = .and) ≤ tables.length := by
  induction gates generalizing w andId with
  | nil => simpa [pure, Except.pure] using counted
  | cons g rest ih =>
    rw [List.foldlM_cons, inBounds_bind, activeGate_inBounds, List.forall_mem_cons,
      List.countP_cons]
    by_cases inside : g.InRange w.length ∧ (g.type = .and → andId < tables.length)
    · obtain ⟨⟨next, id⟩, ran⟩ := (activeGate_only aes tables (w, andId) g).inBounds_iff.mp
        (activeGate_inBounds.mpr inside)
      obtain ⟨sized, counter⟩ : next.length = w.length ∧
          id = andId + if g.type = .and then 1 else 0 := length_of_activeGate ran
      have bounded : id ≤ tables.length := by
        rw [counter]
        split
        · rename_i isAnd
          exact inside.2 isAnd
        · exact counted
      have later := ih (w := next) bounded
      rw [sized] at later
      have regroup : andId + (if g.type = .and then 1 else 0) + rest.countP (·.type = .and) =
          andId + (rest.countP (·.type = .and) + if g.type = .and then 1 else 0) := by
        omega
      rw [counter, regroup, ← counter] at later
      simp only [decide_eq_true_eq]
      constructor
      · rintro ⟨-, tail⟩
        obtain ⟨ranges, supplied⟩ := later.mp (tail (next, id) ran)
        exact ⟨⟨inside.1, ranges⟩, supplied⟩
      · rintro ⟨⟨-, ranges⟩, supplied⟩
        refine ⟨inside, fun other same => ?_⟩
        rw [ran] at same
        cases same
        exact later.mpr ⟨ranges, supplied⟩
    · refine ⟨fun holds => absurd holds.1 inside, ?_⟩
      rintro ⟨⟨range, -⟩, supplied⟩
      refine absurd ⟨range, fun isAnd => ?_⟩ inside
      simp only [isAnd, decide_true, if_true] at supplied
      omega

/-! ## Whole interpreters -/

/-- Reading an output fails out of bounds only. -/
private theorem readOutput_only (c : Circuit) (w : List α) (i : Nat) : OnlyOutOfBounds (do
    let wire ← readAt c.outputWires i
    readAt w wire.toNat) :=
  (readAt_only _ _).bind fun _ => readAt_only _ _

/-- So does reading all of them. -/
theorem readOutputs_only (c : Circuit) (w : List α) : OnlyOutOfBounds (readOutputs c w) :=
  mapM_only fun i _ => readOutput_only c w i

/-- The output loop stays inside exactly when every output wire exists. -/
theorem readOutputs_inBounds {c : Circuit} {w : List α}
    (sized : c.outputWires.length = c.nOutput.toNat) :
    InBounds (readOutputs c w) ↔ ∀ wire ∈ c.outputWires, wire.toNat < w.length := by
  rw [readOutputs, inBounds_mapM fun i _ => readOutput_only c w i]
  constructor
  · intro inside wire member
    obtain ⟨i, bounded, rfl⟩ := List.getElem_of_mem member
    have here := inside i (List.mem_range.mpr (by rwa [← sized]))
    exact inBounds_readAt.mp ((inBounds_bind.mp here).2 _ (readAt_of_lt bounded))
  · intro inside i member
    have bounded : i < c.outputWires.length := by
      rw [sized]
      exact List.mem_range.mp member
    rw [inBounds_bind, inBounds_readAt]
    refine ⟨bounded, fun wire found => inBounds_readAt.mpr (inside wire ?_)⟩
    exact List.mem_of_getElem? (readAt_eq_ok.mp found)

/-- Store the inputs, run the gate loop and go on with the wire vector: the
shape of all three interpreters. -/
private theorem run_inBounds {State : Type} (start values : List α) (body : List α → Outcome State)
    (wires : State → List α) (tail : State → Outcome β) {gates after : Prop}
    (loop : ∀ w, w.length = start.length → (InBounds (body w) ↔ gates))
    (only : ∀ w, OnlyOutOfBounds (body w))
    (length : ∀ w, w.length = start.length → ∀ final, body w = .ok final →
      (wires final).length = start.length)
    (ends : ∀ final, (wires final).length = start.length → (InBounds (tail final) ↔ after)) :
    InBounds (do
      let w ← storeFront start values
      let final ← body w
      tail final) ↔ values.length ≤ start.length ∧ gates ∧ after := by
  rw [inBounds_bind, inBounds_storeFront]
  refine and_congr_right fun fits => ?_
  have stored := storeFront_of_le fits
  have lengthStored := (length_of_storeFront stored).2
  constructor
  · intro rest
    obtain ⟨runs, tailRuns⟩ := inBounds_bind.mp (rest _ stored)
    obtain ⟨final, ran⟩ := (only _).inBounds_iff.mp runs
    exact ⟨(loop _ lengthStored).mp runs,
      (ends final (length _ lengthStored final ran)).mp (tailRuns final ran)⟩
  · rintro ⟨allowed, rest⟩ w same
    rw [stored] at same
    cases same
    rw [inBounds_bind]
    exact ⟨(loop _ lengthStored).mpr allowed, fun final ran =>
      (ends final (length _ lengthStored final ran)).mpr rest⟩

/-- What the interpreters need of a circuit, with the input count in the 64-bit
arithmetic of their own size checks. -/
structure Circuit.Bounded (c : Circuit) : Prop where
  inputs : (c.nInput0 + c.nInput1).toNat ≤ c.nWires.toNat
  gates : ∀ g ∈ c.gates, g.InRange c.nWires.toNat
  outputs : ∀ wire ∈ c.outputWires, wire.toNat < c.nWires.toNat

/-- A well-formed circuit has its indices in range. -/
theorem Circuit.WellFormed.bounded {c : Circuit} (wellFormed : c.WellFormed) : c.Bounded where
  inputs := by
    rw [wellFormed.inputs_toNat]
    exact wellFormed.inputs
  gates g member := ⟨(wellFormed.gates g member).in0, fun _ => (wellFormed.gates g member).in1,
    (wellFormed.gates g member).out⟩
  outputs := wellFormed.output

/-- The plaintext interpreter is inside exactly when the indices are. -/
theorem evalCircuitPlain_inBounds {c : Circuit} {inBits : List UInt8}
    (sized : c.outputWires.length = c.nOutput.toNat)
    (accepted : inBits.length = (c.nInput0 + c.nInput1).toNat) :
    InBounds (evalCircuitPlain c inBits) ↔ c.Bounded := by
  have whole := run_inBounds (List.replicate c.nWires.toNat (0 : UInt8)) (inBits.map (· &&& 1))
    (fun w => c.gates.foldlM plainGate w) id _
    (fun w length => by rw [plainGates_inBounds, length])
    (fun w => foldlM_only plainGate_only _ w)
    (fun w length final ran => foldlM_keeps (fun state => state.length = _)
      (fun state kept g _ next ran => (length_of_plainGate ran).trans kept) length ran)
    fun final length => (readOutputs_inBounds (w := final) sized).trans (by
      rw [show final.length = _ from length])
  rw [List.length_map, List.length_replicate, accepted] at whole
  rw [evalCircuitPlain, plainWires, if_neg (not_not.mpr accepted), bind_assoc]
  exact whole.trans ⟨fun ⟨inputs, gates, outputs⟩ => ⟨inputs, gates, outputs⟩,
    fun ⟨inputs, gates, outputs⟩ => ⟨inputs, gates, outputs⟩⟩

/-- The evaluator also needs a table for every AND gate. -/
theorem evalCircuitLabels_inBounds {c : Circuit} {aes : Block → Block} {gr : GarbleResult}
    {labels : List Block} (sized : c.outputWires.length = c.nOutput.toNat)
    (accepted : labels.length = (c.nInput0 + c.nInput1).toNat) :
    InBounds (evalCircuitLabels c aes gr labels) ↔ c.Bounded ∧ c.andGates ≤ gr.tables.length := by
  have whole := run_inBounds (List.replicate c.nWires.toNat (0 : Block)) labels
    (fun w => c.gates.foldlM (activeGate aes gr.tables) (w, 0)) Prod.fst
    (fun final => readOutputs c final.1)
    (fun w length => by rw [activeGates_inBounds (Nat.zero_le _), length])
    (fun w => foldlM_only (activeGate_only aes gr.tables) _ (w, 0))
    (fun w length final ran => foldlM_keeps (fun state => state.1.length = _)
      (fun state kept g _ next ran => (length_of_activeGate ran).1.trans kept) length ran)
    fun final length => (readOutputs_inBounds sized).trans (by rw [length])
  rw [List.length_replicate, accepted, Nat.zero_add] at whole
  rw [evalCircuitLabels, activeWires, if_neg (not_not.mpr accepted), bind_assoc]
  simp only [bind_assoc, Outcome.ok_bind]
  exact whole.trans ⟨fun ⟨inputs, ⟨gates, tables⟩, outputs⟩ => ⟨⟨inputs, gates, outputs⟩, tables⟩,
    fun ⟨⟨inputs, gates, outputs⟩, tables⟩ => ⟨inputs, ⟨gates, tables⟩, outputs⟩⟩

/-- The evaluator fails out of bounds only, on as many labels as inputs. -/
theorem evalCircuitLabels_only {c : Circuit} (aes : Block → Block) (gr : GarbleResult)
    {labels : List Block} (accepted : labels.length = (c.nInput0 + c.nInput1).toNat) :
    OnlyOutOfBounds (evalCircuitLabels c aes gr labels) := by
  rw [evalCircuitLabels, activeWires, if_neg (not_not.mpr accepted)]
  refine OnlyOutOfBounds.bind ?_ fun w => readOutputs_only c w
  refine (storeFront_only _ _).bind fun w => ?_
  exact (foldlM_only (activeGate_only aes gr.tables) _ (w, 0)).bind fun _ => .ok _

theorem length_of_evalCircuitLabels {c : Circuit} {aes : Block → Block} {gr : GarbleResult}
    {labels outputs : List Block} (ran : evalCircuitLabels c aes gr labels = .ok outputs) :
    outputs.length = c.nOutput.toNat := by
  obtain ⟨w, -, read⟩ := bind_eq_ok.mp ran
  rw [length_of_mapM read, List.length_range]

/-- Decoding an output fails out of bounds only. -/
private theorem decodeOutput_only (gr : GarbleResult) (entry : Block × Nat) :
    OnlyOutOfBounds (do
      let p : UInt8 := if lsb entry.1 then 1 else 0
      let decode ← readAt gr.outDecode entry.2
      .ok (p ^^^ decode)) :=
  (readAt_only _ _).bind fun _ => .ok _

/-- So does decoding all of them. -/
theorem decodeOutputs_only (gr : GarbleResult) (outLabels : List Block) :
    OnlyOutOfBounds (decodeOutputs gr outLabels) :=
  mapM_only fun entry _ => decodeOutput_only gr entry

/-- Decoding reads one decode bit for each output label. -/
theorem decodeOutputs_inBounds {gr : GarbleResult} {outLabels : List Block} :
    InBounds (decodeOutputs gr outLabels) ↔ outLabels.length ≤ gr.outDecode.length := by
  rw [decodeOutputs, inBounds_mapM fun entry _ => decodeOutput_only gr entry]
  constructor
  · intro inside
    by_contra short
    have last : gr.outDecode.length < outLabels.length := by omega
    have member : (outLabels[gr.outDecode.length], gr.outDecode.length) ∈ outLabels.zipIdx := by
      rw [List.mem_zipIdx_iff_getElem?]
      exact List.getElem?_eq_getElem last
    exact absurd (inBounds_readAt.mp (inBounds_bind_ok.mp (inside _ member))) (lt_irrefl _)
  · rintro enough ⟨label, i⟩ member
    have bounded : i < outLabels.length :=
      (List.getElem?_eq_some_iff.mp (List.mem_zipIdx_iff_getElem?.mp member)).1
    exact inBounds_bind_ok.mpr (inBounds_readAt.mpr (by omega))

theorem length_of_decodeOutputs {gr : GarbleResult} {outLabels : List Block} {bits : List UInt8}
    (ran : decodeOutputs gr outLabels = .ok bits) : bits.length = outLabels.length := by
  rw [length_of_mapM ran, List.length_zipIdx]

/-- The garbler also reads the evaluator's wires, at their exact positions. -/
theorem garbleCircuit_inBounds {sha256 : List UInt8 → Digest} {c : Circuit} {mmoKey : Block}
    {aes : Block → Block} {rng : Rng} (sized : c.outputWires.length = c.nOutput.toNat) :
    InBounds (garbleCircuit sha256 c mmoKey aes rng) ↔ c.Bounded ∧ c.inputs ≤ c.nWires.toNat := by
  let delta := (makeDelta rng).1
  have reads : ∀ final : GarbleState, final.wire0.length =
      (List.replicate c.nWires.toNat (0 : Block)).length →
      ∀ result : List Block → List Block → GarbleResult × Rng, (InBounds (do
        let outputs ← readOutputs c final.wire0
        let evaluator ← slice .outOfBounds final.wire0 c.nInput0.toNat c.nInput1.toNat
        .ok (result outputs evaluator)) ↔
        (∀ wire ∈ c.outputWires, wire.toNat < c.nWires.toNat) ∧ c.inputs ≤ c.nWires.toNat) := by
    intro final length result
    rw [List.length_replicate] at length
    have outputs := readOutputs_inBounds (w := final.wire0) sized
    have evaluator := @inBounds_slice _ final.wire0 c.nInput0.toNat c.nInput1.toNat
    rw [length] at outputs evaluator
    rw [inBounds_bind, outputs]
    refine and_congr_right fun inside => ?_
    obtain ⟨found, ran⟩ := (readOutputs_only c final.wire0).inBounds_iff.mp (outputs.mpr inside)
    constructor
    · exact fun rest => evaluator.mp (inBounds_bind_ok.mp (rest found ran))
    · exact fun fits _ _ => inBounds_bind_ok.mpr (evaluator.mpr fits)
  have whole := fun result : GarbleState → List Block → List Block → GarbleResult × Rng =>
    run_inBounds (List.replicate c.nWires.toNat (0 : Block))
    (inputLabels delta (c.nInput0 + c.nInput1).toNat (makeDelta rng).2).1
    (fun wire0 => c.gates.foldlM (garbleGate aes delta)
      { wire0, tables := [], andWit := [], andId := 0 }) GarbleState.wire0 _
    (fun w length => by rw [garbleGates_inBounds, length])
    (fun w => foldlM_only (garbleGate_only aes delta) _ _)
    (fun w length final ran => foldlM_keeps (fun state => state.wire0.length = _)
      (fun state kept g _ next ran => (length_of_garbleGate ran).trans kept) length ran)
    fun final length => reads final length (result final)
  simp only [length_inputLabels, List.length_replicate] at whole
  exact (whole _).trans ⟨fun ⟨inputs, gates, outputs, fits⟩ => ⟨⟨inputs, gates, outputs⟩, fits⟩,
    fun ⟨⟨inputs, gates, outputs⟩, fits⟩ => ⟨inputs, gates, outputs, fits⟩⟩

end SimpleOprf.GcMmo
