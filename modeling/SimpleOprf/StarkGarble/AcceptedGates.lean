import SimpleOprf.GcMmo.Refinement
import SimpleOprf.StarkGarble.Bits

/-!
# What an accepted gate computes

The half-gate check leaves the select bits of a gate to the prover. For a gate
whose hash fields are the hashes of its labels, the evaluator's rule computes
AND exactly when `pb` is the select bit the evaluator will see.

The equivalence is over every accepted witness and every gate of it, and both
sides of it occur: a gate with the other bit is accepted as well.
-/

namespace SimpleOprf.StarkGarble

open SimpleOprf.Basis SimpleOprf.GcMmo

/-- The hash fields of gate `i` are the hashes of its tweaked labels. -/
structure HashesLabels (aes : Block → Block) (delta : Block) (i : Nat) (g : GateWit) : Prop where
  ha0 : g.ha0 = mmoHash aes (tweak g.a0 i 0)
  ha1 : g.ha1 = mmoHash aes (tweak (xorBlock g.a0 delta) i 0)
  hb0 : g.hb0 = mmoHash aes (tweak g.b0 i 1)
  hb1 : g.hb1 = mmoHash aes (tweak (xorBlock g.b0 delta) i 1)

/-- Some output label makes the evaluator's rule an AND on all four inputs. -/
def ComputesAnd (aes : Block → Block) (delta : Block) (i : Nat) (g : GateWit) : Prop :=
  ∃ w0, ∀ x y : Bool, evalAndGate aes i ⟨g.tg, g.te⟩ (labelForBit g.a0 delta x.toUInt8)
    (labelForBit g.b0 delta y.toUInt8) = labelForBit w0 delta (x && y).toUInt8

/-- The equations of the check are equations between blocks. -/
theorem GateHolds.table_eq {delta : Block} {g : GateWit} (holds : GateHolds delta g) :
    g.tg = g.ha0 + g.ha1 + parity g.pb • delta ∧ g.te = g.hb0 + g.hb1 + g.a0 := by
  have pbBit := (le_one_iff g.pb).mp holds.pb
  constructor
  · apply ext_getBit
    intro i inside
    rw [getBit_add _ _ inside, getBit_add _ _ inside, getBit_smul pbBit _ inside]
    exact (holds.bits i inside).tg
  · apply ext_getBit
    intro i inside
    rw [getBit_add _ _ inside, getBit_add _ _ inside]
    exact (holds.bits i inside).te

/-- Blocks that satisfy the two equations pass the check. -/
theorem gateHolds_of_table_eq {delta : Block} {g : GateWit} (pa : g.pa ≤ 1)
    (pb : g.pb = 0 ∨ g.pb = 1) (tg : g.tg = g.ha0 + g.ha1 + parity g.pb • delta)
    (te : g.te = g.hb0 + g.hb1 + g.a0) : GateHolds delta g where
  pa := pa
  pb := (le_one_iff g.pb).mpr pb
  bits i inside := by
    constructor
    · rw [tg, getBit_add _ _ inside, getBit_add _ _ inside, getBit_smul pb _ inside]
    · rw [te, getBit_add _ _ inside, getBit_add _ _ inside]

/-- The label of a truth value is the active label. -/
private theorem labelForBit_bool (zero delta : Block) (x : Bool) :
    labelForBit zero delta x.toUInt8 = Garbling.active zero delta (if x then 1 else 0) := by
  cases x with
  | false => exact labelForBit_eq_active zero delta (.inl rfl)
  | true => exact labelForBit_eq_active zero delta (.inr rfl)

/-- A bit is the select bit exactly when it agrees with `lsb`. -/
private theorem parity_eq_select_iff {pb : UInt8} (isBit : pb = 0 ∨ pb = 1) (b0 : Block) :
    parity pb = select b0 ↔ (pb = 1 ↔ lsb b0 = true) := by
  rw [select_eq_lsb]
  rcases isBit with rfl | rfl <;> cases lsb b0 <;> decide

/-- An accepted gate over hashed labels computes AND exactly when its `pb` is
the select bit of its second zero label. -/
theorem GateHolds.computesAnd_iff {aes : Block → Block} {delta : Block} (odd : lsb delta = true)
    {i : Nat} {g : GateWit} (holds : GateHolds delta g) (hashes : HashesLabels aes delta i g) :
    ComputesAnd aes delta i g ↔ (g.pb = 1 ↔ lsb g.b0 = true) := by
  have unit : select delta = 1 := by rw [select_eq_lsb, if_pos odd]
  have pbBit := (le_one_iff g.pb).mp holds.pb
  obtain ⟨tg, te⟩ := holds.table_eq
  have table : (AndGateTable.mk g.tg g.te).abstract =
      (scheme aes delta unit).table i (parity g.pb) g.a0 g.b0 := by
    rw [hashes.ha0, hashes.ha1] at tg
    rw [hashes.hb0, hashes.hb1] at te
    rw [AndGateTable.abstract, tg, te]
    rfl
  rw [← parity_eq_select_iff pbBit]
  refine Iff.trans ?_ ((scheme aes delta unit).computes_and_iff i (parity g.pb) g.a0 g.b0)
  rw [← table]
  unfold ComputesAnd
  simp only [evalAndGate_eq aes unit, labelForBit_bool]
  constructor
  · rintro ⟨w0, computes⟩
    refine ⟨w0, fun x y => ?_⟩
    have bool : ∀ z : ZMod 2, ∃ v : Bool, z = if v then 1 else 0 := by decide
    obtain ⟨u, rfl⟩ := bool x
    obtain ⟨v, rfl⟩ := bool y
    have product : ((if u then 1 else 0) * (if v then 1 else 0) : ZMod 2) =
        if (u && v) then 1 else 0 := by
      cases u <;> cases v <;> rfl
    rw [product]
    exact computes u v
  · rintro ⟨w0, computes⟩
    refine ⟨w0, fun u v => ?_⟩
    have product : (if (u && v) then 1 else 0 : ZMod 2) =
        (if u then 1 else 0) * (if v then 1 else 0) := by
      cases u <;> cases v <;> rfl
    rw [product]
    exact computes _ _

/-- In every accepted witness over hashed labels, a gate computes AND exactly
when its `pb` is the select bit of its second zero label. -/
theorem accepted_gate_computes_and_iff (aes : Block → Block) (w : Witness)
    (accepted : checkHalfGates w = .ok ()) (odd : lsb w.delta = true)
    (hashes : ∀ i g, w.gates[i]? = some g → HashesLabels aes w.delta i g) :
    ∀ i g, w.gates[i]? = some g →
      (ComputesAnd aes w.delta i g ↔ (g.pb = 1 ↔ lsb g.b0 = true)) := by
  intro i g found
  have holds := checkHalfGates_eq_ok.mp accepted g (List.mem_of_getElem? found)
  exact holds.computesAnd_iff odd (hashes i g found)

/-! ## A gate that passes and garbles something else -/

/-- The offset with the lowest bit alone. -/
def unitBlock : Block := Block.ofBytes [1]

/-- A gate on zero labels whose hashes are honest and whose `pb` is free. -/
def probeGate (aes : Block → Block) (pb : UInt8) : GateWit :=
  let ha0 := mmoHash aes (tweak 0 0 0)
  let ha1 := mmoHash aes (tweak (xorBlock 0 unitBlock) 0 0)
  let hb0 := mmoHash aes (tweak 0 0 1)
  let hb1 := mmoHash aes (tweak (xorBlock 0 unitBlock) 0 1)
  { a0 := 0, b0 := 0, tg := ha0 + ha1 + parity pb • unitBlock, te := hb0 + hb1 + 0,
    ha0, ha1, hb0, hb1, pa := 0, pb }

/-- A witness of one gate with the given `pb`. -/
def probeWitness (aes : Block → Block) (pb : UInt8) : Witness where
  nAnd := 1
  cm := []
  gcHash := Vector.replicate 32 0
  rRoot := Vector.replicate 32 0
  outHash := Vector.replicate 32 0
  delta := unitBlock
  gates := [probeGate aes pb]

/-- Either `pb` is accepted. -/
theorem probeWitness_accepted (aes : Block → Block) {pb : UInt8} (isBit : pb = 0 ∨ pb = 1) :
    checkHalfGates (probeWitness aes pb) = .ok () := by
  rw [checkHalfGates_eq_ok]
  intro g member
  rw [List.mem_singleton.mp member]
  exact gateHolds_of_table_eq ((le_one_iff 0).mpr (.inl rfl)) isBit rfl rfl

/-- The hashes in it are those of the labels. -/
theorem probeWitness_hashes (aes : Block → Block) (pb : UInt8) :
    ∀ i g, (probeWitness aes pb).gates[i]? = some g → HashesLabels aes unitBlock i g := by
  intro i g found
  cases i with
  | zero =>
    cases found
    exact ⟨rfl, rfl, rfl, rfl⟩
  | succ i => cases found

/-- The equivalence for that gate with a zero `pb`. -/
theorem probe_gate_computes_and_iff :
    ComputesAnd (fixedKeyAes 0) unitBlock 0 (probeGate (fixedKeyAes 0) 0) ↔
      ((probeGate (fixedKeyAes 0) 0).pb = 1 ↔ lsb (probeGate (fixedKeyAes 0) 0).b0 = true) :=
  accepted_gate_computes_and_iff (fixedKeyAes 0) (probeWitness (fixedKeyAes 0) 0)
    (probeWitness_accepted _ (.inl rfl)) (by decide) (probeWitness_hashes _ _) 0 _ rfl

/-- With `pb` set on a label of select bit zero the check passes, and the gate
is no AND gate. -/
theorem accepted_gate_may_not_compute_and :
    ¬ ∀ (aes : Block → Block) (w : Witness), checkHalfGates w = .ok () → lsb w.delta = true →
      (∀ i g, w.gates[i]? = some g → HashesLabels aes w.delta i g) →
      ∀ i g, w.gates[i]? = some g → ComputesAnd aes w.delta i g := by
  intro sound
  have accepted := probeWitness_accepted (fixedKeyAes 0) (.inr rfl)
  have hashes := probeWitness_hashes (fixedKeyAes 0) 1
  have odd : lsb unitBlock = true := by decide
  have computes := sound (fixedKeyAes 0) (probeWitness (fixedKeyAes 0) 1) accepted odd hashes 0
    _ rfl
  have holds := checkHalfGates_eq_ok.mp accepted _ List.mem_cons_self
  have permuted := (holds.computesAnd_iff odd (hashes 0 _ rfl)).mp computes
  exact absurd (permuted.mp rfl) (by decide)

end SimpleOprf.StarkGarble
