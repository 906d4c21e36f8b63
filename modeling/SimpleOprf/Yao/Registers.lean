import SimpleOprf.Basis.Outcome
import SimpleOprf.Yao.InputTransfer
import SimpleOprf.Yao.Reveal

/-!
# Instructions on the registers

Secret registers are copied, cut into bits, put together and transposed without the
other party. The instructions are the same code for both kinds of wires, which differ
in their public inputs only.

They are generic in the wire, so one lemma about any function on wires covers the
garbler, the evaluator and the plain bits.
-/

namespace SimpleOprf.Yao

open SimpleOprf.Basis

/-- The instructions that move wires without gates. -/
inductive RegisterInstruction where
  | movsb (r0 r1 : Nat)
  | ldbits (r0 n : Nat) (imm : BitVec 32)
  | bitdecs (regs : List Nat) (r0 : Nat)
  | bitcoms (r0 : Nat) (regs : List Nat)
  | trans (nOutputs : Nat) (args : List Nat)
  | andm (n r0 r1 r2 : Nat)
  | convcbit2s (n r0 r1 : Nat)
deriving Repr

/-- Replace a register. -/
def Memory.assign {α : Type} (S : Memory α) (r : Nat) (registers : List α) : Memory α :=
  Function.update S r registers

/-- Overwrite wire `j` of a register. -/
def Memory.setWire {α : Type} (S : Memory α) (r j : Nat) (wire : α) : Memory α :=
  S.assign r ((S r).set j wire)

section Instructions

variable {α : Type} [Inhabited α]

/-- `Secret::resize_regs`. -/
def Memory.resizeRegs (S : Memory α) (r n : Nat) : Memory α :=
  S.assign r ((List.range n).map fun i => (S r).getD i default)

variable (publicInput : Bool → α)

namespace Secret

/-- `Secret::load_clear` on a constant, whose shifts by 64 and more are undefined. -/
def loadClear (n : Nat) (imm : BitVec 32) : Outcome (List α) :=
  if n < 64 ∧ 2 ^ n < imm.toInt.natAbs then .error (.thrown "public value too long")
  else if 64 < n then .error .outOfBounds
  else .ok ((List.range n).map fun i => publicInput ((imm.signExtend 64).getLsbD i))

/-- `Secret::bitdec`, which reads the register while it writes the others. -/
def bitdec (S : Memory α) (regs : List Nat) (r0 : Nat) : Outcome (Memory α) :=
  if (S r0).length < regs.length then
    .error (.thrown ("not enough bits for bit decomposition overflow: " ++
      toString regs.length ++ "/" ++ toString (S r0).length))
  else
    .ok (regs.zipIdx.foldl (fun S reg =>
      let S := S.assign reg.1 []
      S.assign reg.1 (S reg.1 ++ [(S r0).getD reg.2 default])) S)

/-- `Secret::bitcom`. -/
def bitcom (S : Memory α) (r0 : Nat) (regs : List Nat) : Outcome (Memory α) :=
  regs.foldlM (fun S r =>
    if (S r).length ≠ 1 then .error (.thrown "Processor-Error : can only compose bits")
    else .ok (S.assign r0 (S r0 ++ [(S r).getD 0 default]))) (S.assign r0 [])

/-- The wire of `Secret::trans` for output `i` and input `j`. -/
def transWire (S : Memory α) (nOutputs : Nat) (args : List Nat) (i j : Nat) : α :=
  let source := S (args.getD (nOutputs + j) 0 + i / defaultLength)
  if i % defaultLength < source.length then source.getD (i % defaultLength) default
  else publicInput false

/-- `Secret::trans`. -/
def trans (S : Memory α) (nOutputs : Nat) (args : List Nat) : Memory α :=
  let nInputs := args.length - nOutputs
  (List.range nOutputs).foldl (fun S i =>
    let S := (List.range (divCeil nInputs defaultLength)).foldl (fun S j =>
      S.resizeRegs (args.getD i 0 + j) (min defaultLength (nInputs - j * defaultLength))) S
    (List.range nInputs).foldl (fun S j =>
      S.setWire (args.getD i 0 + j / defaultLength) (j % defaultLength)
        (transWire publicInput S nOutputs args i j)) S) S

end Secret

/-- The loop of `andm` and `convcbit2s`: resize one register after the other and set
its wires. -/
def unitLoop (S : Memory α) (n r0 : Nat) (wire : Memory α → Nat → Nat → α) : Memory α :=
  (List.range (divCeil n clearBits)).foldl (fun S i =>
    let count := min clearBits (n - i * clearBits)
    let S := S.resizeRegs (r0 + i) count
    (List.range count).foldl (fun S j => S.setWire (r0 + i) j (wire S i j)) S) S

/-- `YaoWire::andm`. -/
def YaoWire.andm (C : Nat → Clear) (S : Memory α) (n r0 r1 r2 : Nat) : Memory α :=
  unitLoop S n r0 fun S i j =>
    if (C (r2 + i)).getLsbD j then (S (r1 + i)).getD j default else publicInput false

/-- `convcbit2s` of either party. -/
def YaoWire.convcbit2s (C : Nat → Clear) (S : Memory α) (n r0 r1 : Nat) : Memory α :=
  unitLoop S n r0 fun _ i j => publicInput ((C (r1 + i)).getLsbD j)

namespace RegisterInstruction

/-- What an instruction does to a party's registers. -/
def run (C : Nat → Clear) (S : Memory α) : RegisterInstruction → Outcome (Memory α)
  | movsb r0 r1 => .ok (S.assign r0 (S r1))
  | ldbits r0 n imm => (Secret.loadClear publicInput n imm).map (S.assign r0)
  | bitdecs regs r0 => Secret.bitdec S regs r0
  | bitcoms r0 regs => Secret.bitcom S r0 regs
  | trans nOutputs args => .ok (Secret.trans publicInput S nOutputs args)
  | andm n r0 r1 r2 => .ok (YaoWire.andm publicInput C S n r0 r1 r2)
  | convcbit2s n r0 r1 => .ok (YaoWire.convcbit2s publicInput C S n r0 r1)

/-- The clear registers that an instruction reads. -/
def clears : RegisterInstruction → List Nat
  | andm n _ _ r2 => (List.range (divCeil n clearBits)).map fun i => r2 + i
  | convcbit2s n _ r1 => (List.range (divCeil n clearBits)).map fun i => r1 + i
  | _ => []

end RegisterInstruction

end Instructions

/-! ## Wires under a map -/

/-- A function on every wire of every register. -/
def Memory.map {α β : Type} (f : α → β) (S : Memory α) : Memory β := fun r => (S r).map f

section Map

variable {α β : Type} {f : α → β} (S : Memory α)

@[simp] theorem Memory.map_apply (r : Nat) : S.map f r = (S r).map f := rfl

/-- A map of the wires commutes with setting a register. -/
theorem Memory.map_assign (r : Nat) (registers : List α) :
    (S.assign r registers).map f = (S.map f).assign r (registers.map f) := by
  funext r'
  by_cases same : r' = r
  · subst same
    simp [assign]
  · simp [assign, same]

/-- It commutes with setting a wire. -/
theorem Memory.map_setWire (r j : Nat) (wire : α) :
    (S.setWire r j wire).map f = (S.map f).setWire r j (f wire) := by
  rw [setWire, setWire, map_assign, List.map_set, map_apply]

variable [Inhabited α] [Inhabited β] (base : f default = default)
include base

/-- A function that keeps the default commutes with reading a wire. -/
theorem getD_map_default (xs : List α) (i : Nat) :
    (xs.map f).getD i default = f (xs.getD i default) := by
  rw [← base, List.getD_map]

/-- It commutes with resizing a register. -/
theorem Memory.map_resizeRegs (r n : Nat) :
    (S.resizeRegs r n).map f = (S.map f).resizeRegs r n := by
  rw [resizeRegs, resizeRegs, map_assign, List.map_map]
  refine congrArg _ (List.map_congr_left fun i _ => ?_)
  rw [Function.comp_apply, map_apply, getD_map_default base]

/-- It commutes with the loop over units when it does with each wire. -/
theorem unitLoop_map {n r0 : Nat} {wire : Memory α → Nat → Nat → α}
    {wire' : Memory β → Nat → Nat → β} (same : ∀ S i j, wire' (S.map f) i j = f (wire S i j)) :
    unitLoop (S.map f) n r0 wire' = (unitLoop S n r0 wire).map f := by
  unfold unitLoop
  refine List.foldl_hom (Memory.map f) fun S i => ?_
  dsimp only
  rw [← Memory.map_resizeRegs S base]
  refine List.foldl_hom (Memory.map f) fun S j => ?_
  rw [Memory.map_setWire, same]

variable {publicInput : Bool → α} {publicInput' : Bool → β}
  (inputs : ∀ b, publicInput' b = f (publicInput b))

/-- It commutes with `bitdec`. -/
theorem Secret.bitdec_map (regs : List Nat) (r0 : Nat) :
    bitdec (S.map f) regs r0 = (bitdec S regs r0).map (Memory.map f) := by
  unfold bitdec
  rw [Memory.map_apply, List.length_map]
  split
  · rfl
  · refine congrArg Except.ok (List.foldl_hom (Memory.map f) fun S reg => ?_)
    have cleared : (S.map f).assign reg.1 [] = (S.assign reg.1 []).map f :=
      (Memory.map_assign S reg.1 []).symm
    dsimp only
    rw [cleared, Memory.map_assign _ _ (_ ++ _), List.map_append, List.map_singleton,
      ← getD_map_default base, Memory.map_apply, Memory.map_apply]

/-- It commutes with `bitcom`. -/
theorem Secret.bitcom_map (r0 : Nat) (regs : List Nat) :
    bitcom (S.map f) r0 regs = (bitcom S r0 regs).map (Memory.map f) := by
  unfold bitcom
  have cleared : (S.map f).assign r0 [] = (S.assign r0 []).map f := (Memory.map_assign S r0 []).symm
  rw [cleared]
  generalize S.assign r0 [] = T
  induction regs generalizing T with
  | nil => rfl
  | cons r rest ih =>
    rw [List.foldlM_cons, List.foldlM_cons, Memory.map_apply, List.length_map]
    by_cases single : (T r).length = 1
    · have grown : (T.map f).assign r0 ((T.map f) r0 ++ [((T r).map f).getD 0 default]) =
          (T.assign r0 (T r0 ++ [(T r).getD 0 default])).map f := by
        rw [Memory.map_assign, List.map_append, List.map_singleton, getD_map_default base,
          Memory.map_apply]
      rw [if_neg (not_not.mpr single), if_neg (not_not.mpr single), grown]
      exact ih _
    · rw [if_pos single, if_pos single]
      rfl

include inputs in
/-- It commutes with `trans`. -/
theorem Secret.trans_map (nOutputs : Nat) (args : List Nat) :
    trans publicInput' (S.map f) nOutputs args = (trans publicInput S nOutputs args).map f := by
  unfold trans
  refine List.foldl_hom (Memory.map f) fun S i => ?_
  dsimp only
  have resized : (List.range (divCeil (args.length - nOutputs) defaultLength)).foldl
      (fun S j => S.resizeRegs (args.getD i 0 + j)
        (min defaultLength (args.length - nOutputs - j * defaultLength))) (S.map f) =
      ((List.range (divCeil (args.length - nOutputs) defaultLength)).foldl
        (fun S j => S.resizeRegs (args.getD i 0 + j)
          (min defaultLength (args.length - nOutputs - j * defaultLength))) S).map f :=
    List.foldl_hom (Memory.map f) fun S j => (Memory.map_resizeRegs S base _ _).symm
  rw [resized]
  refine List.foldl_hom (Memory.map f) fun S j => ?_
  have wire : transWire publicInput' (S.map f) nOutputs args i j =
      f (transWire publicInput S nOutputs args i j) := by
    simp only [transWire, Memory.map_apply, List.length_map, getD_map_default base, inputs]
    split <;> rfl
  rw [Memory.map_setWire, wire]

include inputs in
/-- An instruction commutes with a map of the wires that respects public inputs. -/
theorem RegisterInstruction.run_map (C : Nat → Clear) (i : RegisterInstruction) :
    i.run publicInput' C (S.map f) = (i.run publicInput C S).map (Memory.map f) := by
  cases i with
  | movsb r0 r1 => exact congrArg Except.ok (Memory.map_assign S r0 (S r1)).symm
  | ldbits r0 n imm =>
    simp only [run, Secret.loadClear]
    split
    · rfl
    · split
      · rfl
      · refine congrArg Except.ok ((Memory.map_assign S r0 _).trans ?_).symm
        rw [List.map_map]
        exact congrArg _ (List.map_congr_left fun k _ => (inputs _).symm)
  | bitdecs regs r0 => exact Secret.bitdec_map S base regs r0
  | bitcoms r0 regs => exact Secret.bitcom_map S base r0 regs
  | trans nOutputs args => exact congrArg Except.ok (Secret.trans_map S base inputs nOutputs args)
  | andm n r0 r1 r2 =>
    refine congrArg Except.ok (unitLoop_map S base fun S i j => ?_)
    split
    · rw [Memory.map_apply, getD_map_default base]
    · exact inputs false
  | convcbit2s n r0 r1 =>
    exact congrArg Except.ok (unitLoop_map S base fun S i j => inputs _)

end Map

/-- An instruction only reads its clear registers. -/
theorem RegisterInstruction.run_congr {α : Type} [Inhabited α] {publicInput : Bool → α}
    {C C' : Nat → Clear} {i : RegisterInstruction} (same : ∀ r ∈ i.clears, C r = C' r)
    (S : Memory α) : i.run publicInput C S = i.run publicInput C' S := by
  have units : ∀ {n r0 r : Nat} {wire wire' : Memory α → Nat → Nat → α},
      (∀ i < divCeil n clearBits, ∀ S j, wire S i j = wire' S i j) →
        unitLoop S n r0 wire = unitLoop S n r0 wire' := by
    intro n r0 r wire wire' alike
    refine List.foldl_ext _ _ _ fun S i member => ?_
    dsimp only
    refine List.foldl_ext _ _ _ fun S j _ => ?_
    rw [alike i (List.mem_range.mp member)]
  cases i with
  | movsb r0 r1 => rfl
  | ldbits r0 n imm => rfl
  | bitdecs regs r0 => rfl
  | bitcoms r0 regs => rfl
  | trans nOutputs args => rfl
  | andm n r0 r1 r2 =>
    refine congrArg Except.ok (units (r := r2) fun i inside S j => ?_)
    rw [same (r2 + i) (List.mem_map_of_mem (List.mem_range.mpr inside))]
  | convcbit2s n r0 r1 =>
    refine congrArg Except.ok (units (r := r1) fun i inside S j => ?_)
    rw [same (r1 + i) (List.mem_map_of_mem (List.mem_range.mpr inside))]

/-! ## On both sides -/

section Aligned

variable {delta : Key} {G E : Memory Key} {V : Memory Bool}

/-- The evaluator's key of a full key and its bit. -/
def activeKey (delta : Key) (wire : Key × Bool) : Key := keyOf wire.1 delta wire.2

/-- A public input with its bit. -/
def publicWire (delta : Key) (b : Bool) : Key × Bool := (YaoHalfGate.garblePublicInput b delta, b)

/-- Aligned memories are three views of one. -/
theorem aligned_iff_map : Aligned delta G E V ↔ ∃ J : Memory (Key × Bool),
    J.map Prod.fst = G ∧ J.map (activeKey delta) = E ∧ J.map Prod.snd = V := by
  constructor
  · intro aligned
    refine ⟨fun r => List.zip (G r) (V r), ?_, ?_, ?_⟩
    · funext r
      exact List.map_fst_zip (aligned r).garbler.le
    · funext r
      have size : (List.zip (G r) (V r)).length = (E r).length := by
        rw [List.length_zip, (aligned r).garbler, (aligned r).evaluator, min_self]
      refine List.ext_getElem (by rw [Memory.map_apply, List.length_map, size]) fun i low high => ?_
      have key := (aligned r).keys i
      have inG : i < (G r).length := by rwa [(aligned r).garbler, ← (aligned r).evaluator]
      have inV : i < (V r).length := by rwa [← (aligned r).evaluator]
      rw [List.getD_eq_getElem _ _ high, List.getD_eq_getElem _ _ inG,
        List.getD_eq_getElem _ _ inV] at key
      simp [activeKey, key]
    · funext r
      exact List.map_snd_zip (aligned r).garbler.ge
  · rintro ⟨J, rfl, rfl, rfl⟩ r
    refine ⟨by simp, by simp, fun i => ?_⟩
    have base : activeKey delta default = default := rfl
    rw [Memory.map_apply, Memory.map_apply, Memory.map_apply, getD_map_default base,
      getD_map_default (f := Prod.fst) rfl, getD_map_default (f := Prod.snd) rfl]
    rfl

/-- An instruction on the registers keeps the parties aligned, when they agree on the
clear registers that it reads. -/
theorem RegisterInstruction.run_aligned (aligned : Aligned delta G E V) {C CG : Nat → Clear}
    {i : RegisterInstruction} (known : ∀ r ∈ i.clears, CG r = C r) {V' : Memory Bool}
    (plain : i.run id C V = .ok V') : ∃ G' E',
      i.run (fun b => YaoHalfGate.garblePublicInput b delta) CG G = .ok G' ∧
      i.run (fun _ => 0) C E = .ok E' ∧ Aligned delta G' E' V' := by
  obtain ⟨J, rfl, rfl, rfl⟩ := aligned_iff_map.mp aligned
  have garbled : i.run (fun b => YaoHalfGate.garblePublicInput b delta) C (J.map Prod.fst) =
      (i.run (publicWire delta) C J).map (Memory.map Prod.fst) :=
    run_map J rfl (fun b => by rfl) C i
  have evaluated : i.run (fun _ => 0) C (J.map (activeKey delta)) =
      (i.run (publicWire delta) C J).map (Memory.map (activeKey delta)) :=
    run_map J rfl (fun b => (keyOf_publicInput delta b).symm) C i
  have plainly : i.run id C (J.map Prod.snd) =
      (i.run (publicWire delta) C J).map (Memory.map Prod.snd) :=
    run_map J rfl (fun b => by rfl) C i
  rw [plain] at plainly
  rw [i.run_congr known, garbled, evaluated]
  generalize i.run (publicWire delta) C J = ran at plainly
  cases ran with
  | error fault => cases plainly
  | ok J' =>
    cases plainly
    exact ⟨_, _, rfl, rfl, aligned_iff_map.mpr ⟨J', rfl, rfl, rfl⟩⟩

end Aligned

end SimpleOprf.Yao
