import Mathlib.Data.BitVec
import Mathlib.Tactic.Ring
import SimpleOprf.Yao.Agreement
import SimpleOprf.Yao.Threads

/-!
# Hash tweaks of a computation

All program threads garble with one offset. Two gates use the same tweaks when they
have the same position in their threads and the thread parts of their ids agree but
for the top bit, which the tweak drops; a gate of the gate-by-gate path has none.
-/

namespace SimpleOprf.Yao

/-! ## Ids of a thread -/

/-- The thread number that the ids of an instruction carry, when its sizes sum to an `int`. -/
def idSlot (cfg : ThreadConfig) (i : Instruction) : Nat :=
  if (i.total : Int) < cfg.threshold ∧ i.total < 10 then 0 else cfg.threadNum

/-- The thread numbers that the ids of a thread's gates carry. -/
def gateSlots (cfg : ThreadConfig) (instructions : List Instruction) : List Nat :=
  instructions.flatMap fun i => List.replicate i.total (idSlot cfg i)

/-- The id of a gate by its place among the gates of its thread. -/
def slotId (nThreads : Nat) (counter : BitVec 64) (k slot : Nat) : BitVec 64 :=
  counter + BitVec.ofNat 64 k + 1 + threadPart nThreads slot

section Ids

variable {cfg : ThreadConfig}

/-- The gates of the passes are numbered in order. -/
theorem ids_issue (repeats : Bool) (ps : List Pass) (slot : Nat) (counter : BitVec 64) :
    ((issue repeats ps slot counter).flatMap AndPass.gates).map GateUse.id =
      gateIds counter (wireCount ps) := by
  induction ps generalizing slot counter with
  | nil => rfl
  | cons pass ps ih =>
    rw [issue, List.flatMap_cons, List.map_append, ih, wireCount_cons, gateIds_add]
    refine congrArg (· ++ _) ?_
    rw [AndPass.gates, List.map_map]
    rfl

theorem add_threadPart_zero (nThreads : Nat) (counter : BitVec 64) :
    counter + threadPart nThreads 0 = counter := by
  simp [threadPart]

/-- Ids after a counter that includes a thread part. -/
theorem gateIds_slot (nThreads : Nat) (counter : BitVec 64) (total slot : Nat) :
    gateIds (counter + threadPart nThreads slot) total =
      (List.replicate total slot).mapIdx (slotId nThreads counter) := by
  refine List.ext_getElem? fun k => ?_
  by_cases inside : k < total
  · simp only [gateIds, slotId, List.getElem?_map, List.getElem?_mapIdx, List.getElem?_replicate,
      List.getElem?_range inside, inside, if_true, Option.map_some]
    refine congrArg some ?_
    ring
  · simp [gateIds, inside]

/-- The tweaks of an instruction lie in the slot that its path gives them. -/
theorem ids_instructionGates (i : Instruction) (progress : Progress) :
    (instructionGates (YaoGarbleWire.andMultithread cfg) progress i).map GateUse.id =
      (List.replicate i.total (idSlot cfg i)).mapIdx (slotId cfg.nThreads progress.counter) := by
  have and : ∀ (repeats : Bool) (args : List Tuple),
      ((YaoGarbleWire.andMultithread cfg repeats args progress).flatten.flatMap
        AndPass.gates).map GateUse.id = (List.replicate (checkArgs args)
          (if (checkArgs args : Int) < cfg.threshold ∧ checkArgs args < 10 then 0
            else cfg.threadNum)).mapIdx (slotId cfg.nThreads progress.counter) := by
    intro repeats args
    have covers : ∀ t, wireCount (YaoGarbleWire.andPasses t) = t.size := wireCount_passes _
    have counted := slices_getSplits cfg.workers cfg.threshold args (checkArgs args)
    unfold YaoGarbleWire.andMultithread YaoGarbleWire.andSinglethread
    split
    · rename_i below
      split
      · rename_i few
        rw [Processor.and, List.flatten_singleton, ids_issue, wireCount_andPasses,
          if_pos ⟨below, few⟩, ← gateIds_slot, add_threadPart_zero]
      · rename_i many
        rw [List.flatten_singleton, ids_issue, wireCount_flatMap covers,
          if_neg fun both => many both.2, ← gateIds_slot]
        rfl
    · rename_i reached
      rw [YaoGarbleWire.slicesOf, flatten_dispatch covers counted.2, counted.1, ids_issue,
        wireCount_flatMap covers, if_neg fun both => reached both.1, ← gateIds_slot]
      rfl
  cases i with
  | xors args => rfl
  | nots r0 r1 n => rfl
  | ands args => exact and false args
  | andrs args => exact and true args

/-- The counter advances by the gates of an instruction. -/
theorem Progress.counter_after (progress : Progress) (i : Instruction) :
    (progress.after i).counter = progress.counter + BitVec.ofNat 64 i.total := by
  cases i with
  | xors args => exact (BitVec.add_zero _).symm
  | nots r0 r1 n => exact (BitVec.add_zero _).symm
  | ands args => rfl
  | andrs args => rfl

variable (cfg) in
/-- The ids of a thread's gates in the order of its counter. -/
theorem ids_garblerGates (instructions : List Instruction) (progress : Progress) :
    (garblerGates cfg instructions progress).map GateUse.id =
      (gateSlots cfg instructions).mapIdx (slotId cfg.nThreads progress.counter) := by
  induction instructions generalizing progress with
  | nil => rfl
  | cons i rest ih =>
    rw [garblerGates, runGates, List.map_append, ids_instructionGates]
    rw [garblerGates] at ih
    have split : gateSlots cfg (i :: rest) =
        List.replicate i.total (idSlot cfg i) ++ gateSlots cfg rest := List.flatMap_cons
    rw [ih, split, List.mapIdx_append, List.length_replicate, Progress.counter_after]
    refine congrArg (_ ++ ·) (congrArg (List.mapIdx · _) ?_)
    funext k slot
    simp only [slotId, BitVec.ofNat_add]
    ring

end Ids

/-! ## Tweaks of a computation -/

/-- What the program threads of the garbler garble, each over all its tapes. The code
leaves open what comes of an instruction whose sums overflow, so there is none. -/
structure Computation where
  nThreads : Nat
  workers : Nat
  threshold : Int
  program : Nat → List Instruction
  sums : ∀ t, ∀ i ∈ program t, i.SumsFit ⟨nThreads, t, workers, threshold⟩

namespace Computation

/-- What thread `t` knows of the computation. -/
def cfg (c : Computation) (t : Nat) : ThreadConfig := ⟨c.nThreads, t, c.workers, c.threshold⟩

/-- The gates of a thread in the order of its counter, which starts at zero. -/
def gates (c : Computation) (t : Nat) : List GateUse :=
  garblerGates (c.cfg t) (c.program t) ⟨0, 0⟩

/-- The slot of every gate of thread `t`. -/
def slots (c : Computation) (t : Nat) : List Nat := gateSlots (c.cfg t) (c.program t)

end Computation

/-- Gates at one position of different threads carry thread numbers that differ in
more than the bits that the tweak drops. -/
def Computation.SlotsApart (c : Computation) : Prop :=
  ∀ t u, t < c.nThreads → u < c.nThreads → t ≠ u → ∀ k slot slot' : Nat,
    (c.slots t)[k]? = some slot → (c.slots u)[k]? = some slot' →
      slot % 2 ^ (logNThreads c.nThreads - 1) ≠ slot' % 2 ^ (logNThreads c.nThreads - 1)

/-- Every thread has fewer than `2 ^ (63 - ⌈log2 n⌉)` gates, `n` being the number of threads. -/
def Computation.Bounded (c : Computation) : Prop :=
  ∀ t, t < c.nThreads → (c.gates t).length < 2 ^ (63 - Nat.clog 2 c.nThreads)

/-! ### Arithmetic -/

namespace Computation

variable {c : Computation}

theorem length_gates (c : Computation) (t : Nat) : (c.gates t).length = (c.slots t).length := by
  have ids := congrArg List.length (ids_garblerGates (c.cfg t) (c.program t) ⟨0, 0⟩)
  rwa [List.length_map, List.length_mapIdx] at ids

/-- With several threads that all garble, tweaks are never unique: there are fewer
thread parts than threads. -/
theorem not_slotsApart (several : 2 ≤ c.nThreads)
    (garbles : ∀ t, t < c.nThreads → (c.gates t) ≠ []) : ¬c.SlotsApart := by
  intro apart
  have first : ∀ t, t < c.nThreads → ∃ slot, (c.slots t)[0]? = some slot := by
    intro t inside
    have positive := List.length_pos_iff.mpr (garbles t inside)
    rw [length_gates] at positive
    exact ⟨_, List.getElem?_eq_getElem positive⟩
  choose slot present using first
  have positive : 0 < logNThreads c.nThreads := Nat.log_pos Nat.one_lt_two several
  have fewer : 2 ^ (logNThreads c.nThreads - 1) < c.nThreads := by
    have half : 2 ^ (logNThreads c.nThreads - 1) < 2 ^ logNThreads c.nThreads :=
      Nat.pow_lt_pow_right Nat.one_lt_two (Nat.sub_one_lt_of_lt positive)
    exact half.trans_le (Nat.pow_log_le_self 2 (by omega))
  obtain ⟨t, -, u, -, other, same⟩ := Finset.exists_ne_map_eq_of_card_lt_of_maps_to
    (s := Finset.univ) (t := Finset.range (2 ^ (logNThreads c.nThreads - 1)))
    (f := fun t : Fin c.nThreads => slot t t.isLt % 2 ^ (logNThreads c.nThreads - 1))
    (by simpa using fewer) fun t _ => by
      simpa using Nat.mod_lt _ (Nat.two_pow_pos _)
  exact apart t u t.isLt u.isLt (Fin.val_ne_of_ne other) 0 _ _ (present t t.isLt)
    (present u u.isLt) same

end Computation

end SimpleOprf.Yao
