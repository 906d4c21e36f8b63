import Mathlib.SetTheory.Cardinal.Finite
import Mathlib.Data.Set.Card
import SimpleOprf.VoprfE2e.KeyExtraction

/-!
# What a key label shows

The garbler clears the select bit of every input zero label, so the select bit
of an active label is its bit. Each label of the key-label blob has two random
blocks behind it when it shows the key bit, and none otherwise.

Two keys so have equally many draws behind what is sent only where it shows
neither of them. The draws before and after the key wires are arbitrary.
-/

namespace SimpleOprf.VoprfE2e

open SimpleOprf.Basis SimpleOprf.GcMmo SimpleOprf.VoprfSer

/-! ## One label -/

/-- A random block with its select bit cleared by the offset. -/
def clearSelect (delta z : Block) : Block := if lsb z then xorBlock z delta else z

/-- The blocks that clearing takes to `y`. -/
theorem clearSelect_eq_iff {delta : Block} (odd : select delta = 1) {y z : Block} :
    clearSelect delta z = y ↔ select y = 0 ∧ (z = y ∨ z = y + delta) := by
  have bits : ∀ s : ZMod 2, s = 0 ∨ s = 1 := by decide
  rw [clearSelect, xorBlock_if_lsb]
  constructor
  · rintro rfl
    rw [map_add, map_smul, odd, smul_eq_mul, mul_one, CharTwo.add_self_eq_zero]
    refine ⟨rfl, ?_⟩
    rcases bits (select z) with even | set
    · left
      rw [even, zero_smul, add_zero]
    · right
      rw [set, one_smul, Block.add_add_cancel]
  · rintro ⟨even, rfl | rfl⟩
    · rw [even, zero_smul, add_zero]
    · rw [map_add, even, odd, zero_add, one_smul, Block.add_add_cancel]

/-- Selecting a label is its own inverse. -/
theorem labelForBit_eq_iff {wire0 delta label : Block} {bit : UInt8}
    (isBit : bit = 0 ∨ bit = 1) :
    labelForBit wire0 delta bit = label ↔ wire0 = labelForBit label delta bit := by
  rcases isBit with rfl | rfl
  · simp [labelForBit]
  · simp only [labelForBit, xorBlock_eq_add]
    constructor
    · rintro rfl
      simp
    · rintro rfl
      simp

/-- The draws behind one label: two when its select bit is the key bit, and none
otherwise. -/
theorem card_drawsBehind {delta : Block} (odd : select delta = 1) (label : Block) {bit : UInt8}
    (isBit : bit = 0 ∨ bit = 1) :
    Nat.card {z : Block // labelForBit (clearSelect delta z) delta bit = label} =
      if select label = parity bit then 2 else 0 := by
  have shown : select (labelForBit label delta bit) = 0 ↔ select label = parity bit := by
    rw [labelForBit_eq_active _ _ isBit, Garbling.active, map_add, map_smul, odd, smul_eq_mul,
      mul_one, CharTwo.add_eq_zero]
  have behind : ∀ z, labelForBit (clearSelect delta z) delta bit = label ↔
      select label = parity bit ∧
        (z = labelForBit label delta bit ∨ z = labelForBit label delta bit + delta) := by
    intro z
    rw [labelForBit_eq_iff isBit, clearSelect_eq_iff odd, shown]
  simp only [behind]
  by_cases shows : select label = parity bit
  · have moved : labelForBit label delta bit ≠ labelForBit label delta bit + delta :=
      (Garbling.add_ne_of_select odd _).symm
    simp only [shows, true_and, if_true]
    exact Set.ncard_pair moved
  · simp [shows]

/-! ## The draws of a garbling -/

/-- The stream `rng` with other draws for the first 128 wires. The sixteen words
before these draws make the offset. -/
def withKeyDraws (rng : Rng) (draws : Fin 128 → Block) : Rng := fun t =>
  if wire : 16 ≤ t ∧ (t - 16) / 16 < 128 then
    ((draws ⟨(t - 16) / 16, wire.2⟩).bytes.getD ((t - 16) % 16) 0).toUInt64
  else rng.get t

/-- The draws of the offset stay. -/
theorem withKeyDraws_offset (rng : Rng) (draws : Fin 128 → Block) {t : Nat} (early : t < 16) :
    (withKeyDraws rng draws).get t = rng.get t := by
  change (if _ : _ then _ else _) = _
  rw [dif_neg]
  rintro ⟨late, -⟩
  omega

/-- The draws of a key wire are the given block. -/
theorem withKeyDraws_wire (rng : Rng) (draws : Fin 128 → Block) (j : Fin 128) {i : Nat}
    (inside : i < 16) :
    (withKeyDraws rng draws).get (16 + 16 * j + i) = (draws j).b[i].toUInt64 := by
  have wire : (16 + 16 * j.val + i - 16) / 16 = j.val := by omega
  have byte : (16 + 16 * j.val + i - 16) % 16 = i := by omega
  change (if _ : _ then _ else _) = _
  rw [dif_pos (by omega)]
  simp only [wire, byte]
  simp [Block.bytes, inside]

/-- The offset depends on the first words only. -/
theorem makeDelta_withKeyDraws (rng : Rng) (draws : Fin 128 → Block) :
    (makeDelta (withKeyDraws rng draws)).1 = (makeDelta rng).1 := by
  have words : (randomBlock (withKeyDraws rng draws)).1 = (randomBlock rng).1 := by
    apply Block.ext_bytes
    intro i inside
    simp only [randomBlock, Vector.getElem_ofFn, withKeyDraws_offset rng draws inside]
  unfold makeDelta
  simp only [words]

/-- The block drawn for wire `j` is the given one. -/
theorem randomBlock_withKeyDraws (rng : Rng) (draws : Fin 128 → Block) (j : Fin 128) :
    (randomBlock ((makeDelta (withKeyDraws rng draws)).2.drop (16 * j))).1 = draws j := by
  have low : ∀ x : UInt8, (x.toUInt64 &&& 0xff).toUInt8 = x := by decide +kernel
  apply Block.ext_bytes
  intro i inside
  have word : ((makeDelta (withKeyDraws rng draws)).2.drop (16 * j)).get i =
      (withKeyDraws rng draws).get (16 + 16 * j + i) := by
    change (((withKeyDraws rng draws).drop 16).drop (16 * j)).get i = _
    rw [Stream'.drop_drop, Stream'.get_drop]
  simp only [randomBlock, Vector.getElem_ofFn, word, withKeyDraws_wire rng draws j inside, low]

/-- The zero label of each input wire is its cleared draw. -/
theorem getD_inputLabels (delta : Block) {count i : Nat} (inside : i < count) (rng : Rng) :
    (inputLabels delta count rng).1.getD i 0 =
      clearSelect delta (randomBlock (rng.drop (16 * i))).1 := by
  induction count generalizing i rng with
  | zero => exact absurd inside (Nat.not_lt_zero i)
  | succ count ih =>
    cases i with
    | zero =>
      change clearSelect delta (randomBlock rng).1 = _
      rw [Nat.mul_zero]
      rfl
    | succ i =>
      have next := ih (Nat.lt_of_succ_lt_succ inside) (rng.drop 16)
      rw [Stream'.drop_drop] at next
      rw [Nat.mul_succ, Nat.add_comm (16 * i)]
      exact next

/-! ## Counting choices -/

/-- The number of choices of the blocks for the key wires for which the key-label
blob holds the labels `v`. -/
noncomputable def keyLabelChoices (sha256 : List UInt8 → Digest) (aes : Block → Block)
    (c : Circuit) (mmoKey : Block) (rng : Rng) (key : Block) (v : Vector Block 128) : Nat :=
  Nat.card {draws : Fin 128 → Block // ∃ gr rng',
    garbleCircuit sha256 c mmoKey aes (withKeyDraws rng draws) = .ok (gr, rng') ∧
      keyLabelsBlob (blockToBits128 key) gr = .ok (v.toList.flatMap Block.bytes)}

/-- The select bits of the labels spell the key. -/
def ShowsKey (key : Block) (v : Vector Block 128) : Prop :=
  ∀ j : Fin 128, (if lsb v[j] then 1 else 0) = (blockToBits128 key).getD j 0

instance (key : Block) (v : Vector Block 128) : Decidable (ShowsKey key v) :=
  inferInstanceAs (Decidable (∀ _ : Fin 128, _))

/-- At most one key is shown. -/
theorem ShowsKey.unique {key key' : Block} {v : Vector Block 128} (shows : ShowsKey key v)
    (shows' : ShowsKey key' v) : key = key' := by
  apply blockToBits128_injective
  apply List.ext_getElem
  · rw [length_blockToBits128, length_blockToBits128]
  · intro j first second
    have inside : j < 128 := by rwa [length_blockToBits128] at first
    have same := (shows ⟨j, inside⟩).symm.trans (shows' ⟨j, inside⟩)
    rwa [List.getD_eq_getElem _ _ first, List.getD_eq_getElem _ _ second] at same

/-- Blobs of blocks are equal when the blocks are. -/
theorem flatMap_bytes_inj {labels others : List Block} (sized : labels.length = others.length) :
    labels.flatMap Block.bytes = others.flatMap Block.bytes ↔ labels = others := by
  constructor
  · intro same
    have read := (Reader.Reads.repeated labels fun b _ => reads_block b).parse_eq
    have other := (Reader.Reads.repeated others fun b _ => reads_block b).parse_eq
    rw [sized, same, other] at read
    exact (Except.ok.inj read).symm
  · rintro rfl
    rfl

variable (sha256 : List UInt8 → Digest) (aes : Block → Block) {c : Circuit}

/-- The blob of a garbling holds `v` exactly when each draw, cleared and moved by
its key bit, is the label in `v`. -/
theorem keyLabels_eq_iff (keyed : KeyedCircuit c) (mmoKey : Block) (rng : Rng) (key : Block)
    (v : Vector Block 128) (draws : Fin 128 → Block) :
    (∃ gr rng', garbleCircuit sha256 c mmoKey aes (withKeyDraws rng draws) = .ok (gr, rng') ∧
        keyLabelsBlob (blockToBits128 key) gr = .ok (v.toList.flatMap Block.bytes)) ↔
      ∀ j : Fin 128, labelForBit (clearSelect (makeDelta rng).1 (draws j)) (makeDelta rng).1
        ((blockToBits128 key).getD j 0) = v[j] := by
  obtain ⟨gr, rng', garbled, spec⟩ :=
    garbleCircuit_spec sha256 aes mmoKey keyed.wf (withKeyDraws rng draws)
  have delta : gr.delta = (makeDelta rng).1 := by rw [spec.delta, makeDelta_withKeyDraws]
  have inputs := keyed.inputs
  have wires : 128 ≤ gr.wire0.length := by
    rw [spec.length]
    exact le_trans inputs keyed.wf.inputs
  have label : ∀ j : Fin 128, gr.wire0.getD j 0 = clearSelect (makeDelta rng).1 (draws j) := by
    intro j
    have input : j.val < c.inputs := by omega
    rw [spec.inputLabel keyed.wf input, getD_inputLabels _ input, randomBlock_withKeyDraws, delta]
  have size : (activeKeyLabels (blockToBits128 key) gr).length = v.toList.length := by simp
  have blob := keyLabelsBlob_eq (length_blockToBits128 key) wires
  constructor
  · rintro ⟨gr', rng'', garbled', labels⟩ j
    rw [garbled] at garbled'
    cases garbled'
    rw [blob] at labels
    have entries := (flatMap_bytes_inj size).mp (Except.ok.inj labels)
    have inside : j.val < (activeKeyLabels (blockToBits128 key) gr).length := by
      rw [length_activeKeyLabels]
      exact j.isLt
    have entry := List.getElem_of_eq entries inside
    simp only [activeKeyLabels, List.getElem_map, List.getElem_range, Vector.getElem_toList,
      label j, delta] at entry
    exact entry
  · intro entries
    refine ⟨gr, rng', garbled, ?_⟩
    rw [blob]
    refine congrArg Except.ok ((flatMap_bytes_inj size).mpr (List.ext_getElem size ?_))
    intro j first second
    have inside : j < 128 := by simpa using second
    have entry := entries ⟨j, inside⟩
    rw [← label ⟨j, inside⟩] at entry
    simp only [activeKeyLabels, List.getElem_map, List.getElem_range, Vector.getElem_toList, delta]
    exact entry

/-- A list of labels has `2^128` choices behind it when it shows the key. -/
theorem keyLabelChoices_eq (keyed : KeyedCircuit c) (mmoKey : Block) (rng : Rng) (key : Block)
    (v : Vector Block 128) :
    keyLabelChoices sha256 aes c mmoKey rng key v = if ShowsKey key v then 2 ^ 128 else 0 := by
  have isBit : ∀ j : Fin 128, (blockToBits128 key).getD j 0 = 0 ∨
      (blockToBits128 key).getD j 0 = 1 :=
    fun j => isBit_getD (isBit_blockToBits128 key) j
  have shown : ∀ j : Fin 128, select v[j] = parity ((blockToBits128 key).getD j 0) ↔
      (if lsb v[j] then 1 else 0) = (blockToBits128 key).getD j 0 := by
    intro j
    rw [select_eq_lsb]
    rcases isBit j with zero | one
    · rw [zero]
      cases lsb v[j] <;> decide
    · rw [one]
      cases lsb v[j] <;> decide
  have factors : keyLabelChoices sha256 aes c mmoKey rng key v =
      ∏ j : Fin 128, if select v[j] = parity ((blockToBits128 key).getD j 0) then 2 else 0 := by
    let behind := fun (j : Fin 128) z => labelForBit (clearSelect (makeDelta rng).1 z)
      (makeDelta rng).1 ((blockToBits128 key).getD j 0) = v[j]
    -- The wires are drawn independently of each other.
    have independent : {draws : Fin 128 → Block // ∀ j, behind j (draws j)} ≃
        ∀ j, {z : Block // behind j z} := Equiv.subtypePiEquivPi
    unfold keyLabelChoices
    simp only [keyLabels_eq_iff sha256 aes keyed]
    rw [Nat.card_congr independent, Nat.card_pi]
    exact Finset.prod_congr rfl fun j _ => card_drawsBehind (select_makeDelta rng) v[j] (isBit j)
  rw [factors, Finset.prod_ite_zero]
  simp only [shown, Finset.mem_univ, true_implies, Finset.prod_const, Finset.card_univ,
    Fintype.card_fin]
  rfl

/-- Two keys have the same number of choices behind a list of labels exactly when
they are the same key or the list shows neither. -/
theorem keyLabelChoices_eq_iff (keyed : KeyedCircuit c) (mmoKey : Block) (rng : Rng)
    (key key' : Block) (v : Vector Block 128) :
    keyLabelChoices sha256 aes c mmoKey rng key v =
        keyLabelChoices sha256 aes c mmoKey rng key' v ↔
      key = key' ∨ (¬ ShowsKey key v ∧ ¬ ShowsKey key' v) := by
  rw [keyLabelChoices_eq sha256 aes keyed, keyLabelChoices_eq sha256 aes keyed]
  by_cases shows : ShowsKey key v <;> by_cases shows' : ShowsKey key' v
  · simp [shows', shows.unique shows']
  · have differ : key ≠ key' := by
      rintro rfl
      exact shows' shows
    simp [shows, shows', differ]
  · have differ : key ≠ key' := by
      rintro rfl
      exact shows shows'
    simp [shows, shows', differ]
  · simp [shows, shows']

/-- A key with one bit set. -/
def oneBitKey : Block := Block.ofBytes [1]

/-- The equivalence for two keys on one AND gate. -/
theorem passThrough_choices_eq_iff :
    keyLabelChoices Sha256.hash (fixedKeyAes 0) passThrough 0 (Stream'.const 0) 0
        (Vector.replicate 128 0) =
      keyLabelChoices Sha256.hash (fixedKeyAes 0) passThrough 0 (Stream'.const 0) oneBitKey
        (Vector.replicate 128 0) ↔
    0 = oneBitKey ∨
      (¬ ShowsKey 0 (Vector.replicate 128 0) ∧ ¬ ShowsKey oneBitKey (Vector.replicate 128 0)) :=
  keyLabelChoices_eq_iff Sha256.hash (fixedKeyAes 0) (keyed_of_datapath passThrough_datapath) 0
    (Stream'.const 0) 0 oneBitKey (Vector.replicate 128 0)

/-- Labels with clear select bits can come from the zero key and from no other. -/
theorem choices_depend_on_key :
    ¬ ∀ sha256 aes c mmoKey rng key key' v, KeyedCircuit c →
      keyLabelChoices sha256 aes c mmoKey rng key v =
        keyLabelChoices sha256 aes c mmoKey rng key' v := by
  intro independent
  have keyed := keyed_of_datapath passThrough_datapath
  have same := independent Sha256.hash (fixedKeyAes 0) passThrough 0 (Stream'.const 0) 0 oneBitKey
    (Vector.replicate 128 0) keyed
  have zero : ShowsKey 0 (Vector.replicate 128 0) := by decide +kernel
  have other : ¬ ShowsKey oneBitKey (Vector.replicate 128 0) := by decide +kernel
  rw [keyLabelChoices_eq _ _ keyed, keyLabelChoices_eq _ _ keyed, if_pos zero, if_neg other] at same
  exact absurd same (Nat.ne_of_gt (Nat.two_pow_pos 128))

end SimpleOprf.VoprfE2e
