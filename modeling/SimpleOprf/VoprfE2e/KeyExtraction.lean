import SimpleOprf.VoprfE2e.HonestServer

/-!
# The key in the table blob

The table blob of a circuit carries the zero labels of the key wires, and the
active key labels arrive beside it. Comparing the two spells out the key.

One extractor works for every circuit, every random stream and every key. It
reads two blobs that every session sends.
-/

namespace SimpleOprf.VoprfE2e

open SimpleOprf.Basis SimpleOprf.GcMmo SimpleOprf.VoprfSer

/-- The table blob and the key-label blob of one circuit. -/
def keyMessages (sha256 : List UInt8 → Digest) (aes : Block → Block) (c : Circuit)
    (mmoKey : Block) (rng : Rng) (key : Block) : Outcome (List UInt8 × List UInt8) := do
  let (gr, _) ← garbleCircuit sha256 c mmoKey aes rng
  let tableBlob ← serializeTables gr
  let keyBlob ← keyLabelsBlob (blockToBits128 key) gr
  .ok (tableBlob, keyBlob)

/-- An extractor returns the key bits from the messages of this garbling. -/
def Recovers (extract : List UInt8 → List UInt8 → List UInt8) (sha256 : List UInt8 → Digest)
    (aes : Block → Block) (c : Circuit) (mmoKey : Block) (rng : Rng) (key : Block) : Prop :=
  ∃ tableBlob keyBlob,
    keyMessages sha256 aes c mmoKey rng key = .ok (tableBlob, keyBlob) ∧
      extract tableBlob keyBlob = blockToBits128 key

/-- The circuits whose garbler input is a 128-bit key. -/
structure KeyedCircuit (c : Circuit) : Prop where
  wf : c.WellFormed
  key : c.nInput0 = 128

/-- The data path has the key on its first inputs. -/
theorem keyed_of_datapath {c : Circuit} (datapath : Datapath c) : KeyedCircuit c :=
  ⟨datapath.wf, datapath.key⟩

/-- There are at least as many inputs as key bits. -/
theorem KeyedCircuit.inputs {c : Circuit} (keyed : KeyedCircuit c) : 128 ≤ c.inputs := by
  rw [Circuit.inputs, keyed.key]
  exact Nat.le_add_right 128 _

/-- No extractor recovers every key from the messages of a circuit. -/
def HidesKey (sha256 : List UInt8 → Digest) (aes : Block → Block) (c : Circuit)
    (mmoKey : Block) : Prop :=
  ¬ ∃ extract, ∀ rng key, Recovers extract sha256 aes c mmoKey rng key

/-! ## The extractor -/

/-- The key-wire zero labels of a table blob. -/
def takeKeyWire0 : Reader (List Block) := do
  let _ ← takeBlock
  let _ ← takeBlock
  let n ← takeU64
  let _ ← Reader.repeated takeTable n.toNat
  let nk ← takeU64
  Reader.repeated takeBlock nk.toNat

/-- The bit of a wire is zero when its active label is its zero label. -/
def compareLabels (keyBlob tableBlob : List UInt8) : Outcome (List UInt8) := do
  let keyWire0 ← takeKeyWire0.parse tableBlob
  let labels ← (Reader.repeated takeBlock 128).parse keyBlob
  .ok (List.zipWith (fun wire0 label => if label = wire0 then 0 else 1) keyWire0 labels)

/-- The key bits that the comparison gives, if it succeeds. -/
def extractKeyBits (tableBlob keyBlob : List UInt8) : List UInt8 :=
  match compareLabels keyBlob tableBlob with
  | .ok bits => bits
  | .error _ => []

/-- The zero labels stand in the blob behind the tables. -/
theorem takeKeyWire0_bytes {m : TablesMsg} (tables : m.tables.length < 2 ^ 64)
    (keys : m.keyWire0.length < 2 ^ 64) : takeKeyWire0.parse m.bytes = .ok m.keyWire0 := by
  have nTables : (UInt64.ofNat m.tables.length).toNat = m.tables.length :=
    UInt64.toNat_ofNat_of_lt' tables
  have nKeys : (UInt64.ofNat m.keyWire0.length).toNat = m.keyWire0.length :=
    UInt64.toNat_ofNat_of_lt' keys
  have tablesRead := Reader.Reads.repeated m.tables fun t _ => reads_table t
  have keysRead := Reader.Reads.repeated m.keyWire0 fun b _ => reads_block b
  have front : takeKeyWire0.Reads
      (m.aesKey.bytes ++ (m.delta.bytes ++ (le64 (UInt64.ofNat m.tables.length) ++
        (tableBytes m.tables ++ (le64 (UInt64.ofNat m.keyWire0.length) ++
          m.keyWire0.flatMap Block.bytes))))) m.keyWire0 := by
    unfold takeKeyWire0
    refine (reads_block _).bind ((reads_block _).bind ((Reader.reads_word _ _).bind ?_))
    rw [nTables]
    refine tablesRead.bind ((Reader.reads_word _ _).bind ?_)
    rw [nKeys]
    exact keysRead
  have parsed := front.parse_append (le64 (UInt64.ofNat m.outDecode.length) ++
    (m.outDecode ++ (m.gcHash.toList ++ m.rRoot.toList)))
  simpa only [TablesMsg.bytes, List.append_assoc] using parsed

/-- The offset moves every label. -/
theorem labelForBit_eq_wire0_iff {wire0 delta : Block} (odd : select delta = 1) {bit : UInt8}
    (isBit : bit = 0 ∨ bit = 1) : labelForBit wire0 delta bit = wire0 ↔ bit = 0 := by
  have moved : wire0 + delta ≠ wire0 := Garbling.add_ne_of_select odd wire0
  rcases isBit with rfl | rfl
  · simp [labelForBit]
  · simp [labelForBit, xorBlock_eq_add, moved]

/-- Comparing each active label with its zero label restores the key bits. -/
theorem zipWith_compare {gr : GarbleResult} (odd : select gr.delta = 1)
    (wires : 128 ≤ gr.wire0.length) (key : Block) :
    List.zipWith (fun wire0 label => if label = wire0 then (0 : UInt8) else 1)
      (gr.wire0.take 128) (activeKeyLabels (blockToBits128 key) gr) = blockToBits128 key := by
  apply List.ext_getElem
  · simp only [List.length_zipWith, List.length_take, length_activeKeyLabels,
      length_blockToBits128]
    omega
  · intro j first second
    rw [length_blockToBits128] at second
    have inside : j < gr.wire0.length := by omega
    have bitInside : j < (blockToBits128 key).length := by rwa [length_blockToBits128]
    have isBit := isBit_blockToBits128 key _ (List.getElem_mem bitInside)
    have compared : labelForBit gr.wire0[j] gr.delta (blockToBits128 key)[j] = gr.wire0[j] ↔ _ :=
      labelForBit_eq_wire0_iff odd isBit
    simp only [List.getElem_zipWith, List.getElem_take, activeKeyLabels, List.getElem_map,
      List.getElem_range, List.getD_eq_getElem?_getD, List.getElem?_eq_getElem inside,
      List.getElem?_eq_getElem bitInside, Option.getD_some, compared]
    rcases isBit with zero | one
    · simp [zero]
    · simp [one]

/-- The extractor recovers the key of every garbling. -/
theorem extractKeyBits_recovers {sha256 : List UInt8 → Digest} {aes : Block → Block} {c : Circuit}
    (keyed : KeyedCircuit c) (mmoKey : Block) (rng : Rng) (key : Block) :
    Recovers extractKeyBits sha256 aes c mmoKey rng key := by
  obtain ⟨gr, rng', garbled, spec⟩ := garbleCircuit_spec sha256 aes mmoKey keyed.wf rng
  have odd : select gr.delta = 1 := by rw [spec.delta, select_makeDelta]
  have wires : 128 ≤ gr.wire0.length := by
    rw [spec.length]
    exact le_trans keyed.inputs keyed.wf.inputs
  have few : gr.tables.length < 2 ^ 64 := by
    rw [spec.length_tables]
    exact lt_trans (andGates_lt c) (by norm_num)
  have keys : (gr.wire0.take 128).length < 2 ^ 64 :=
    lt_of_le_of_lt (List.length_take_le _ _) (by norm_num)
  have blob := serializeTables_eq wires
  have labels := keyLabelsBlob_eq (length_blockToBits128 key) wires
  have zeroLabels : takeKeyWire0.parse (tablesMsg gr).bytes = .ok (gr.wire0.take 128) :=
    takeKeyWire0_bytes (m := tablesMsg gr) few keys
  have labelsRead := (Reader.Reads.repeated (activeKeyLabels (blockToBits128 key) gr)
    fun b _ => reads_block b).parse_eq
  rw [length_activeKeyLabels] at labelsRead
  refine ⟨(tablesMsg gr).bytes, (activeKeyLabels (blockToBits128 key) gr).flatMap Block.bytes,
    ?_, ?_⟩
  · rw [keyMessages, garbled, Outcome.ok_bind]
    dsimp only
    rw [blob, Outcome.ok_bind, labels, Outcome.ok_bind]
  · rw [extractKeyBits, compareLabels, zeroLabels, Outcome.ok_bind, labelsRead, Outcome.ok_bind]
    exact zipWith_compare odd wires key

/-! ## No circuit hides the key -/

/-- Whatever the circuit, the hash function and the block function, one extractor
recovers every key from every garbling. -/
theorem no_circuit_hides_key (sha256 : List UInt8 → Digest) (aes : Block → Block) (c : Circuit)
    (keyed : KeyedCircuit c) (mmoKey : Block) : ¬ HidesKey sha256 aes c mmoKey := by
  rw [HidesKey, not_not]
  exact ⟨extractKeyBits, extractKeyBits_recovers keyed mmoKey⟩

/-- A garbling of one AND gate hides no key. -/
theorem passThrough_reveals_key : ¬ HidesKey Sha256.hash (fixedKeyAes 0) passThrough 0 :=
  no_circuit_hides_key Sha256.hash (fixedKeyAes 0) passThrough (keyed_of_datapath passThrough_datapath) 0

/-- No extractor recovers the key from every garbling of every circuit. -/
def KeyPrivacy : Prop :=
  ¬ ∃ extract, ∀ sha256 aes c mmoKey rng key, KeyedCircuit c →
    Recovers extract sha256 aes c mmoKey rng key

/-- The protocol does not hide its key. -/
theorem not_keyPrivacy : ¬ KeyPrivacy := by
  rw [KeyPrivacy, not_not]
  exact ⟨extractKeyBits, fun _ _ _ mmoKey rng key keyed =>
    extractKeyBits_recovers keyed mmoKey rng key⟩

end SimpleOprf.VoprfE2e
