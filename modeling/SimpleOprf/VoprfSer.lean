import SimpleOprf.Basis.Reader
import SimpleOprf.GcMmo.Garble
import SimpleOprf.PlaintextOprf

/-!
# Message serialization

The table blob of one circuit and the prover's witness file. A table blob read
back by `deserializeTables` is the message it was written from.
-/

namespace SimpleOprf.VoprfSer

open SimpleOprf.Basis SimpleOprf.GcMmo

/-- What the client reads from a table blob. -/
structure TablesMsg where
  aesKey : Block := 0
  delta : Block := 0
  tables : List AndGateTable := []
  keyWire0 : List Block := []
  outDecode : List UInt8 := []
  gcHash : Digest := Vector.replicate 32 0
  rRoot : Digest := Vector.replicate 32 0
deriving DecidableEq, Repr

def serializeTables (gr : GarbleResult) : Outcome (List UInt8) := do
  let keyWire0 ← slice .outOfBounds gr.wire0 0 128
  .ok (gr.aesKey.bytes ++ gr.delta.bytes ++
    le64 (UInt64.ofNat gr.tables.length) ++ tableBytes gr.tables ++
    -- The key-wire zero labels travel with the tables.
    le64 128 ++ keyWire0.flatMap Block.bytes ++
    le64 (UInt64.ofNat gr.outDecode.length) ++ gr.outDecode ++
    gr.gcHash.toList ++ gr.rRoot.toList)

/-- `resize` of a vector of `size`-byte elements. -/
def resize (size : Nat) (count : UInt64) : Outcome Unit :=
  if size * count.toNat < 2 ^ 63 then .ok () else .error (.thrown "vector::_M_default_append")

def takeU64 : Reader UInt64 := Reader.word .outOfBounds

def takeBlock : Reader Block := Block.ofBytes <$> Reader.bytes .outOfBounds 16

def takeTable : Reader AndGateTable := do
  let t0 ← takeBlock
  let t1 ← takeBlock
  return { t0, t1 }

def takeTablesMsg : Reader TablesMsg := do
  let aesKey ← takeBlock
  let delta ← takeBlock
  let n ← takeU64
  Reader.computing (resize 32 n)
  let tables ← Reader.repeated takeTable n.toNat
  let nk ← takeU64
  Reader.computing (resize 16 nk)
  let keyWire0 ← Reader.repeated takeBlock nk.toNat
  let nd ← takeU64
  Reader.computing (resize 1 nd)
  let outDecode ← Reader.bytes .outOfBounds nd.toNat
  let gcHash ← Reader.array .outOfBounds 32
  let rRoot ← Reader.array .outOfBounds 32
  return { aesKey, delta, tables, keyWire0, outDecode, gcHash, rRoot }

def deserializeTables (input : List UInt8) : Outcome TablesMsg := takeTablesMsg.parse input

def serializeStarkWitness (p : Primitives) (gr : GarbleResult) (cm : List UInt8) : List UInt8 :=
  le64 (UInt64.ofNat gr.andWit.length) ++ cm ++ gr.gcHash.toList ++ gr.rRoot.toList ++
    (p.sha256 gr.outDecode).toList ++ gr.delta.bytes ++
    gr.andWit.flatMap fun w =>
      w.a0.bytes ++ w.b0.bytes ++ w.tg.bytes ++ w.te.bytes ++
        w.ha0.bytes ++ w.ha1.bytes ++ w.hb0.bytes ++ w.hb1.bytes ++ [w.pa, w.pb]

/-- The public values that a verifier may compare a proof file with. -/
def serializePublicBinding (p : Primitives) (gr : GarbleResult) (cm : List UInt8) : List UInt8 :=
  gr.gcHash.toList ++ gr.rRoot.toList ++ (p.sha256 gr.outDecode).toList ++ cm

/-! ## Reading a table blob -/

theorem reads_block (b : Block) : takeBlock.Reads b.bytes b := by
  have mapped := (Reader.reads_bytes .outOfBounds b.length_bytes).map Block.ofBytes
  rwa [Block.ofBytes_bytes] at mapped

theorem reads_table (t : AndGateTable) : takeTable.Reads (t.t0.bytes ++ t.t1.bytes) t := by
  have second : Reader.Reads (do let t1 ← takeBlock; pure { t0 := t.t0, t1 })
      (t.t1.bytes ++ []) t := (reads_block t.t1).bind (Reader.Reads.pure t)
  rw [List.append_nil] at second
  exact (reads_block t.t0).bind second

/-- The bytes of a table message. -/
def TablesMsg.bytes (m : TablesMsg) : List UInt8 :=
  m.aesKey.bytes ++ (m.delta.bytes ++ (le64 (UInt64.ofNat m.tables.length) ++
    (tableBytes m.tables ++ (le64 (UInt64.ofNat m.keyWire0.length) ++
      (m.keyWire0.flatMap Block.bytes ++ (le64 (UInt64.ofNat m.outDecode.length) ++
        (m.outDecode ++ (m.gcHash.toList ++ m.rRoot.toList))))))))

theorem TablesMsg.length_bytes (m : TablesMsg) : m.bytes.length =
    120 + 32 * m.tables.length + 16 * m.keyWire0.length + m.outDecode.length := by
  have tables : (tableBytes m.tables).length = m.tables.length * 32 := by
    simp [tableBytes, List.length_flatMap]
  have keys : (m.keyWire0.flatMap Block.bytes).length = m.keyWire0.length * 16 := by
    simp [List.length_flatMap]
  simp only [TablesMsg.bytes, List.length_append, Block.length_bytes, length_le64, tables, keys,
    Vector.length_toList]
  omega

/-- The vectors of a message are short enough to exist in memory. -/
structure TablesMsg.Fits (m : TablesMsg) : Prop where
  tables : 32 * m.tables.length < 2 ^ 63
  keyWire0 : 16 * m.keyWire0.length < 2 ^ 63
  outDecode : m.outDecode.length < 2 ^ 63

private theorem counted {size count : Nat} (positive : 0 < size) (fits : size * count < 2 ^ 63) :
    (UInt64.ofNat count).toNat = count ∧ resize size (UInt64.ofNat count) = .ok () := by
  have small : count < 2 ^ 64 := by
    have grows := Nat.le_mul_of_pos_left count positive
    omega
  have exact_count : (UInt64.ofNat count).toNat = count := UInt64.toNat_ofNat_of_lt' small
  exact ⟨exact_count, by rw [resize, exact_count, if_pos fits]⟩

/-- Reading a table message consumes exactly its bytes and restores it. -/
theorem reads_tablesMsg {m : TablesMsg} (fits : m.Fits) : takeTablesMsg.Reads m.bytes m := by
  obtain ⟨nTables, resizeTables⟩ := counted (by omega) fits.tables
  obtain ⟨nKeys, resizeKeys⟩ := counted (by omega) fits.keyWire0
  have decodeFits : 1 * m.outDecode.length < 2 ^ 63 := by
    rw [Nat.one_mul]
    exact fits.outDecode
  obtain ⟨nDecode, resizeDecode⟩ := counted (by omega) decodeFits
  have tables := Reader.Reads.repeated m.tables fun t _ => reads_table t
  have keys := Reader.Reads.repeated m.keyWire0 fun b _ => reads_block b
  unfold takeTablesMsg TablesMsg.bytes
  refine (reads_block _).bind ((reads_block _).bind ((Reader.reads_word _ _).bind ?_))
  rw [nTables, ← List.nil_append (tableBytes m.tables ++ _)]
  refine (Reader.Reads.computing resizeTables).bind (tables.bind ((Reader.reads_word _ _).bind ?_))
  rw [nKeys, ← List.nil_append (m.keyWire0.flatMap Block.bytes ++ _)]
  refine (Reader.Reads.computing resizeKeys).bind (keys.bind ((Reader.reads_word _ _).bind ?_))
  rw [nDecode, ← List.nil_append (m.outDecode ++ _)]
  refine (Reader.Reads.computing resizeDecode).bind ((Reader.reads_bytes _ rfl).bind ?_)
  rw [← List.append_nil m.rRoot.toList]
  exact (Reader.reads_array _ _).bind ((Reader.reads_array _ _).bind (Reader.Reads.pure m))

private theorem takeBlock_consumes : takeBlock.Consumes fun _ used => used = 16 :=
  (Reader.consumes_bytes _ 16).map fun _ _ taken => taken.2

private theorem takeU64_consumes : takeU64.Consumes fun _ used => used = 8 :=
  (Reader.consumes_bytes _ 8).map fun _ _ taken => taken.2

private theorem takeTable_consumes : takeTable.Consumes fun _ used => used = 32 := by
  refine takeBlock_consumes.bind fun t0 front first => takeBlock_consumes.bind fun t1 back second =>
    Reader.Consumes.pure ?_
  rw [first, second]

private theorem takeArray_consumes :
    (Reader.array .outOfBounds 32 : Reader Digest).Consumes fun _ used => used = 32 :=
  (Reader.consumes_bytes _ 32).map fun _ _ taken => taken.2

private theorem resize_consumes (size : Nat) (count : UInt64) :
    (Reader.computing (resize size count)).Consumes fun _ used =>
      size * count.toNat < 2 ^ 63 ∧ used = 0 := by
  intro input offset value final ran inside
  obtain ⟨within, used, ends, resized, none⟩ :=
    Reader.consumes_computing _ input offset value final ran inside
  refine ⟨within, used, ends, ?_, none⟩
  by_contra large
  rw [resize, if_neg large] at resized
  cases resized

/-- A table blob that is read holds a message that fits, and all its bytes. -/
theorem deserializeTables_fits {blob : List UInt8} {m : TablesMsg}
    (parsed : deserializeTables blob = .ok m) : m.Fits ∧ m.bytes.length ≤ blob.length := by
  have whole : takeTablesMsg.Consumes fun m used => m.Fits ∧ used = m.bytes.length := by
    unfold takeTablesMsg
    refine takeBlock_consumes.bind fun aesKey u1 s1 => takeBlock_consumes.bind fun delta u2 s2 => ?_
    refine takeU64_consumes.bind fun n u3 s3 => (resize_consumes 32 n).bind fun _ u4 s4 => ?_
    refine (takeTable_consumes.repeated n.toNat).bind fun tables u5 s5 => ?_
    refine takeU64_consumes.bind fun nk u6 s6 => (resize_consumes 16 nk).bind fun _ u7 s7 => ?_
    refine (takeBlock_consumes.repeated nk.toNat).bind fun keyWire0 u8 s8 => ?_
    refine takeU64_consumes.bind fun nd u9 s9 => (resize_consumes 1 nd).bind fun _ u10 s10 => ?_
    refine (Reader.consumes_bytes _ nd.toNat).bind fun outDecode u11 s11 => ?_
    refine takeArray_consumes.bind fun gcHash u12 s12 => ?_
    refine takeArray_consumes.bind fun rRoot u13 s13 => Reader.Consumes.pure ?_
    obtain ⟨tablesLength, tablesUsed⟩ := s5
    obtain ⟨keysLength, keysUsed⟩ := s8
    obtain ⟨decodeLength, decodeUsed⟩ := s11
    refine ⟨⟨?_, ?_, ?_⟩, ?_⟩
    · change 32 * tables.length < 2 ^ 63
      rw [tablesLength]
      exact s4.1
    · change 16 * keyWire0.length < 2 ^ 63
      rw [keysLength]
      exact s7.1
    · change outDecode.length < 2 ^ 63
      rw [decodeLength]
      exact Nat.one_mul nd.toNat ▸ s10.1
    · rw [TablesMsg.length_bytes]
      change _ = 120 + 32 * tables.length + 16 * keyWire0.length + outDecode.length
      rw [tablesLength, keysLength, decodeLength, s1, s2, s3, s4.2, tablesUsed, s6, s7.2, keysUsed,
        s9, s10.2, decodeUsed, s12, s13]
      ring
  obtain ⟨used, within, fits, total⟩ := whole.of_parse parsed
  exact ⟨fits, by omega⟩

/-- The message that a garbling serialises. -/
def tablesMsg (gr : GarbleResult) : TablesMsg where
  aesKey := gr.aesKey
  delta := gr.delta
  tables := gr.tables
  keyWire0 := gr.wire0.take 128
  outDecode := gr.outDecode
  gcHash := gr.gcHash
  rRoot := gr.rRoot

/-- With at least 128 wires the serialiser writes the message of the garbling. -/
theorem serializeTables_eq {gr : GarbleResult} (wires : 128 ≤ gr.wire0.length) :
    serializeTables gr = .ok (tablesMsg gr).bytes := by
  have count : (gr.wire0.take 128).length = 128 := by
    rw [List.length_take]
    omega
  rw [serializeTables, slice_front wires, Outcome.ok_bind]
  simp only [TablesMsg.bytes, tablesMsg, count, List.append_assoc]
  rfl

/-- A serialised garbling reads back as its message. -/
theorem deserialize_tablesMsg {m : TablesMsg} (fits : m.Fits) :
    deserializeTables m.bytes = .ok m :=
  (reads_tablesMsg fits).parse_eq

end SimpleOprf.VoprfSer
