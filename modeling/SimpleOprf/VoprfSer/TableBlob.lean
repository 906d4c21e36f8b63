import SimpleOprf.Basis.InBounds
import SimpleOprf.VoprfSer

/-!
# Table blobs

What the serialiser wrote comes back whole. For a blob from anyone, its layout in
terms of its own bytes and the three ways in which `deserializeTables` can end on it.

A blob is `Whole` when everything it announces lies inside it and `Guarded` when
reading it never leaves it; the two differ only where a count is too large for a
vector.
-/

namespace SimpleOprf.VoprfSer

open SimpleOprf.Basis SimpleOprf.Basis.Outcome SimpleOprf.GcMmo

/-! ## Round trip -/

/-- The vectors of a garbling exist in memory. -/
structure Storable (gr : GarbleResult) : Prop where
  tables : 32 * gr.tables.length < 2 ^ 63
  outDecode : gr.outDecode.length < 2 ^ 63

/-- A garbling that can be stored fits its message. -/
theorem Storable.fits {gr : GarbleResult} (storable : Storable gr) : (tablesMsg gr).Fits where
  tables := storable.tables
  keyWire0 := by
    simp only [tablesMsg, List.length_take]
    omega
  outDecode := storable.outDecode

/-- A table blob is read back field by field and to its last byte, so that blobs
tell garblings apart. -/
theorem table_blob_round_trip (gr : GarbleResult) (wires : 128 ≤ gr.wire0.length)
    (storable : Storable gr) :
    (∃ blob m, serializeTables gr = .ok blob ∧ deserializeTables blob = .ok m ∧
      takeTablesMsg blob 0 = .ok (m, blob.length) ∧ m.aesKey = gr.aesKey ∧ m.delta = gr.delta ∧
      m.tables = gr.tables ∧ m.keyWire0 = gr.wire0.take 128 ∧ m.outDecode = gr.outDecode ∧
      m.gcHash = gr.gcHash ∧ m.rRoot = gr.rRoot) ∧
    ∀ gr', 128 ≤ gr'.wire0.length → Storable gr' → serializeTables gr' = serializeTables gr →
      gr'.aesKey = gr.aesKey ∧ gr'.delta = gr.delta ∧ gr'.tables = gr.tables ∧
        gr'.wire0.take 128 = gr.wire0.take 128 ∧ gr'.outDecode = gr.outDecode ∧
        gr'.gcHash = gr.gcHash ∧ gr'.rRoot = gr.rRoot := by
  constructor
  · have consumed := reads_tablesMsg storable.fits [] []
    simp only [List.nil_append, List.append_nil, List.length_nil, Nat.zero_add] at consumed
    exact ⟨(tablesMsg gr).bytes, tablesMsg gr, serializeTables_eq wires,
      deserialize_tablesMsg storable.fits, consumed, rfl, rfl, rfl, rfl, rfl, rfl, rfl⟩
  · intro gr' wires' storable' same
    rw [serializeTables_eq wires, serializeTables_eq wires'] at same
    have read := deserialize_tablesMsg storable'.fits
    rw [Except.ok.inj same, deserialize_tablesMsg storable.fits] at read
    have messages : tablesMsg gr = tablesMsg gr' := Except.ok.inj read
    exact ⟨(congrArg TablesMsg.aesKey messages).symm, (congrArg TablesMsg.delta messages).symm,
      (congrArg TablesMsg.tables messages).symm, (congrArg TablesMsg.keyWire0 messages).symm,
      (congrArg TablesMsg.outDecode messages).symm, (congrArg TablesMsg.gcHash messages).symm,
      (congrArg TablesMsg.rRoot messages).symm⟩

/-- A garbling with one table and one decode bit. -/
def oneTable : GarbleResult where
  wire0 := List.replicate 130 0
  tables := [⟨0, Block.ofBytes [1]⟩]
  outDecode := [1]

/-- The round trip of a message with one table. -/
theorem oneTable_round_trip : ∃ blob m, serializeTables oneTable = .ok blob ∧
    deserializeTables blob = .ok m ∧ m.tables = oneTable.tables ∧ m.outDecode = [1] := by
  have wires : 128 ≤ oneTable.wire0.length := by simp [oneTable]
  obtain ⟨⟨blob, m, written, read, -, -, -, tables, -, decode, -, -⟩, -⟩ :=
    table_blob_round_trip oneTable wires ⟨by decide, by decide⟩
  exact ⟨blob, m, written, read, tables, decode⟩

/-! ## Layout -/

/-- The number in the eight bytes from `start` on. -/
def wordAt (input : List UInt8) (start : Nat) : Nat := (ofLe64 ((input.drop start).take 8)).toNat

/-- How many AND tables a blob announces. -/
def tableCount (blob : List UInt8) : Nat := wordAt blob 32

/-- Where the number of key-wire labels stands. -/
def keysFrom (blob : List UInt8) : Nat := 40 + 32 * tableCount blob

/-- How many key-wire labels a blob announces. -/
def keyCount (blob : List UInt8) : Nat := wordAt blob (keysFrom blob)

/-- Where the number of decode bits stands. -/
def decodeFrom (blob : List UInt8) : Nat := keysFrom blob + 8 + 16 * keyCount blob

/-- How many decode bits a blob announces. -/
def decodeCount (blob : List UInt8) : Nat := wordAt blob (decodeFrom blob)

/-- Where the hash of the tables stands. -/
def hashFrom (blob : List UInt8) : Nat := decodeFrom blob + 8 + decodeCount blob

/-- The bytes of that hash. -/
def hashBytes (blob : List UInt8) : List UInt8 := (blob.drop (hashFrom blob)).take 32

/-- Every field that the blob announces lies inside it. -/
def Whole (blob : List UInt8) : Prop := hashFrom blob + 64 ≤ blob.length

/-- Each count lies inside the blob, and what it announces does too unless it is
more than a vector holds. -/
def Guarded (blob : List UInt8) : Prop :=
  40 ≤ blob.length ∧ (32 * tableCount blob < 2 ^ 63 →
    keysFrom blob + 8 ≤ blob.length ∧ (16 * keyCount blob < 2 ^ 63 →
      decodeFrom blob + 8 ≤ blob.length ∧ (decodeCount blob < 2 ^ 63 →
        hashFrom blob + 64 ≤ blob.length)))

/-- A whole blob is guarded. -/
theorem Whole.guarded {blob : List UInt8} (whole : Whole blob) : Guarded blob := by
  unfold Whole hashFrom decodeFrom keysFrom at whole
  unfold Guarded hashFrom decodeFrom keysFrom
  omega

/-- A block takes 16 bytes. -/
theorem sized_takeBlock : takeBlock.Sized 16 := (Reader.sized_bytes 16).map Block.ofBytes

/-- A number takes eight. -/
theorem sized_takeU64 : takeU64.Sized 8 := Reader.sized_word

/-- A table takes 32. -/
theorem sized_takeTable : takeTable.Sized 32 :=
  sized_takeBlock.bind fun _ => sized_takeBlock.bind fun _ => Reader.Sized.pure _

/-- A number that is taken is the word at its place. -/
theorem takeU64_wordAt {input : List UInt8} {offset final : Nat} {n : UInt64}
    (taken : takeU64 input offset = .ok (n, final)) : n.toNat = wordAt input offset := by
  obtain ⟨piece, middle, read, same⟩ := Reader.bind_eq_ok.mp
    (show (Reader.bytes .outOfBounds 8 >>= fun piece => pure (ofLe64 piece)) input offset =
      .ok (n, final) from taken)
  obtain ⟨-, rfl, -⟩ := Reader.bytes_eq_ok.mp read
  cases same
  rfl

/-- What a message read from a blob owes to the counts and offsets of the blob. -/
structure Holds (blob : List UInt8) (m : TablesMsg) : Prop where
  whole : Whole blob
  tables : m.tables.length = tableCount blob
  outDecode : m.outDecode.length = decodeCount blob
  gcHash : m.gcHash.toList = hashBytes blob

/-- The ways in which reading a blob can fail. -/
inductive Fails (blob : List UInt8) : Fault → Prop
  | outOfBounds (unguarded : ¬ Guarded blob) : Fails blob .outOfBounds
  | tooLarge (what : String) (guarded : Guarded blob) (cut : ¬ Whole blob) :
    Fails blob (.thrown what)

/-- A resize throws past the limit of a vector. -/
theorem resize_eq_error {size : Nat} {count : UInt64} {fault : Fault}
    (failed : resize size count = .error fault) :
    2 ^ 63 ≤ size * count.toNat ∧ ∃ what, fault = .thrown what := by
  unfold resize at failed
  split at failed
  · cases failed
  · cases failed
    exact ⟨by omega, _, rfl⟩

/-- It succeeds below it. -/
theorem resize_eq_ok {size : Nat} {count : UInt64} {done : Unit}
    (resized : resize size count = .ok done) : size * count.toNat < 2 ^ 63 := by
  unfold resize at resized
  split at resized
  · assumption
  · cases resized

/-- On any blob the reader leaves it, throws at a count that is too large, or
returns a message of the announced sizes. -/
theorem deserializeTables_ends {blob : List UInt8} (fits : blob.length < 2 ^ 63) :
    Ends (Holds blob) (Fails blob) (deserializeTables blob) := by
  have leaves : ¬ Guarded blob → Fails blob .outOfBounds := Fails.outOfBounds
  have guards : Guarded blob → ¬ Whole blob → ∀ what, Fails blob (.thrown what) :=
    fun guarded cut what => .tooLarge what guarded cut
  simp only [Guarded, Whole, hashFrom, decodeFrom, keysFrom] at leaves guards
  unfold deserializeTables takeTablesMsg
  refine Reader.Ends.parse ?_
  refine sized_takeBlock.ends_bind (Nat.zero_le _) (fun _ => leaves (by omega)) fun _ aesKey _ => ?_
  refine sized_takeBlock.ends_bind (by omega) (fun _ => leaves (by omega)) fun _ delta _ => ?_
  refine sized_takeU64.ends_bind (by omega) (fun _ => leaves (by omega)) fun _ n taken => ?_
  have tables : n.toNat = tableCount blob := takeU64_wordAt taken
  refine Reader.ends_computing_bind (fun fault failed => ?_) fun _ resized => ?_
  · obtain ⟨large, what, rfl⟩ := resize_eq_error failed
    exact guards (by omega) (by omega) what
  have tablesFit := resize_eq_ok resized
  refine (sized_takeTable.repeated n.toNat).ends_bind (by omega) (fun _ => leaves (by omega))
    fun _ entries read => ?_
  have entriesLength := Reader.ensures_repeated _ _ _ _ _ _ read
  refine sized_takeU64.ends_bind (by omega) (fun _ => leaves (by omega)) fun _ nk taken => ?_
  have keys : nk.toNat = keyCount blob := by
    rw [takeU64_wordAt taken, keyCount, keysFrom, ← tables]
  refine Reader.ends_computing_bind (fun fault failed => ?_) fun _ resized => ?_
  · obtain ⟨large, what, rfl⟩ := resize_eq_error failed
    exact guards (by omega) (by omega) what
  have keysFit := resize_eq_ok resized
  refine (sized_takeBlock.repeated nk.toNat).ends_bind (by omega) (fun _ => leaves (by omega))
    fun _ keyWire0 _ => ?_
  refine sized_takeU64.ends_bind (by omega) (fun _ => leaves (by omega)) fun _ nd taken => ?_
  have decode : nd.toNat = decodeCount blob := by
    rw [takeU64_wordAt taken, decodeCount, decodeFrom, keysFrom, ← tables, ← keys]
  refine Reader.ends_computing_bind (fun fault failed => ?_) fun _ resized => ?_
  · obtain ⟨large, what, rfl⟩ := resize_eq_error failed
    exact guards (by omega) (by omega) what
  have decodeFits := resize_eq_ok resized
  refine (Reader.sized_bytes nd.toNat).ends_bind (by omega) (fun _ => leaves (by omega))
    fun _ outDecode read => ?_
  have outDecodeLength := Reader.ensures_bytes _ _ _ _ _ _ read
  refine (Reader.sized_array 32).ends_bind (by omega) (fun _ => leaves (by omega))
    fun _ gcHash hashRead => ?_
  refine (Reader.sized_array 32).ends_bind (by omega) (fun _ => leaves (by omega))
    fun _ rRoot _ => ?_
  obtain ⟨hashInside, hashRead, -⟩ := Reader.array_eq_ok.mp hashRead
  have position : 0 + 16 + 16 + 8 + 32 * n.toNat + 8 + 16 * nk.toNat + 8 + nd.toNat =
      hashFrom blob := by
    rw [hashFrom, decodeFrom, keysFrom, tables, keys, decode]
  rw [position] at hashRead hashInside
  refine ⟨by unfold Whole; omega, entriesLength.trans tables, outDecodeLength.trans decode, ?_⟩
  rw [show _ = gcHash from rfl, hashRead, toList_ofBytes]
  · rfl
  · rw [List.length_take, List.length_drop]
    omega

end SimpleOprf.VoprfSer
