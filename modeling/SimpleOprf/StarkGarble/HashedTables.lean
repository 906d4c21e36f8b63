import SimpleOprf.Basis.Sha256
import SimpleOprf.StarkGarble.AcceptedGates
import SimpleOprf.StarkGarble.Trace

/-!
# The tables a proof speaks about

The `gc_hash` of a proof file is copied from the witness file and bound into
the public inputs, but no check compares it with the tables in the trace.

A proof file so speaks about tables with the announced hash exactly when the
witness file did. The external prover and verifier are parameters with the
properties that are used of them named.
-/

namespace SimpleOprf.StarkGarble

open SimpleOprf.Basis SimpleOprf.GcMmo

/-- The header's `gc_hash` is the hash of the tables in the columns. -/
def HashesColumns (p : Primitives) (h : Header) (trace : TraceTable) : Prop :=
  h.gcHash = p.sha256 (tableBytes (columnTables h.pub trace))

/-- The witness file's `gc_hash` is the hash of its own tables. -/
def Witness.HashesTables (p : Primitives) (w : Witness) : Prop :=
  w.gcHash = p.sha256 (tableBytes (w.gates.map GateWit.table))

/-- Everything a successful run of the prover determines. -/
structure Proven (p : Primitives) (wf : Winterfell) (buf out : List UInt8) (w : Witness) : Prop where
  parsed : parseWitness buf = .ok w
  fits : w.Fits
  gates : 0 < w.nAnd.toNat
  accepted : checkHalfGates w = .ok ()
  built : buildTrace p w = .ok (traceTable p w, publicInputs p w)
  written : ∃ proof, wf.prove (traceTable p w) (publicInputs p w) = .ok proof ∧
    out = (proofHeader p w).bytes ++ wf.writeInto proof

/-- The trace of a parsed witness is built exactly when it has a gate. -/
theorem buildTrace_eq {p : Primitives} {w : Witness} (fits : w.Fits) :
    buildTrace p w = if w.nAnd.toNat = 0 then .error (.panicked "index out of bounds")
      else .ok (traceTable p w, publicInputs p w) := by
  have zero : w.nAnd = 0 ↔ w.nAnd.toNat = 0 := by
    rw [← UInt64.toNat_inj]
    rfl
  have enough : ¬ w.gates.length < w.nAnd.toNat := by
    rw [fits.gates]
    exact Nat.lt_irrefl _
  simp only [buildTrace, zero, enough, or_false]

/-- When the prover writes a file. -/
theorem doProve_eq_ok {p : Primitives} {wf : Winterfell} {buf out : List UInt8} :
    doProve p wf buf = .ok out ↔ ∃ w, Proven p wf buf out w := by
  constructor
  · intro proved
    unfold doProve at proved
    obtain ⟨w, parsed, proved⟩ := Outcome.bind_eq_ok.mp proved
    have fits := parseWitness_fits parsed
    cases accepted : checkHalfGates w with
    | error e =>
      rw [accepted] at proved
      cases proved
    | ok value =>
      rw [accepted] at proved
      dsimp only at proved
      rw [if_neg (not_not.mpr fits.cm), buildTrace_eq fits] at proved
      by_cases empty : w.nAnd.toNat = 0
      · rw [if_pos empty] at proved
        cases proved
      · rw [if_neg empty, Outcome.ok_bind] at proved
        obtain ⟨proof, made, written⟩ := Outcome.bind_eq_ok.mp proved
        refine ⟨w, parsed, fits, Nat.pos_of_ne_zero empty, accepted, ?_, proof, made, ?_⟩
        · rw [buildTrace_eq fits, if_neg empty]
        · exact (Except.ok.inj written).symm
  · rintro ⟨w, parsed, fits, gates, accepted, built, proof, made, rfl⟩
    unfold doProve
    rw [parsed, Outcome.ok_bind, accepted]
    dsimp only
    rw [if_neg (not_not.mpr fits.cm), built, Outcome.ok_bind, made, Outcome.ok_bind]

/-- A proof file reads back as the header its prover wrote. -/
theorem Proven.readHeader_eq {p : Primitives} {wf : Winterfell} {buf out : List UInt8} {w : Witness}
    (proven : Proven p wf buf out w) : ∃ off, readHeader out 0 = .ok (proofHeader p w, off) := by
  obtain ⟨proof, -, rfl⟩ := proven.written
  have front := reads_header (show (proofHeader p w).cm.length = cmBytes from proven.fits.cm) []
    (wf.writeInto proof)
  exact ⟨_, front⟩

/-! ## Binding another digest to the same columns -/

/-- The header with another `gc_hash`, bound anew. -/
def Header.rehash (p : Primitives) (h : Header) (digest : Digest) : Header :=
  let binding := p.sha256 (bindingInput h.cm digest h.rRoot h.outHash h.pub.nAnd)
  { h with
    pub := { h.pub with bind := bindingToField binding }
    binding
    gcHash := digest }

/-- A header that is bound again passes the checks. -/
theorem checkBinding_rehash (p : Primitives) (h : Header) (digest : Digest) :
    checkBinding p (h.rehash p digest) = .ok () := by
  rw [checkBinding_eq_ok]
  exact ⟨rfl, rfl⟩

/-- The tables in the columns do not depend on the binding. -/
theorem columnTables_rebind {pub other : PublicInputs} (sameCount : other.nAnd = pub.nAnd)
    (trace : TraceTable) (bind : Vector E 4) :
    columnTables other (trace.rebind bind) = columnTables pub trace := by
  have column : ∀ k : Fin 18, k ≠ 14 → ∀ g,
      columnBlock (trace.rebind bind) k g = columnBlock trace k g := by
    intro k apart g
    apply blockOfBits_congr
    intro b _
    rw [getElem_row_rebind _ _ _ apart]
  simp only [columnTables, sameCount, column 5 (by decide), column 10 (by decide)]

/-! ## When the hash covers the tables -/

/-- A proof file's `gc_hash` is the hash of the tables in its trace exactly when
the witness file's was; and whatever passes the verifier's binding checks with a
satisfying trace also passes with any other `gc_hash` and the same tables. -/
theorem proof_hashes_columns_iff (p : Primitives) :
    (∀ wf buf out, doProve p wf buf = .ok out → ∃ w h off trace, parseWitness buf = .ok w ∧
      readHeader out 0 = .ok (h, off) ∧ buildTrace p w = .ok (trace, h.pub) ∧
      (HashesColumns p h trace ↔ w.HashesTables p)) ∧
    (∀ h trace digest, checkBinding p h = .ok () → Satisfies h.pub trace →
      ∃ h' trace', checkBinding p h' = .ok () ∧ Satisfies h'.pub trace' ∧ h'.gcHash = digest ∧
        h'.cm = h.cm ∧ h'.pub.nAnd = h.pub.nAnd ∧
        columnTables h'.pub trace' = columnTables h.pub trace) := by
  constructor
  · intro wf buf out proved
    obtain ⟨w, proven⟩ := doProve_eq_ok.mp proved
    obtain ⟨off, read⟩ := proven.readHeader_eq
    refine ⟨w, proofHeader p w, off, traceTable p w, proven.parsed, read, proven.built, ?_⟩
    have columns : columnTables (publicInputs p w) (traceTable p w) = w.gates.map GateWit.table :=
      (encodes_traceTable proven.fits.gates proven.accepted).columnTables_eq
    change w.gcHash = p.sha256 (tableBytes (columnTables (publicInputs p w) (traceTable p w))) ↔ _
    rw [columns]
    rfl
  · intro h trace digest _ satisfied
    exact ⟨h.rehash p digest, trace.rebind (h.rehash p digest).pub.bind,
      checkBinding_rehash p h digest, satisfied.rebind _, rfl, rfl, rfl,
      columnTables_rebind rfl trace _⟩

/-- A proof system that proves and accepts everything. Some trace satisfies the
constraints under any public inputs, so even this one is sound for them. -/
def acceptAll : Winterfell where
  Proof := Unit
  prove _ _ := .ok ()
  writeInto _ := []
  readFrom _ := .ok ()
  verify _ _ := .ok ()

/-- A verifier that accepts everything is sound, since every statement has a trace. -/
theorem acceptAll_sound : acceptAll.Sound := fun _ pub _ => exists_satisfying pub

/-- It accepts honest proofs. -/
theorem acceptAll_honest (p : Primitives) (gates : Nat) : acceptAll.AcceptsHonest p gates :=
  fun _ _ _ _ => ⟨(), rfl, rfl, rfl, Nat.two_pow_pos 62⟩

/-- SHA-256 and AES-128 as the programs link them. -/
def standard : Primitives := ⟨Sha256.hash, fixedKeyAes⟩

/-- A digest other than the given one. -/
def otherDigest (digest : Digest) : Digest := digest.set 0 (digest[0] ^^^ 1)

/-- It is another one. -/
theorem otherDigest_ne (digest : Digest) : otherDigest digest ≠ digest := by
  intro same
  have changed : ∀ x : UInt8, x ^^^ 1 ≠ x := by decide +kernel
  have entry := congrArg (fun d : Digest => d[0]) same
  simp only [otherDigest, Vector.getElem_set_self] at entry
  exact changed _ entry

/-- One honest gate under the given `gc_hash`. -/
def hashedWitness (gcHash : Digest) : Witness :=
  { probeWitness (fixedKeyAes 0) 0 with
    cm := List.replicate cmBytes 0
    gcHash }

/-- The prover writes a file for that witness. -/
theorem hashedWitness_proven (gcHash : Digest) :
    Proven standard acceptAll (hashedWitness gcHash).bytes
      ((proofHeader standard (hashedWitness gcHash)).bytes ++ []) (hashedWitness gcHash) := by
  have fits : (hashedWitness gcHash).Fits := by
    refine ⟨List.length_replicate, rfl, ?_⟩
    have one : (hashedWitness gcHash).nAnd.toNat = 1 := rfl
    rw [one]
    omega
  have gates : 0 < (hashedWitness gcHash).nAnd.toNat := Nat.one_pos
  refine ⟨(reads_witness fits).parse_eq, fits, gates, ?_, ?_, (), rfl, rfl⟩
  · exact probeWitness_accepted (fixedKeyAes 0) (.inl rfl)
  · rw [buildTrace_eq fits, if_neg (Nat.ne_of_gt gates)]

/-- The equivalence for the file of a witness under the zero hash. -/
theorem zero_hash_proof_hashes_columns_iff :
    ∃ w h off trace, parseWitness (hashedWitness (Vector.replicate 32 0)).bytes = .ok w ∧
      readHeader ((proofHeader standard (hashedWitness (Vector.replicate 32 0))).bytes ++ []) 0 =
        .ok (h, off) ∧
      buildTrace standard w = .ok (trace, h.pub) ∧
      (HashesColumns standard h trace ↔ w.HashesTables standard) :=
  (proof_hashes_columns_iff standard).1 acceptAll _ _
    (doProve_eq_ok.mpr ⟨_, hashedWitness_proven (Vector.replicate 32 0)⟩)

/-- A witness file with a wrong `gc_hash` is proved like any other. -/
theorem proven_hash_may_miss_tables :
    ¬ ∀ p wf buf out w h off trace, doProve p wf buf = .ok out → parseWitness buf = .ok w →
      readHeader out 0 = .ok (h, off) → buildTrace p w = .ok (trace, h.pub) →
      HashesColumns p h trace := by
  intro bound
  let tables := (probeWitness (fixedKeyAes 0) 0).gates.map GateWit.table
  let w := hashedWitness (otherDigest (standard.sha256 (tableBytes tables)))
  have proven : Proven standard acceptAll w.bytes ((proofHeader standard w).bytes ++ []) w :=
    hashedWitness_proven _
  obtain ⟨off, read⟩ := proven.readHeader_eq
  have hashed := bound standard acceptAll w.bytes _ w (proofHeader standard w) off _
    (doProve_eq_ok.mpr ⟨w, proven⟩) proven.parsed read proven.built
  have columns : columnTables (publicInputs standard w) (traceTable standard w) = tables :=
    (encodes_traceTable proven.fits.gates proven.accepted).columnTables_eq
  change w.gcHash = standard.sha256 (tableBytes (columnTables (publicInputs standard w)
    (traceTable standard w))) at hashed
  rw [columns] at hashed
  exact otherDigest_ne _ hashed

end SimpleOprf.StarkGarble
