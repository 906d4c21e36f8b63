import SimpleOprf.StarkGarble.HonestWitness
import SimpleOprf.StarkGarble.ProofFile
import SimpleOprf.VoprfE2e.Verdict

/-!
# One proof-file format

The prover writes a proof file, the verifier reads it field by field, and the
client takes 32 bytes out of its middle. The three agree on every file.

Only the public inputs have no fixed size, and all three take their length from
the file.
-/

namespace SimpleOprf.VoprfE2e

open SimpleOprf.Basis SimpleOprf.GcMmo SimpleOprf.VoprfSer SimpleOprf.StarkGarble

/-- The client's guard passes on every file whose header is read, and what it
takes are the `gc_hash` bytes of that header. -/
theorem proofGc_of_readHeader {file : List UInt8} {h : Header} {off : Nat}
    (fits : file.length < vectorLimit) (read : readHeader file 0 = .ok (h, off)) :
    16 < file.length ∧ proofOffset file + 32 ≤ UInt64.ofNat file.length ∧
      proofGc file = .ok h.gcHash.toList := by
  have placed := headerAt_of_readHeader read
  have inside := placed.inside
  have ends := placed.ends
  have size : (UInt64.ofNat file.length).toNat = file.length :=
    UInt64.toNat_ofNat_of_lt' (lt_trans fits (by norm_num [vectorLimit]))
  simp only [vectorLimit, cmBytes] at fits ends
  have offset : (proofOffset file).toNat = 8 + announced file + 32 := by
    have small : announced file < 2 ^ 63 := by omega
    simp only [announced] at small
    simp only [proofOffset, announced, UInt64.toNat_add, UInt64.reduceToNat]
    omega
  refine ⟨by omega, ?_, ?_⟩
  · rw [UInt64.le_iff_toNat_le, UInt64.toNat_add, offset, size]
    simp only [UInt64.reduceToNat]
    omega
  · have bounded : 8 + announced file + 32 + 32 ≤ file.length := by omega
    have length : ((file.drop (8 + announced file + 32)).take 32).length = 32 := by
      rw [List.length_take, List.length_drop]
      omega
    rw [proofGc, offset, slice_eq_ok, placed.gcHash, toList_ofBytes length]
    exact ⟨bounded, rfl⟩

/-- A file that the prover writes is parsed into the values it was written from
and passes both binding checks, so that only the proof system decides; with the
public file of the same garbling the comparison passes as well. And wherever the
verifier reads a header, the client takes its `gc_hash`. -/
theorem proof_file_read_alike (p : Primitives) (wf : Winterfell) (restores : wf.Restores) :
    (∀ buf file, doProve p wf buf = .ok file → ∃ w proof, parseWitness buf = .ok w ∧
      wf.prove (traceTable p w) (publicInputs p w) = .ok proof ∧
      file = (proofHeader p w).bytes ++ wf.writeInto proof ∧
      parseProofFile wf file = .ok (proofHeader p w, proof) ∧
      checkBinding p (proofHeader p w) = .ok () ∧
      doVerify p wf file none = wf.verdict proof (publicInputs p w) ∧
      ∀ gr cm, cm.length = cmBytes → buf = serializeStarkWitness p gr cm →
        checkPublic (proofHeader p w) (serializePublicBinding p gr cm) = .ok () ∧
        doVerify p wf file (some (serializePublicBinding p gr cm)) =
          wf.verdict proof (publicInputs p w)) ∧
    ∀ file h off, file.length < vectorLimit → readHeader file 0 = .ok (h, off) →
      16 < file.length ∧ proofOffset file + 32 ≤ UInt64.ofNat file.length ∧
        proofGc file = .ok h.gcHash.toList := by
  refine ⟨?_, fun file h off fits read => proofGc_of_readHeader fits read⟩
  intro buf file proved
  obtain ⟨w, proven⟩ := doProve_eq_ok.mp proved
  obtain ⟨proof, made, written, parsed⟩ := proven.parseProofFile_eq restores
  have bound : checkBinding p (proofHeader p w) = .ok () := checkBinding_eq_ok.mpr ⟨rfl, rfl⟩
  refine ⟨w, proof, proven.parsed, made, written, parsed, bound, ?_, ?_⟩
  · rw [doVerify_eq_parse, parsed]
    simp only [Outcome.ok_bind]
    rw [bound, Outcome.ok_bind]
    rfl
  · rintro gr cm sized rfl
    obtain ⟨gcHash, rRoot, outHash, sameCm⟩ := parseWitness_public sized proven.parsed
    have compared : checkPublic (proofHeader p w) (serializePublicBinding p gr cm) = .ok () := by
      have fields := checkPublic_fields (show (proofHeader p w).cm.length = cmBytes from
        proven.fits.cm)
      simp only [proofHeader, gcHash, rRoot, outHash, sameCm] at fields ⊢
      simpa only [serializePublicBinding, List.append_assoc] using fields
    refine ⟨compared, ?_⟩
    rw [doVerify_eq_parse, parsed]
    simp only [Outcome.ok_bind]
    rw [compared, Outcome.ok_bind, bound, Outcome.ok_bind]
    rfl

/-- Nothing is written for a proof that accepts everything, and nothing is read. -/
theorem acceptAll_restores : acceptAll.Restores := fun _ => rfl

/-- The file of the sample garbling, through the writer, the verifier and the client. -/
theorem sampleCircuit_file_read_alike : ∃ gr file w, ∃ proof : acceptAll.Proof,
    doProve standard acceptAll (serializeStarkWitness standard gr (List.replicate cmBytes 0)) =
      .ok file ∧
    parseProofFile acceptAll file = .ok (proofHeader standard w, proof) ∧
    doVerify standard acceptAll file
      (some (serializePublicBinding standard gr (List.replicate cmBytes 0))) = .ok () ∧
    proofGc file = .ok w.gcHash.toList := by
  obtain ⟨gr, rng', -, spec⟩ := garbleCircuit_spec standard.sha256 (fixedKeyAes 0) 0
    sampleCircuit_wellFormed (Stream'.const 0)
  have sized : (List.replicate cmBytes (0 : UInt8)).length = cmBytes := List.length_replicate
  obtain ⟨rest, proved, -, small⟩ := doProve_starkWitness spec sized (by decide)
    (acceptAll_honest standard _)
  obtain ⟨written, placed⟩ := proof_file_read_alike standard acceptAll acceptAll_restores
  obtain ⟨w, proof, -, -, file, parsed, -, -, compared⟩ := written _ _ proved
  obtain ⟨-, verified⟩ := compared gr _ sized rfl
  obtain ⟨off, read⟩ := readHeader_of_parseProofFile parsed
  have headerSize : (proofHeader standard (starkWitness standard gr
      (List.replicate cmBytes 0))).bytes.length = 184 + cmBytes := by
    rw [Header.length_bytes]
    exact congrArg (184 + ·) sized
  have fits : ((proofHeader standard (starkWitness standard gr
      (List.replicate cmBytes 0))).bytes ++ rest).length < vectorLimit := by
    rw [List.length_append, headerSize, cmBytes, vectorLimit]
    omega
  obtain ⟨-, -, taken⟩ := placed _ _ off fits read
  exact ⟨gr, _, w, proof, proved, parsed, verified, taken⟩

end SimpleOprf.VoprfE2e
