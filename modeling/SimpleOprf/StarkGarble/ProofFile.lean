import SimpleOprf.StarkGarble.HashedTables
import SimpleOprf.VoprfSer

/-!
# Reading a proof file

`do_verify` reads the whole file before it checks anything. `parseProofFile` is
that reading and `HeaderAt` says where every header field lies, for the 64-bit
length in front whatever it is.

A parser that returns has read every byte that it names, so a file that is too
short panics before any check.
-/

namespace SimpleOprf.StarkGarble

open SimpleOprf.Basis SimpleOprf.GcMmo SimpleOprf.VoprfSer

/-- The header and the proof that `do_verify` takes from a file. -/
def parseProofFile (wf : Winterfell) (bytes : List UInt8) : Outcome (Header × wf.Proof) := do
  let (h, off) ← readHeader bytes 0
  let proof ← wf.readFrom (bytes.drop off)
  .ok (h, proof)

/-- The decision of the external verifier as the end of the process. -/
def Winterfell.verdict (wf : Winterfell) (proof : wf.Proof) (pub : PublicInputs) : Outcome Unit :=
  match wf.verify proof pub with
  | .ok () => .ok ()
  | .error e => .error (.exited ("verify: fail (" ++ e ++ ")"))

/-- Written proofs are read back. -/
def Winterfell.Restores (wf : Winterfell) : Prop :=
  ∀ proof, wf.readFrom (wf.writeInto proof) = .ok proof

/-- The verifier reads, compares with the public file, checks the binding and
asks the proof system, in that order. -/
theorem doVerify_eq_parse (p : Primitives) (wf : Winterfell) (bytes : List UInt8)
    (pubFile : Option (List UInt8)) :
    doVerify p wf bytes pubFile = (do
      let (h, proof) ← parseProofFile wf bytes
      match pubFile with
      | some pb => checkPublic h pb
      | none => .ok ()
      checkBinding p h
      wf.verdict proof h.pub) := by
  unfold doVerify parseProofFile
  cases readHeader bytes 0 with
  | error fault => rfl
  | ok pair =>
    obtain ⟨h, off⟩ := pair
    simp only [Outcome.ok_bind]
    cases wf.readFrom (bytes.drop off) with
    | error fault => rfl
    | ok proof => rfl

/-- A file that is parsed has a header. -/
theorem readHeader_of_parseProofFile {wf : Winterfell} {bytes : List UInt8} {h : Header}
    {proof : wf.Proof} (parsed : parseProofFile wf bytes = .ok (h, proof)) :
    ∃ off, readHeader bytes 0 = .ok (h, off) := by
  obtain ⟨⟨found, off⟩, read, rest⟩ := Outcome.bind_eq_ok.mp parsed
  obtain ⟨_, -, same⟩ := Outcome.bind_eq_ok.mp rest
  cases same
  exact ⟨off, read⟩

/-! ## Where the fields lie -/

/-- The length of the public inputs that a file announces. -/
def announced (bytes : List UInt8) : Nat := (ofLe64 (bytes.take 8)).toNat

/-- The fields of a header that was read from a file, and where it ends. -/
structure HeaderAt (bytes : List UInt8) (h : Header) (off : Nat) : Prop where
  ends : off = 8 + announced bytes + 128 + cmBytes
  inside : off ≤ bytes.length
  pub : pubFromBytes ((bytes.drop 8).take (announced bytes)) = .ok h.pub
  binding : h.binding = ofBytes 32 ((bytes.drop (8 + announced bytes)).take 32)
  gcHash : h.gcHash = ofBytes 32 ((bytes.drop (8 + announced bytes + 32)).take 32)
  rRoot : h.rRoot = ofBytes 32 ((bytes.drop (8 + announced bytes + 64)).take 32)
  outHash : h.outHash = ofBytes 32 ((bytes.drop (8 + announced bytes + 96)).take 32)
  cm : h.cm = (bytes.drop (8 + announced bytes + 128)).take cmBytes

/-- A header that is read lies where its length field says. -/
theorem headerAt_of_readHeader {bytes : List UInt8} {h : Header} {off : Nat}
    (read : readHeader bytes 0 = .ok (h, off)) : HeaderAt bytes h off := by
  unfold readHeader at read
  obtain ⟨pubLen, o1, lengthRead, read⟩ := Reader.bind_eq_ok.mp read
  obtain ⟨front, frontRead, rfl⟩ := Reader.map_eq_ok.mp lengthRead
  obtain ⟨-, rfl, rfl⟩ := Reader.bytes_eq_ok.mp frontRead
  obtain ⟨pubBytes, o2, pubRead, read⟩ := Reader.bind_eq_ok.mp read
  obtain ⟨-, rfl, rfl⟩ := Reader.bytes_eq_ok.mp pubRead
  obtain ⟨pub, o3, pubParsed, read⟩ := Reader.bind_eq_ok.mp read
  obtain ⟨parsed, rfl⟩ := Reader.computing_eq_ok.mp pubParsed
  obtain ⟨binding, o4, bindingRead, read⟩ := Reader.bind_eq_ok.mp read
  obtain ⟨-, rfl, rfl⟩ := Reader.array_eq_ok.mp bindingRead
  obtain ⟨gcHash, o5, gcRead, read⟩ := Reader.bind_eq_ok.mp read
  obtain ⟨-, rfl, rfl⟩ := Reader.array_eq_ok.mp gcRead
  obtain ⟨rRoot, o6, rootRead, read⟩ := Reader.bind_eq_ok.mp read
  obtain ⟨-, rfl, rfl⟩ := Reader.array_eq_ok.mp rootRead
  obtain ⟨outHash, o7, outRead, read⟩ := Reader.bind_eq_ok.mp read
  obtain ⟨-, rfl, rfl⟩ := Reader.array_eq_ok.mp outRead
  obtain ⟨cm, o8, cmRead, read⟩ := Reader.bind_eq_ok.mp read
  obtain ⟨inside, rfl, rfl⟩ := Reader.bytes_eq_ok.mp cmRead
  obtain ⟨rfl, rfl⟩ := Reader.pure_eq_ok.mp read
  simp only [Nat.zero_add, List.drop_zero] at parsed inside
  refine ⟨?_, inside, parsed, ?_, ?_, ?_, ?_, ?_⟩ <;>
    simp only [announced, Nat.zero_add, List.drop_zero, Nat.add_assoc, Nat.reduceAdd]

/-- The commitment that is read has its full length. -/
theorem HeaderAt.length_cm {bytes : List UInt8} {h : Header} {off : Nat}
    (placed : HeaderAt bytes h off) : h.cm.length = cmBytes := by
  have inside := placed.inside
  have ends := placed.ends
  rw [placed.cm, List.length_take, List.length_drop]
  omega

/-! ## What the prover wrote -/

/-- A written proof file reads back as the header and the proof it was written from. -/
theorem Proven.parseProofFile_eq {p : Primitives} {wf : Winterfell} {buf out : List UInt8}
    {w : Witness} (proven : Proven p wf buf out w) (restores : wf.Restores) :
    ∃ proof, wf.prove (traceTable p w) (publicInputs p w) = .ok proof ∧
      out = (proofHeader p w).bytes ++ wf.writeInto proof ∧
      parseProofFile wf out = .ok (proofHeader p w, proof) := by
  obtain ⟨proof, made, rfl⟩ := proven.written
  have front := reads_header (show (proofHeader p w).cm.length = cmBytes from proven.fits.cm) []
    (wf.writeInto proof)
  simp only [List.nil_append, List.length_nil, Nat.zero_add] at front
  refine ⟨proof, made, rfl, ?_⟩
  rw [parseProofFile, front, Outcome.ok_bind]
  simp only [List.drop_left]
  rw [restores proof, Outcome.ok_bind]

/-- The comparison passes for a file of the header's own fields. -/
theorem checkPublic_fields {h : Header} (sized : h.cm.length = cmBytes) :
    checkPublic h (h.gcHash.toList ++ (h.rRoot.toList ++ (h.outHash.toList ++ h.cm))) =
      .ok () := by
  have gcSize : h.gcHash.toList.length = 32 := Vector.length_toList
  have rootSize : h.rRoot.toList.length = 32 := Vector.length_toList
  have outSize : h.outHash.toList.length = 32 := Vector.length_toList
  have gcRead := @slice_field _ sliceFault [] h.gcHash.toList
    (h.rRoot.toList ++ (h.outHash.toList ++ h.cm)) 0 32 rfl gcSize
  have rootRead := @slice_field _ sliceFault h.gcHash.toList h.rRoot.toList
    (h.outHash.toList ++ h.cm) 32 32 gcSize rootSize
  have outRead := @slice_field _ sliceFault (h.gcHash.toList ++ h.rRoot.toList) h.outHash.toList
    h.cm 64 32 (by rw [List.length_append, gcSize, rootSize]) outSize
  have cmRead := @slice_field _ sliceFault
    (h.gcHash.toList ++ (h.rRoot.toList ++ h.outHash.toList)) h.cm [] 96 cmBytes
    (by rw [List.length_append, List.length_append, gcSize, rootSize, outSize]) sized
  simp only [List.append_assoc, List.nil_append, List.append_nil] at gcRead rootRead outRead cmRead
  rw [checkPublic, gcRead, Outcome.ok_bind, rootRead, Outcome.ok_bind, outRead, Outcome.ok_bind,
    cmRead, Outcome.ok_bind, if_pos ⟨rfl, rfl, rfl, rfl⟩]

/-- The public fields of a witness that is read from a serialised garbling are
the garbling's, however many gates it has. -/
theorem parseWitness_public {p : Primitives} {gr : GarbleResult} {cm : List UInt8} {w : Witness}
    (sized : cm.length = cmBytes) (parsed : parseWitness (serializeStarkWitness p gr cm) = .ok w) :
    w.gcHash = gr.gcHash ∧ w.rRoot = gr.rRoot ∧ w.outHash = p.sha256 gr.outDecode ∧ w.cm = cm := by
  obtain ⟨final, ran⟩ := Reader.run_of_parse parsed
  have shape : serializeStarkWitness p gr cm = [] ++ (le64 (UInt64.ofNat gr.andWit.length) ++
      (cm ++ (gr.gcHash.toList ++ (gr.rRoot.toList ++ ((p.sha256 gr.outDecode).toList ++
        (gr.delta.bytes ++ gr.andWit.flatMap fun w =>
          w.a0.bytes ++ w.b0.bytes ++ w.tg.bytes ++ w.te.bytes ++
            w.ha0.bytes ++ w.ha1.bytes ++ w.hb0.bytes ++ w.hb1.bytes ++ [w.pa, w.pb])))))) := by
    simp only [serializeStarkWitness, List.append_assoc, List.nil_append]
  rw [shape, ← List.length_nil (α := UInt8)] at ran
  unfold readWitness at ran
  -- The fields before the gates have fixed sizes, so each read finds the field written.
  have atCm := (Reader.reads_word sliceFault _).of_bind ran
  have atGcHash := (Reader.reads_bytes sliceFault sized).of_bind atCm
  have atRRoot := (Reader.reads_array sliceFault gr.gcHash).of_bind atGcHash
  have atOutHash := (Reader.reads_array sliceFault gr.rRoot).of_bind atRRoot
  have atDelta := (Reader.reads_array sliceFault (p.sha256 gr.outDecode)).of_bind atOutHash
  obtain ⟨delta, _, -, ran⟩ := Reader.bind_eq_ok.mp atDelta
  obtain ⟨_, _, -, ran⟩ := Reader.bind_eq_ok.mp ran
  obtain ⟨gates, _, -, ran⟩ := Reader.bind_eq_ok.mp ran
  obtain ⟨rfl, -⟩ := Reader.pure_eq_ok.mp ran
  exact ⟨rfl, rfl, rfl, rfl⟩

end SimpleOprf.StarkGarble
