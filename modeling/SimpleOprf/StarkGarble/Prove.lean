import Mathlib.Data.Nat.Log
import SimpleOprf.StarkGarble.Air

/-!
# The prover and the verifier programs

`do_prove` and `do_verify` around the external proof system, which is a
parameter: it turns a trace into a proof and decides proofs.

The order of checks is that of the source: the witness is checked before a
trace is built, and the binding before a proof is verified. A panic and an exit
are different faults.
-/

namespace SimpleOprf.StarkGarble

open SimpleOprf.Basis SimpleOprf.GcMmo

/-- The proof system behind `prove`, `verify` and the proof encoding. -/
structure Winterfell where
  Proof : Type
  prove : TraceTable → PublicInputs → Outcome Proof
  writeInto : Proof → List UInt8
  readFrom : List UInt8 → Outcome Proof
  verify : Proof → PublicInputs → Except String Unit

/-- The pair accepts the proof of this trace, read back from its bytes, which
leave room for the header in a vector. -/
def Winterfell.Accepts (wf : Winterfell) (trace : TraceTable) (pub : PublicInputs) : Prop :=
  ∃ proof, wf.prove trace pub = .ok proof ∧ wf.readFrom (wf.writeInto proof) = .ok proof ∧
    wf.verify proof pub = .ok () ∧ (wf.writeInto proof).length < 2 ^ 62

/-- A proof is accepted only when some trace satisfies the constraints. -/
def Winterfell.Sound (wf : Winterfell) : Prop :=
  ∀ proof pub, wf.verify proof pub = .ok () → ∃ trace, Satisfies pub trace

/-! ## The trace -/

/-- `n.next_power_of_two().max(8)`. -/
def nextPow2 (n : Nat) : Nat := max (2 ^ Nat.clog 2 n) 8

/-- `next_pow2` gives a power of two. -/
theorem nextPow2_pow (n : Nat) : ∃ k, nextPow2 n = 2 ^ k := by
  unfold nextPow2
  rcases Nat.le_total (2 ^ Nat.clog 2 n) 8 with small | large
  · exact ⟨3, Nat.max_eq_right small⟩
  · exact ⟨_, Nat.max_eq_left large⟩

/-- It is no smaller than its argument. -/
theorem le_nextPow2 (n : Nat) : n ≤ nextPow2 n :=
  le_trans (Nat.le_pow_clog (by omega) n) (Nat.le_max_left _ _)

/-- One row of `build_trace`. Rows beyond the gates repeat the last bit of the last
gate. -/
def traceRow (w : Witness) (bind : Vector E 4) (row : Nat) : Row :=
  let nAnd := w.nAnd.toNat
  let (gateId, bit) := if row < nAnd * 128 then (row / 128, row % 128) else (nAnd - 1, 127)
  let g := w.gates.getD (min gateId (nAnd - 1)) default
  let dbit := getBit w.delta bit
  let pbd := g.pb &&& dbit
  #v[
    ofByte g.pa,
    ofByte g.pb,
    ofByte (getBit g.ha0 bit),
    ofByte (getBit g.ha1 bit),
    ofByte dbit,
    ofByte (getBit g.tg bit),
    ofByte pbd,
    ofByte (getBit g.hb0 bit),
    ofByte (getBit g.hb1 bit),
    ofByte (getBit g.a0 bit),
    ofByte (getBit g.te bit),
    0,
    (gateId : E),
    (bit : E),
    bindLimb bind row,
    0,
    0,
    0]

/-- The public inputs that the prover computes. -/
def publicInputs (p : Primitives) (w : Witness) : PublicInputs where
  bind := bindingToField (bindingHash p w)
  nAnd := w.nAnd
  nBits := w.nAnd * 128

/-- The table that `build_trace` fills. -/
def traceTable (p : Primitives) (w : Witness) : TraceTable where
  rows := (List.range (nextPow2 (max (w.nAnd.toNat * 128) 4))).map
    (traceRow w (bindingToField (bindingHash p w)))
  long := by
    rw [List.length_map, List.length_range]
    exact Nat.le_max_right _ _
  pow := by
    rw [List.length_map, List.length_range]
    exact nextPow2_pow _

/-- Build the trace; without a gate the padding rows index past the end. -/
def buildTrace (p : Primitives) (w : Witness) : Outcome (TraceTable × PublicInputs) :=
  if w.nAnd = 0 ∨ w.gates.length < w.nAnd.toNat then
    .error (.panicked "index out of bounds")
  else
    .ok (traceTable p w, publicInputs p w)

/-- Honest proofs about `gates` gates are accepted. -/
def Winterfell.AcceptsHonest (wf : Winterfell) (p : Primitives) (gates : Nat) : Prop :=
  ∀ w : Witness, w.Fits → w.nAnd.toNat = gates → checkHalfGates w = .ok () →
    wf.Accepts (traceTable p w) (publicInputs p w)

/-! ## The proof file -/

/-- `pub_to_bytes`. -/
def pubToBytes (pub : PublicInputs) : List UInt8 :=
  le64 pub.nAnd ++ le64 pub.nBits ++ pub.bind.toList.flatMap fun b => le64 (UInt64.ofNat b.val)

/-- The fields of the public inputs, in order. -/
def readPub : Reader PublicInputs := do
  let nAnd ← readU64Le
  let nBits ← readU64Le
  let b0 ← readU64Le
  let b1 ← readU64Le
  let b2 ← readU64Le
  let b3 ← readU64Le
  return { bind := #v[(b0.toNat : E), (b1.toNat : E), (b2.toNat : E), (b3.toNat : E)], nAnd, nBits }

/-- `pub_from_bytes`. -/
def pubFromBytes (buf : List UInt8) : Outcome PublicInputs := readPub.parse buf

/-- The part of a proof file before the proof. -/
structure Header where
  pub : PublicInputs
  binding : Digest
  gcHash : Digest
  rRoot : Digest
  outHash : Digest
  cm : List UInt8

/-- What the prover writes in front of the proof. -/
def Header.bytes (h : Header) : List UInt8 :=
  le64 (UInt64.ofNat (pubToBytes h.pub).length) ++ (pubToBytes h.pub ++ (h.binding.toList ++
    (h.gcHash.toList ++ (h.rRoot.toList ++ (h.outHash.toList ++ h.cm)))))

/-- What the verifier reads in front of the proof. -/
def readHeader : Reader Header := do
  let pubLen ← readU64Le
  let pubBytes ← Reader.bytes sliceFault pubLen.toNat
  let pub ← Reader.computing (pubFromBytes pubBytes)
  let binding ← Reader.array sliceFault 32
  let gcHash ← Reader.array sliceFault 32
  let rRoot ← Reader.array sliceFault 32
  let outHash ← Reader.array sliceFault 32
  let cm ← Reader.bytes sliceFault cmBytes
  return { pub, binding, gcHash, rRoot, outHash, cm }

/-- The digest that the verifier recomputes from a header. -/
def Header.digest (p : Primitives) (h : Header) : Digest :=
  p.sha256 (bindingInput h.cm h.gcHash h.rRoot h.outHash h.pub.nAnd)

/-- The header that the prover writes for a witness. -/
def proofHeader (p : Primitives) (w : Witness) : Header where
  pub := publicInputs p w
  binding := bindingHash p w
  gcHash := w.gcHash
  rRoot := w.rRoot
  outHash := w.outHash
  cm := w.cm

/-- `do_prove`: checks the witness, builds the trace and writes the file. -/
def doProve (p : Primitives) (wf : Winterfell) (buf : List UInt8) : Outcome (List UInt8) := do
  let w ← parseWitness buf
  match checkHalfGates w with
  | .error e => .error (.panicked ("half-gate witness invalid: " ++ e))
  | .ok () =>
    if w.cm.length ≠ cmBytes then
      .error (.panicked "assertion `left == right` failed")
    else
      let (trace, pub) ← buildTrace p w
      let proof ← wf.prove trace pub
      .ok ((proofHeader p w).bytes ++ wf.writeInto proof)

/-- The comparison with a public file, made only when one is given. -/
def checkPublic (h : Header) (pb : List UInt8) : Outcome Unit := do
  let gcHash ← slice sliceFault pb 0 32
  let rRoot ← slice sliceFault pb 32 32
  let outHash ← slice sliceFault pb 64 32
  let cm ← slice sliceFault pb 96 cmBytes
  if gcHash = h.gcHash.toList ∧ rRoot = h.rRoot.toList ∧ outHash = h.outHash.toList ∧ cm = h.cm then
    .ok ()
  else
    .error (.panicked "assertion `left == right` failed")

/-- The two binding checks of the verifier. -/
def checkBinding (p : Primitives) (h : Header) : Outcome Unit :=
  if h.digest p ≠ h.binding then
    .error (.exited "verify: fail (binding hash mismatch — possible GC/public tamper)")
  else if bindingToField (h.digest p) ≠ h.pub.bind then
    .error (.exited "verify: fail (field binding mismatch)")
  else
    .ok ()

/-- Success stands for `verify: ok` and exit code zero. -/
def doVerify (p : Primitives) (wf : Winterfell) (bytes : List UInt8)
    (pubFile : Option (List UInt8)) : Outcome Unit := do
  let (h, off) ← readHeader bytes 0
  let proof ← wf.readFrom (bytes.drop off)
  match pubFile with
  | some pb => checkPublic h pb
  | none => .ok ()
  checkBinding p h
  match wf.verify proof h.pub with
  | .ok () => .ok ()
  | .error e => .error (.exited ("verify: fail (" ++ e ++ ")"))

/-! ## Reading the file back -/

theorem length_pubToBytes (pub : PublicInputs) : (pubToBytes pub).length = 48 := by
  simp [pubToBytes, List.length_flatMap]

theorem Header.length_bytes (h : Header) : h.bytes.length = 184 + h.cm.length := by
  simp only [Header.bytes, List.length_append, length_le64, length_pubToBytes,
    Vector.length_toList]
  omega

/-- A limb is read back. -/
private theorem reads_limb (x : E) : readU64Le.Reads (le64 (UInt64.ofNat x.val))
    (UInt64.ofNat x.val) :=
  Reader.reads_word _ _

/-- A field element is known from its limb. -/
private theorem limb_restored (x : E) : ((UInt64.ofNat x.val).toNat : E) = x := by
  have small : x.val < 2 ^ 64 := lt_trans (ZMod.val_lt x) (by norm_num)
  rw [UInt64.toNat_ofNat_of_lt' small, ZMod.natCast_zmod_val]

/-- A binding has four limbs. -/
private theorem exists_limbs (bind : Vector E 4) :
    ∃ b0 b1 b2 b3, bind = #v[b0, b1, b2, b3] := by
  refine ⟨bind[0], bind[1], bind[2], bind[3], ?_⟩
  ext i inside
  have index : i = 0 ∨ i = 1 ∨ i = 2 ∨ i = 3 := by omega
  rcases index with rfl | rfl | rfl | rfl <;> rfl

/-- The public inputs are read back. -/
theorem reads_pub (pub : PublicInputs) : readPub.Reads (pubToBytes pub) pub := by
  obtain ⟨bind, nAnd, nBits⟩ := pub
  obtain ⟨b0, b1, b2, b3, rfl⟩ := exists_limbs bind
  have shape : pubToBytes ⟨#v[b0, b1, b2, b3], nAnd, nBits⟩ = le64 nAnd ++ (le64 nBits ++
      (le64 (UInt64.ofNat b0.val) ++ (le64 (UInt64.ofNat b1.val) ++
        (le64 (UInt64.ofNat b2.val) ++ (le64 (UInt64.ofNat b3.val) ++ []))))) := by
    simp [pubToBytes]
  have limbs : #v[((UInt64.ofNat b0.val).toNat : E), ((UInt64.ofNat b1.val).toNat : E),
      ((UInt64.ofNat b2.val).toNat : E), ((UInt64.ofNat b3.val).toNat : E)] =
      #v[b0, b1, b2, b3] := by
    simp only [limb_restored]
  rw [shape]
  refine (Reader.reads_word _ _).bind ((Reader.reads_word _ _).bind ((reads_limb _).bind
    ((reads_limb _).bind ((reads_limb _).bind ((reads_limb _).bind ?_)))))
  rw [limbs]
  exact Reader.Reads.pure _

/-- Reading a header consumes exactly the bytes the prover wrote. -/
theorem reads_header {h : Header} (sized : h.cm.length = cmBytes) :
    readHeader.Reads h.bytes h := by
  have pubSize : (UInt64.ofNat (pubToBytes h.pub).length).toNat = (pubToBytes h.pub).length := by
    rw [length_pubToBytes]
    rfl
  have pubRead : pubFromBytes (pubToBytes h.pub) = .ok h.pub := (reads_pub h.pub).parse_eq
  unfold readHeader Header.bytes
  refine (Reader.reads_word _ _).bind ?_
  rw [pubSize]
  refine (Reader.reads_bytes _ rfl).bind ?_
  rw [← List.nil_append (h.binding.toList ++ _)]
  refine (Reader.Reads.computing pubRead).bind ((Reader.reads_array _ _).bind
    ((Reader.reads_array _ _).bind ((Reader.reads_array _ _).bind
      ((Reader.reads_array _ _).bind ?_))))
  rw [← List.append_nil h.cm]
  exact (Reader.reads_bytes _ sized).bind (Reader.Reads.pure h)

/-- A file whose header passes the binding checks is accepted when its proof is. -/
theorem doVerify_eq_ok {p : Primitives} {wf : Winterfell} {h : Header} {rest : List UInt8}
    (sized : h.cm.length = cmBytes) :
    doVerify p wf (h.bytes ++ rest) none = .ok () ↔
      ∃ proof, wf.readFrom rest = .ok proof ∧ checkBinding p h = .ok () ∧
        wf.verify proof h.pub = .ok () := by
  have front := reads_header sized [] rest
  simp only [List.nil_append, List.length_nil, Nat.zero_add] at front
  unfold doVerify
  rw [front]
  simp only [Outcome.ok_bind, List.drop_left]
  simp only [Outcome.bind_eq_ok]
  constructor
  · rintro ⟨proof, parsed, ⟨⟩, bound, accepted⟩
    refine ⟨proof, parsed, bound, ?_⟩
    revert accepted
    cases wf.verify proof h.pub with
    | error e => simp
    | ok value => simp
  · rintro ⟨proof, parsed, bound, accepted⟩
    refine ⟨proof, parsed, (), bound, ?_⟩
    rw [accepted]

/-- What the binding checks ask of a header. -/
theorem checkBinding_eq_ok {p : Primitives} {h : Header} :
    checkBinding p h = .ok () ↔ h.digest p = h.binding ∧ bindingToField h.binding = h.pub.bind := by
  unfold checkBinding
  by_cases first : h.digest p = h.binding
  · by_cases second : bindingToField h.binding = h.pub.bind <;> simp [first, second]
  · simp [first]

end SimpleOprf.StarkGarble
