import SimpleOprf.StarkGarble.ProofFile

/-!
# What the binding checks fix

Two headers that pass the binding checks with the same public inputs have the
same fields, or show two messages whose digests agree on the bits that
`bindingToField` keeps.

Those are 248 of the 256 bits, since each of the four limbs loses its two
highest.
-/

namespace SimpleOprf.StarkGarble

open SimpleOprf.Basis SimpleOprf.GcMmo

/-! ## The bits that reach the field -/

/-- What byte `i` of a digest keeps when its limb becomes a field element. -/
def keptMask (i : Nat) : UInt8 := if i % 8 = 7 then 0x3f else 0xff

/-- The digests have the same kept bits. -/
def AgreeOnKept (d d' : Digest) : Prop :=
  ∀ i : Fin 32, d[i] &&& keptMask i = d'[i] &&& keptMask i

example : ((List.range 256).countP fun bit => (keptMask (bit / 8)).toNat.testBit (bit % 8)) = 248 := by
  decide +kernel

/-- The bytes of limb `i` with its two highest bits cleared. -/
def maskedLimb (d : Digest) (i : Nat) : List UInt8 :=
  (List.range 8).map fun k => d.toList.getD (8 * i + k) 0 &&& keptMask (8 * i + k)

/-- A limb is eight masked bytes of the hash. -/
theorem bindingLimb_eq (d : Digest) {i : Nat} (inside : i < 4) :
    bindingLimb d i = ofLe (maskedLimb d i) := by
  have limbSize : ((d.toList.drop (8 * i)).take 8).length = 8 := by
    rw [List.length_take, List.length_drop, Vector.length_toList]
    omega
  have entry : ∀ k, k < 8 → ((d.toList.drop (8 * i)).take 8).getD k 0 = d.toList.getD (8 * i + k) 0 := by
    intro k bounded
    rw [List.getD_eq_getElem?_getD, List.getElem?_take_of_lt bounded, List.getElem?_drop,
      List.getD_eq_getElem?_getD]
  refine congrArg ofLe (List.ext_getElem ?_ fun k bounded _ => ?_)
  · rw [List.length_set, limbSize, maskedLimb, List.length_map, List.length_range]
  · rw [List.length_set, limbSize] at bounded
    simp only [maskedLimb, List.getElem_map, List.getElem_range, List.getElem_set]
    by_cases last : 7 = k
    · subst last
      rw [if_pos rfl, entry 7 (by omega), keptMask, if_pos (by omega)]
    · have here := List.getD_eq_getElem ((d.toList.drop (8 * i)).take 8) 0 (limbSize.symm ▸ bounded)
      rw [if_neg last, keptMask, if_neg (by omega), ← entry k bounded]
      exact here.symm.trans UInt8.and_neg_one.symm

/-- A masked limb is below 2^62. -/
theorem ofLe_maskedLimb_lt (d : Digest) (i : Nat) : ofLe (maskedLimb d i) < 2 ^ 62 := by
  have top : (d.toList.getD (8 * i + 7) 0 &&& keptMask (8 * i + 7)).toNat ≤ 63 := by
    rw [keptMask, if_pos (by omega), UInt8.toNat_and]
    exact Nat.and_le_right
  unfold maskedLimb
  rw [List.range_succ, List.map_append, ofLe_append]
  have low := ofLe_lt ((List.range 7).map fun k =>
    d.toList.getD (8 * i + k) 0 &&& keptMask (8 * i + k))
  simp only [List.length_map, List.length_range, List.map_cons, List.map_nil, ofLe] at low ⊢
  omega

/-- Equal field elements come from digests with the same kept bits. -/
theorem agreeOnKept_of_field {d d' : Digest} (same : bindingToField d = bindingToField d') :
    AgreeOnKept d d' := by
  intro i
  have bounded := i.isLt
  have inside : i.val / 8 < 4 := by omega
  have limbs : ((bindingLimb d (i.val / 8) : Nat) : E) = (bindingLimb d' (i.val / 8) : Nat) := by
    have entries := congrArg (fun v : Vector E 4 => v[i.val / 8]) same
    simpa only [bindingToField, Vector.getElem_ofFn] using entries
  rw [bindingLimb_eq d inside, bindingLimb_eq d' inside, ZMod.natCast_eq_natCast_iff',
    Nat.mod_eq_of_lt (lt_trans (ofLe_maskedLimb_lt d _) (by norm_num)),
    Nat.mod_eq_of_lt (lt_trans (ofLe_maskedLimb_lt d' _) (by norm_num))] at limbs
  have bytes := ofLe_inj (by simp only [maskedLimb, List.length_map]) limbs
  have entry := congrArg (fun limb => limb[i.val % 8]?) bytes
  have position : 8 * (i.val / 8) + i.val % 8 = i.val := by omega
  have digestByte : ∀ e : Digest, e.toList.getD i.val 0 = e[i] := fun e => by
    rw [List.getD_eq_getElem _ _ (by rw [Vector.length_toList]; exact bounded), Vector.getElem_toList]
    rfl
  simp only [maskedLimb, List.getElem?_map, List.getElem?_range (show i.val % 8 < 8 by omega),
    Option.map_some, Option.some.injEq, position, digestByte] at entry
  exact entry

/-! ## The message of a header -/

/-- The bytes whose digest the verifier recomputes. -/
def Header.message (h : Header) : List UInt8 :=
  bindingInput h.cm h.gcHash h.rRoot h.outHash h.pub.nAnd

/-- Two different messages whose digests give the same field elements. -/
structure KeptCollision (p : Primitives) (m m' : List UInt8) : Prop where
  size : m.length = 2184
  size' : m'.length = 2184
  different : m ≠ m'
  agree : AgreeOnKept (p.sha256 m) (p.sha256 m')

theorem length_bindingInput {cm : List UInt8} (sized : cm.length = cmBytes)
    (gcHash rRoot outHash : Digest) (nAnd : UInt64) :
    (bindingInput cm gcHash rRoot outHash nAnd).length = 2184 := by
  simp only [bindingInput, List.length_append, Vector.length_toList, length_le64, sized, cmBytes]

/-- The concatenation keeps its parts apart. -/
theorem bindingInput_inj {cm cm' : List UInt8} (sized : cm.length = cmBytes)
    (sized' : cm'.length = cmBytes) {gcHash gcHash' rRoot rRoot' outHash outHash' : Digest}
    {nAnd nAnd' : UInt64} (same : bindingInput cm gcHash rRoot outHash nAnd =
      bindingInput cm' gcHash' rRoot' outHash' nAnd') :
    cm = cm' ∧ gcHash = gcHash' ∧ rRoot = rRoot' ∧ outHash = outHash' := by
  have hashes : ∀ d d' : Digest, d.toList.length = d'.toList.length := fun d d' => by
    rw [Vector.length_toList, Vector.length_toList]
  simp only [bindingInput, List.append_assoc] at same
  obtain ⟨cms, same⟩ := List.append_inj same (by rw [sized, sized'])
  obtain ⟨gcs, same⟩ := List.append_inj same (hashes _ _)
  obtain ⟨roots, same⟩ := List.append_inj same (hashes _ _)
  obtain ⟨outs, -⟩ := List.append_inj same (hashes _ _)
  exact ⟨cms, Vector.toList_inj.mp gcs, Vector.toList_inj.mp roots, Vector.toList_inj.mp outs⟩

/-- The fields of a header that the public inputs do not give. -/
structure SameFields (h h' : Header) : Prop where
  binding : h.binding = h'.binding
  cm : h.cm = h'.cm
  gcHash : h.gcHash = h'.gcHash
  rRoot : h.rRoot = h'.rRoot
  outHash : h.outHash = h'.outHash

/-- Headers that pass both checks with the same field binding have the same
fields unless their messages collide. -/
theorem checkBinding_fields {p : Primitives} {h h' : Header} (sized : h.cm.length = cmBytes)
    (sized' : h'.cm.length = cmBytes) (bound : checkBinding p h = .ok ())
    (bound' : checkBinding p h' = .ok ()) (bind : h.pub.bind = h'.pub.bind) :
    SameFields h h' ∨ KeptCollision p h.message h'.message := by
  obtain ⟨digest, field⟩ := checkBinding_eq_ok.mp bound
  obtain ⟨digest', field'⟩ := checkBinding_eq_ok.mp bound'
  by_cases same : h.message = h'.message
  · obtain ⟨cm, gcHash, rRoot, outHash⟩ := bindingInput_inj sized sized' same
    refine .inl ⟨?_, cm, gcHash, rRoot, outHash⟩
    rw [← digest, ← digest']
    exact congrArg p.sha256 same
  · refine .inr ⟨length_bindingInput sized _ _ _ _, length_bindingInput sized' _ _ _ _, same, ?_⟩
    apply agreeOnKept_of_field
    change bindingToField (h.digest p) = bindingToField (h'.digest p)
    rw [digest, digest', field, field', bind]

/-! ## Files -/

/-- The files agree in front of the header fields and behind them. -/
structure SameAround (file file' : List UInt8) : Prop where
  pub : file.take (8 + announced file) = file'.take (8 + announced file)
  proof : file.drop (8 + announced file + 128 + cmBytes) =
    file'.drop (8 + announced file + 128 + cmBytes)

/-- Strings that agree on a slice and behind it agree from its start on. -/
private theorem drop_eq_of_slice {xs ys : List UInt8} {start count : Nat}
    (slice : (xs.drop start).take count = (ys.drop start).take count)
    (behind : xs.drop (start + count) = ys.drop (start + count)) : xs.drop start = ys.drop start := by
  rw [← List.take_append_drop count (xs.drop start), ← List.take_append_drop count (ys.drop start),
    List.drop_drop, List.drop_drop, slice, behind]

/-- Arrays read from two files are equal only when their bytes are. -/
private theorem slice_of_ofBytes {xs ys : List UInt8} {start : Nat} (inside : start + 32 ≤ xs.length)
    (inside' : start + 32 ≤ ys.length)
    (same : ofBytes 32 ((xs.drop start).take 32) = ofBytes 32 ((ys.drop start).take 32)) :
    (xs.drop start).take 32 = (ys.drop start).take 32 := by
  have lists := congrArg Vector.toList same
  rwa [toList_ofBytes (by rw [List.length_take, List.length_drop]; omega),
    toList_ofBytes (by rw [List.length_take, List.length_drop]; omega)] at lists

/-- Files that agree around the hash announce the same length. -/
theorem SameAround.announced_eq {file file' : List UInt8} (around : SameAround file file') :
    announced file' = announced file := by
  have shorter := congrArg (List.take 8) around.pub
  rw [List.take_take, List.take_take, Nat.min_eq_left (by omega)] at shorter
  rw [announced, announced, shorter]

/-- Their public inputs are parsed alike. -/
theorem SameAround.pub_eq {file file' : List UInt8} {h h' : Header} {off off' : Nat}
    (around : SameAround file file') (placed : HeaderAt file h off)
    (placed' : HeaderAt file' h' off') : h.pub = h'.pub := by
  have inner := congrArg (List.drop 8) around.pub
  rw [List.drop_take, List.drop_take, Nat.add_sub_cancel_left] at inner
  have parsed := placed'.pub
  rw [around.announced_eq, ← inner, placed.pub] at parsed
  exact Except.ok.inj parsed

/-- Files with the same surroundings and the same header fields are the same. -/
theorem SameAround.eq_of_fields {file file' : List UInt8} {h h' : Header} {off off' : Nat}
    (around : SameAround file file') (placed : HeaderAt file h off)
    (placed' : HeaderAt file' h' off') (fields : SameFields h h') : file = file' := by
  have ends := placed.ends
  have inside := placed.inside
  have ends' := placed'.ends
  have inside' := placed'.inside
  have same := around.announced_eq
  have outside : file.drop (8 + announced file) = file'.drop (8 + announced file) := by
    have cm := fields.cm
    have binding := fields.binding
    have gcHash := fields.gcHash
    have rRoot := fields.rRoot
    have outHash := fields.outHash
    rw [placed.cm, placed'.cm, same] at cm
    rw [placed.binding, placed'.binding, same] at binding
    rw [placed.gcHash, placed'.gcHash, same] at gcHash
    rw [placed.rRoot, placed'.rRoot, same] at rRoot
    rw [placed.outHash, placed'.outHash, same] at outHash
    refine drop_eq_of_slice (slice_of_ofBytes (by omega) (by omega) binding)
      (drop_eq_of_slice (slice_of_ofBytes (by omega) (by omega) gcHash)
        (drop_eq_of_slice (slice_of_ofBytes (by omega) (by omega) rRoot)
          (drop_eq_of_slice (slice_of_ofBytes (by omega) (by omega) outHash)
            (drop_eq_of_slice cm around.proof))))
  rw [← List.take_append_drop (8 + announced file) file, around.pub, outside,
    List.take_append_drop]

/-- What an accepted file has passed. -/
theorem header_of_doVerify {p : Primitives} {wf : Winterfell} {file : List UInt8}
    {pubFile : Option (List UInt8)} (accepted : doVerify p wf file pubFile = .ok ()) :
    ∃ h off, readHeader file 0 = .ok (h, off) ∧ checkBinding p h = .ok () := by
  rw [doVerify_eq_parse] at accepted
  obtain ⟨⟨h, proof⟩, parsed, rest⟩ := Outcome.bind_eq_ok.mp accepted
  obtain ⟨off, read⟩ := readHeader_of_parseProofFile parsed
  refine ⟨h, off, read, ?_⟩
  cases pubFile with
  | none =>
    obtain ⟨_, -, rest⟩ := Outcome.bind_eq_ok.mp rest
    obtain ⟨⟨⟩, bound, -⟩ := Outcome.bind_eq_ok.mp rest
    exact bound
  | some pb =>
    obtain ⟨_, -, rest⟩ := Outcome.bind_eq_ok.mp rest
    obtain ⟨⟨⟩, bound, -⟩ := Outcome.bind_eq_ok.mp rest
    exact bound

/-- Two headers that pass the checks with the same public inputs have the same
fields or show a collision; so does an accepted file and any other file that is
accepted with only its header bytes changed. -/
theorem header_tamper_shows_collision (p : Primitives) :
    (∀ file file' h h' off off', readHeader file 0 = .ok (h, off) →
      readHeader file' 0 = .ok (h', off') → checkBinding p h = .ok () →
      checkBinding p h' = .ok () → h.pub.bind = h'.pub.bind → h.pub.nAnd = h'.pub.nAnd →
      SameFields h h' ∨ KeptCollision p h.message h'.message) ∧
    ∀ wf file file' pubFile pubFile', doVerify p wf file pubFile = .ok () →
      SameAround file file' → file ≠ file' → doVerify p wf file' pubFile' = .ok () →
      ∃ h h' off off', readHeader file 0 = .ok (h, off) ∧ readHeader file' 0 = .ok (h', off') ∧
        KeptCollision p h.message h'.message := by
  refine ⟨fun file file' h h' off off' read read' bound bound' bind _ => ?_,
    fun wf file file' pubFile pubFile' accepted around different accepted' => ?_⟩
  · exact checkBinding_fields (headerAt_of_readHeader read).length_cm
      (headerAt_of_readHeader read').length_cm bound bound' bind
  · obtain ⟨h, off, read, bound⟩ := header_of_doVerify accepted
    obtain ⟨h', off', read', bound'⟩ := header_of_doVerify accepted'
    have placed := headerAt_of_readHeader read
    have placed' := headerAt_of_readHeader read'
    have bind : h.pub.bind = h'.pub.bind := by rw [around.pub_eq placed placed']
    rcases checkBinding_fields placed.length_cm placed'.length_cm bound bound' bind with
      fields | collision
    · exact absurd (around.eq_of_fields placed placed' fields) different
    · exact ⟨h, h', off, off', read, read', collision⟩

/-! ## A collision -/

/-- A written header announces 48 bytes. -/
theorem Header.announced_bytes (h : Header) : announced h.bytes = 48 := by
  rw [announced, Header.bytes, List.take_left' (length_le64 _), ofLe64_le64, length_pubToBytes]
  rfl

/-- The public inputs end at byte 56. -/
theorem Header.take_bytes (h : Header) :
    h.bytes.take 56 = le64 (UInt64.ofNat (pubToBytes h.pub).length) ++ pubToBytes h.pub := by
  rw [Header.bytes, ← List.append_assoc]
  exact List.take_left' (by rw [List.length_append, length_le64, length_pubToBytes])

/-- A hash function with one value only, under which all headers collide. -/
def constantHash : Primitives := ⟨fun _ => Vector.replicate 32 0, fixedKeyAes⟩

/-- A header with the given table hash that passes its checks. -/
def boundHeader (gcHash : Digest) : Header :=
  Header.rehash constantHash ⟨⟨Vector.replicate 4 0, 1, 128⟩, Vector.replicate 32 0,
    Vector.replicate 32 0, Vector.replicate 32 0, Vector.replicate 32 0,
    List.replicate cmBytes 0⟩ gcHash

/-- Two files with different hashes that both pass, and their collision. -/
theorem constantHash_shows_collision :
    ∃ h h' off off', readHeader (boundHeader (Vector.replicate 32 0)).bytes 0 = .ok (h, off) ∧
      readHeader (boundHeader (Vector.replicate 32 1)).bytes 0 = .ok (h', off') ∧
      KeptCollision constantHash h.message h'.message := by
  have sized : ∀ gcHash, (boundHeader gcHash).cm.length = cmBytes := fun _ => List.length_replicate
  have accepted : ∀ gcHash, doVerify constantHash acceptAll (boundHeader gcHash).bytes none =
      .ok () := by
    intro gcHash
    rw [← List.append_nil (Header.bytes _)]
    exact (doVerify_eq_ok (sized gcHash)).mpr ⟨(), rfl, checkBinding_rehash _ _ _, rfl⟩
  have read : ∀ gcHash, readHeader.parse (boundHeader gcHash).bytes = .ok (boundHeader gcHash) :=
    fun gcHash => (reads_header (sized gcHash)).parse_eq
  have length : ∀ gcHash, (boundHeader gcHash).bytes.length = 8 + 48 + 128 + cmBytes := by
    intro gcHash
    rw [Header.length_bytes, sized]
  refine (header_tamper_shows_collision constantHash).2 acceptAll _ _ none none (accepted _)
    ⟨?_, ?_⟩ (fun same => ?_) (accepted _)
  · rw [Header.announced_bytes, Header.take_bytes, Header.take_bytes]
    rfl
  · rw [Header.announced_bytes, List.drop_eq_nil_of_le (length _).le,
      List.drop_eq_nil_of_le (length _).le]
  · have headers := (read (Vector.replicate 32 0)).symm.trans (same ▸ read (Vector.replicate 32 1))
    have hashes := congrArg Header.gcHash (Except.ok.inj headers)
    exact absurd hashes (by decide)

end SimpleOprf.StarkGarble
