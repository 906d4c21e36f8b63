import SimpleOprf.Basis.Filling
import SimpleOprf.Basis.LittleEndian
import SimpleOprf.Yao.SecretSharing

/-!
# What the client commits to

The last part of `YaoEvaluator::run`: the input of the commitment is put together
byte by byte, hashed, and sent to the servers behind the masked shares.

The committed bytes determine the opening, so two openings with one commitment
are a collision of the hash.
-/

namespace SimpleOprf.Yao

open SimpleOprf.Basis

/-- `_mm_storeu_si128`: sixteen bytes, the low lane first. -/
def storeu (x : M128i) : List UInt8 := leBytes 8 x.1.toNat ++ leBytes 8 x.2.toNat

/-- `_mm_loadu_si128`. -/
def loadu (bytes : List UInt8) : M128i :=
  (BitVec.ofNat 64 (ofLe (bytes.take 8)), BitVec.ofNat 64 (ofLe (bytes.drop 8)))

/-- The values that `run` commits to. Entry 0 of the arrays is not used. -/
structure Opening (n : Nat) where
  pw : M128i
  e : Fin (n + 1) → M128i
  shares : Fin (n + 1) → M128i
  r : Vector UInt8 16

variable {n : Nat}

/-- The writes to `comin`. -/
def Opening.cominWrites (o : Opening n) : List (Nat × UInt8) :=
  copyTo 0 (storeu o.pw) ++
  ((List.finRange n).flatMap fun j : Fin n => copyTo (16 + j * 16) (storeu (o.e j.succ))) ++
  ((List.finRange n).flatMap fun j : Fin n => copyTo (16 + 16 * n + j * 16) (storeu (o.shares j.succ))) ++
  copyTo (16 + 16 * n * 2) o.r.toList

/-- The writes to `Init_pack`. -/
def Opening.initWrites (o : Opening n) (comout : Vector UInt8 32) : List (Nat × UInt8) :=
  ((List.finRange n).flatMap fun j : Fin n => copyTo (j * 16) (storeu (o.e j.succ))) ++
  copyTo (16 * n) comout.toList

/-- The commitment and the message, from the stack's bytes in both buffers. -/
def Opening.commit (o : Opening n) (sha256 : List UInt8 → Vector UInt8 32)
    (comin : Vector UInt8 (16 * 2 + 16 * 2 * n)) (initPack : Vector UInt8 (16 * n + 32)) :
    Outcome (List UInt8 × List UInt8) := do
  let comin ← perform comin.toList o.cominWrites
  let initPack ← perform initPack.toList (o.initWrites (sha256 comin))
  return (comin, initPack)

/-! ## The layouts -/

/-- The committed string. -/
def Opening.comin (o : Opening n) : List UInt8 :=
  storeu o.pw ++ ((List.finRange n).flatMap fun j => storeu (o.e j.succ)) ++
  ((List.finRange n).flatMap fun j => storeu (o.shares j.succ)) ++ o.r.toList

/-- What a receiver of the message finds in it: the masked shares and the commitment. -/
def decodeInit (n : Nat) (pack : List UInt8) : List M128i × List UInt8 :=
  ((List.range n).map fun j => loadu ((pack.drop (j * 16)).take 16), pack.drop (16 * n))

@[simp] theorem length_storeu (x : M128i) : (storeu x).length = 16 := by
  rw [storeu, List.length_append, length_leBytes, length_leBytes]

@[simp] theorem loadu_storeu (x : M128i) : loadu (storeu x) = x := by
  have lane : ∀ y : BitVec 64, BitVec.ofNat 64 (ofLe (leBytes 8 y.toNat)) = y := fun y => by
    rw [ofLe_leBytes y.isLt, BitVec.ofNat_toNat, BitVec.setWidth_eq]
  rw [loadu, storeu, List.take_left' (length_leBytes 8 _), List.drop_left' (length_leBytes 8 _),
    lane, lane]

/-- A register is known from its bytes. -/
theorem storeu_injective : Function.Injective storeu :=
  Function.LeftInverse.injective loadu_storeu

/-- The blocks of an array, without entry 0. -/
def blocks (x : Fin (n + 1) → M128i) : List UInt8 :=
  (List.finRange n).flatMap fun j => storeu (x j.succ)

@[simp] theorem length_blocks (x : Fin (n + 1) → M128i) : (blocks x).length = n * 16 := by
  rw [blocks, length_rows fun j _ => length_storeu (x j.succ), List.length_finRange]

/-- Block `j` sits at its place, whatever follows the blocks. -/
theorem section_blocks (x : Fin (n + 1) → M128i) (j : Fin n) (after : List UInt8) :
    ((blocks x ++ after).drop (j * 16)).take 16 = storeu (x j.succ) := by
  have found : (List.finRange n)[j.val]? = some j := by
    rw [List.getElem?_eq_getElem (by rw [List.length_finRange]; exact j.isLt), List.getElem_finRange]
    rfl
  have whole : ((blocks x).drop (j * 16)).take 16 = storeu (x j.succ) :=
    section_rows (fun j _ => length_storeu (x j.succ)) found
  have inside := j.isLt
  rw [List.drop_append_of_le_length (by rw [length_blocks]; omega),
    List.take_append_of_le_length (by rw [List.length_drop, length_blocks]; omega), whole]

/-- The blocks determine the entries behind entry 0. -/
theorem blocks_inj {x y : Fin (n + 1) → M128i} :
    blocks x = blocks y ↔ ∀ j : Fin n, x j.succ = y j.succ := by
  constructor
  · intro same j
    apply storeu_injective
    rw [← section_blocks x j [], same, section_blocks]
  · intro same
    simp only [blocks, same]

/-- The copies of the loop fill one range. -/
theorem copyTo_blocks (offset : Nat) (x : Fin (n + 1) → M128i) :
    ((List.finRange n).flatMap fun j : Fin n => copyTo (offset + j * 16) (storeu (x j.succ))) =
      copyTo offset (blocks x) :=
  copyTo_rows (fun j => length_storeu (x j.succ)) offset

/-- The committed bytes are the password, the blocks of `e`, the shares and `r`. -/
theorem Opening.comin_eq (o : Opening n) :
    o.comin = storeu o.pw ++ blocks o.e ++ blocks o.shares ++ o.r.toList := rfl

theorem Opening.length_comin (o : Opening n) : o.comin.length = 16 * 2 + 16 * 2 * n := by
  simp only [comin_eq, List.length_append, length_storeu, length_blocks, Vector.length_toList]
  omega

/-- The five loops on `comin` write the string from its front to its back. -/
theorem Opening.cominWrites_eq (o : Opening n) : o.cominWrites = copyTo 0 o.comin := by
  have second : 16 + 16 * n = (storeu o.pw ++ blocks o.e).length := by
    rw [List.length_append, length_storeu, length_blocks]
    omega
  have third : 16 + 16 * n * 2 = (storeu o.pw ++ blocks o.e ++ blocks o.shares).length := by
    rw [List.length_append, ← second, length_blocks]
    omega
  rw [comin_eq, copyTo_append, copyTo_append, copyTo_append, cominWrites, copyTo_blocks,
    copyTo_blocks, second, third, length_storeu]
  simp only [Nat.zero_add]

/-- The writes to the pack are its blocks and the commitment, in order. -/
theorem Opening.initWrites_eq (o : Opening n) (comout : Vector UInt8 32) :
    o.initWrites comout = copyTo 0 (blocks o.e ++ comout.toList) := by
  have first := copyTo_blocks 0 o.e
  simp only [Nat.zero_add] at first
  rw [initWrites, first, copyTo_append, length_blocks, Nat.zero_add, Nat.mul_comm]

/-- The string determines what it was put together from. -/
theorem Opening.comin_inj {o o' : Opening n} : o.comin = o'.comin ↔
    o.pw = o'.pw ∧ (∀ j : Fin n, o.e j.succ = o'.e j.succ) ∧
      (∀ j : Fin n, o.shares j.succ = o'.shares j.succ) ∧ o.r = o'.r := by
  rw [comin_eq, comin_eq, ← blocks_inj, ← blocks_inj]
  constructor
  · intro same
    obtain ⟨same, r⟩ := List.append_inj' same (by simp)
    obtain ⟨same, shares⟩ := List.append_inj' same (by simp)
    obtain ⟨pw, e⟩ := List.append_inj' same (by simp)
    exact ⟨storeu_injective pw, e, shares, Vector.toList_inj.mp r⟩
  · rintro ⟨pw, e, shares, r⟩
    rw [pw, e, shares, r]

/-- Both buffers are filled completely, each byte once, and hold the password,
the masked shares, the shares and the coins in this order, and the masked shares
and the commitment. -/
theorem commit_layout (n : Nat) (o : Opening n) (sha256 : List UInt8 → Vector UInt8 32)
    (stackComin : Vector UInt8 (16 * 2 + 16 * 2 * n)) (stackPack : Vector UInt8 (16 * n + 32)) :
    o.cominWrites.map Prod.fst = List.range (32 + 32 * n) ∧
    (o.initWrites (sha256 o.comin)).map Prod.fst = List.range (16 * n + 32) ∧
    (∃ pack, o.commit sha256 stackComin stackPack = .ok (o.comin, pack) ∧
      pack.length = 16 * n + 32 ∧
      decodeInit n pack = (List.ofFn fun j => o.e j.succ, (sha256 o.comin).toList)) ∧
    ∀ o' : Opening n, o.comin = o'.comin ↔
      o.pw = o'.pw ∧ (∀ j : Fin n, o.e j.succ = o'.e j.succ) ∧
        (∀ j : Fin n, o.shares j.succ = o'.shares j.succ) ∧ o.r = o'.r := by
  have size : (blocks o.e ++ (sha256 o.comin).toList).length = 16 * n + 32 := by
    rw [List.length_append, length_blocks, Vector.length_toList, Nat.mul_comm]
  refine ⟨?_, ?_, ⟨blocks o.e ++ (sha256 o.comin).toList, ?_, size, ?_⟩,
    fun o' => Opening.comin_inj⟩
  · rw [o.cominWrites_eq, places_copyTo, o.length_comin, List.range_eq_range']
  · rw [o.initWrites_eq, places_copyTo, size, List.range_eq_range']
  · have filled : perform stackComin.toList o.cominWrites = .ok o.comin := by
      rw [o.cominWrites_eq]
      exact perform_fill (by rw [Vector.length_toList, o.length_comin])
    have packed : perform stackPack.toList (o.initWrites (sha256 o.comin)) =
        .ok (blocks o.e ++ (sha256 o.comin).toList) := by
      rw [o.initWrites_eq]
      exact perform_fill (by rw [Vector.length_toList, size])
    rw [Opening.commit, filled, Outcome.ok_bind, packed]
    rfl
  · rw [decodeInit, Nat.mul_comm 16 n, List.drop_left' (length_blocks o.e)]
    congr 1
    apply List.ext_getElem
    · rw [List.length_map, List.length_range, List.length_ofFn]
    · intro j inside _
      rw [List.length_map, List.length_range] at inside
      rw [List.getElem_map, List.getElem_range, List.getElem_ofFn,
        section_blocks o.e ⟨j, inside⟩, loadu_storeu]

end SimpleOprf.Yao
