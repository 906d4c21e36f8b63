import Mathlib.Data.List.GetD
import Mathlib.Tactic.FinCases
import SimpleOprf.Basis.Rows
import SimpleOprf.Kyber.Reduce

/-!
# Packed polynomials

Every format of `poly.c` and `polyvec.c` packs eight coefficients at a time into a
few bytes. A group of a format is read back as it was written.

A format is a record of its two directions on eight values with the proof that
they are inverse, so that one lemma covers the polynomials and vectors of every
width.
-/

namespace SimpleOprf.Kyber

open SimpleOprf.Basis

/-! ## Fields of an integer -/

/-- A disjunction of disjoint bits is a sum. -/
theorem or_shiftLeft {x k : Nat} (low : x < 2 ^ k) (y : Nat) : x ||| y <<< k = x + y * 2 ^ k := by
  rw [Nat.or_comm, ← Nat.shiftLeft_add_eq_or_of_lt low, Nat.shiftLeft_eq, Nat.add_comm]

/-- A mask of `k` ones is a remainder. -/
theorem and_ones (x k : Nat) {mask : Nat} (ones : mask = 2 ^ k - 1) : x &&& mask = x % 2 ^ k := by
  rw [ones, Nat.and_two_pow_sub_one_eq_mod]

/-- The masks of the formats. -/
theorem and_mask (x : Nat) : x &&& 1 = x % 2 ∧ x &&& 3 = x % 4 ∧ x &&& 7 = x % 8 ∧ x &&& 15 = x % 16 ∧
    x &&& 31 = x % 32 ∧ x &&& 63 = x % 64 ∧ x &&& 127 = x % 128 ∧ x &&& 255 = x % 256 :=
  ⟨and_ones x 1 rfl, and_ones x 2 rfl, and_ones x 3 rfl, and_ones x 4 rfl, and_ones x 5 rfl,
    and_ones x 6 rfl, and_ones x 7 rfl, and_ones x 8 rfl⟩

/-- A mask above a shift cuts the value below it. -/
theorem shiftLeft_and_mask (x : Nat) : x <<< 2 &&& 4 = (x % 2) <<< 2 ∧ x <<< 1 &&& 6 = (x % 4) <<< 1 := by
  rw [← (and_mask x).1, ← (and_mask x).2.1, Nat.shiftLeft_and_distrib, Nat.shiftLeft_and_distrib]
  exact ⟨rfl, rfl⟩

/-! ## Groups -/

/-- Eight numbers of some bits in some bytes. -/
structure GroupFormat (bits : Nat) where
  width : Nat
  pack : (Fin 8 → Nat) → Fin width → Nat
  unpack : (Fin width → Nat) → Fin 8 → Nat
  unpack_pack : ∀ t, (∀ j, t j < 2 ^ bits) → ∀ j, unpack (fun c => pack t c % 256) j = t j

/-- The groups of `poly_tobytes` and `poly_frombytes`. -/
def group13 : GroupFormat 13 where
  width := 13
  pack t
    | 0 => t 0 &&& 0xff
    | 1 => t 0 >>> 8 ||| (t 1 &&& 0x07) <<< 5
    | 2 => t 1 >>> 3 &&& 0xff
    | 3 => t 1 >>> 11 ||| (t 2 &&& 0x3f) <<< 2
    | 4 => t 2 >>> 6 ||| (t 3 &&& 0x01) <<< 7
    | 5 => t 3 >>> 1 &&& 0xff
    | 6 => t 3 >>> 9 ||| (t 4 &&& 0x0f) <<< 4
    | 7 => t 4 >>> 4 &&& 0xff
    | 8 => t 4 >>> 12 ||| (t 5 &&& 0x7f) <<< 1
    | 9 => t 5 >>> 7 ||| (t 6 &&& 0x03) <<< 6
    | 10 => t 6 >>> 2 &&& 0xff
    | 11 => t 6 >>> 10 ||| (t 7 &&& 0x1f) <<< 3
    | 12 => t 7 >>> 5
  unpack a
    | 0 => a 0 ||| (a 1 &&& 0x1f) <<< 8
    | 1 => a 1 >>> 5 ||| a 2 <<< 3 ||| (a 3 &&& 0x03) <<< 11
    | 2 => a 3 >>> 2 ||| (a 4 &&& 0x7f) <<< 6
    | 3 => a 4 >>> 7 ||| a 5 <<< 1 ||| (a 6 &&& 0x0f) <<< 9
    | 4 => a 6 >>> 4 ||| a 7 <<< 4 ||| (a 8 &&& 0x01) <<< 12
    | 5 => a 8 >>> 1 ||| (a 9 &&& 0x3f) <<< 7
    | 6 => a 9 >>> 6 ||| a 10 <<< 2 ||| (a 11 &&& 0x07) <<< 10
    | 7 => a 11 >>> 3 ||| a 12 <<< 5
  unpack_pack t small j := by
    have bounds := And.intro (small 0) (And.intro (small 1) (And.intro (small 2) (And.intro (small 3)
      (And.intro (small 4) (And.intro (small 5) (And.intro (small 6) (small 7)))))))
    fin_cases j
    all_goals
      simp (disch := omega) [or_shiftLeft, and_mask, Nat.shiftRight_eq_div_pow]
      omega

/-- The groups of `polyvec_compress` and `polyvec_decompress`. -/
def group11 : GroupFormat 11 where
  width := 11
  pack t
    | 0 => t 0 &&& 0xff
    | 1 => t 0 >>> 8 ||| (t 1 &&& 0x1f) <<< 3
    | 2 => t 1 >>> 5 ||| (t 2 &&& 0x03) <<< 6
    | 3 => t 2 >>> 2 &&& 0xff
    | 4 => t 2 >>> 10 ||| (t 3 &&& 0x7f) <<< 1
    | 5 => t 3 >>> 7 ||| (t 4 &&& 0x0f) <<< 4
    | 6 => t 4 >>> 4 ||| (t 5 &&& 0x01) <<< 7
    | 7 => t 5 >>> 1 &&& 0xff
    | 8 => t 5 >>> 9 ||| (t 6 &&& 0x3f) <<< 2
    | 9 => t 6 >>> 6 ||| (t 7 &&& 0x07) <<< 5
    | 10 => t 7 >>> 3
  unpack a
    | 0 => a 0 ||| (a 1 &&& 0x07) <<< 8
    | 1 => a 1 >>> 3 ||| (a 2 &&& 0x3f) <<< 5
    | 2 => a 2 >>> 6 ||| (a 3 &&& 0xff) <<< 2 ||| (a 4 &&& 0x01) <<< 10
    | 3 => a 4 >>> 1 ||| (a 5 &&& 0x0f) <<< 7
    | 4 => a 5 >>> 4 ||| (a 6 &&& 0x7f) <<< 4
    | 5 => a 6 >>> 7 ||| (a 7 &&& 0xff) <<< 1 ||| (a 8 &&& 0x03) <<< 9
    | 6 => a 8 >>> 2 ||| (a 9 &&& 0x1f) <<< 6
    | 7 => a 9 >>> 5 ||| (a 10 &&& 0xff) <<< 3
  unpack_pack t small j := by
    have bounds := And.intro (small 0) (And.intro (small 1) (And.intro (small 2) (And.intro (small 3)
      (And.intro (small 4) (And.intro (small 5) (And.intro (small 6) (small 7)))))))
    fin_cases j
    all_goals
      simp (disch := omega) [or_shiftLeft, and_mask, Nat.shiftRight_eq_div_pow]
      omega

/-- The groups of `poly_compress` and `poly_decompress`. -/
def group3 : GroupFormat 3 where
  width := 3
  pack t
    | 0 => t 0 ||| t 1 <<< 3 ||| t 2 <<< 6
    | 1 => t 2 >>> 2 ||| t 3 <<< 1 ||| t 4 <<< 4 ||| t 5 <<< 7
    | 2 => t 5 >>> 1 ||| t 6 <<< 2 ||| t 7 <<< 5
  unpack a
    | 0 => a 0 &&& 7
    | 1 => a 0 >>> 3 &&& 7
    | 2 => a 0 >>> 6 ||| a 1 <<< 2 &&& 4
    | 3 => a 1 >>> 1 &&& 7
    | 4 => a 1 >>> 4 &&& 7
    | 5 => a 1 >>> 7 ||| a 2 <<< 1 &&& 6
    | 6 => a 2 >>> 2 &&& 7
    | 7 => a 2 >>> 5
  unpack_pack t small j := by
    have bounds := And.intro (small 0) (And.intro (small 1) (And.intro (small 2) (And.intro (small 3)
      (And.intro (small 4) (And.intro (small 5) (And.intro (small 6) (small 7)))))))
    fin_cases j
    all_goals
      simp (disch := omega) [or_shiftLeft, and_mask, shiftLeft_and_mask, Nat.shiftRight_eq_div_pow]
      omega

namespace GroupFormat

variable {bits : Nat} (f : GroupFormat bits)

/-- The bytes of 256 numbers. -/
def store (t : Fin 256 → Nat) : List UInt8 :=
  (List.range 32).flatMap fun i =>
    List.ofFn fun c => UInt8.ofNat (f.pack (fun j => t (Fin.ofNat 256 (8 * i + j))) c)

/-- The coefficients in packed bytes. -/
def load (a : List UInt8) : Fin 256 → Nat := fun n =>
  f.unpack (fun c => (a.getD (n / 8 * f.width + c) 0).toNat) (Fin.ofNat 8 n)

theorem length_store (t : Fin 256 → Nat) : (f.store t).length = 32 * f.width := by
  rw [store, length_rows fun _ _ => List.length_ofFn, List.length_range]

/-- Numbers that fit are read back, whatever follows them. -/
theorem load_store {t : Fin 256 → Nat} (small : ∀ n, t n < 2 ^ bits) (rest : List UInt8) :
    f.load (f.store t ++ rest) = t := by
  funext n
  have group : n.val / 8 < 32 := by omega
  have bytes : ∀ c : Fin f.width, ((f.store t ++ rest).getD (n / 8 * f.width + c) 0).toNat =
      f.pack (fun j => t (Fin.ofNat 256 (8 * (n / 8) + j))) c % 256 := by
    intro c
    have inside : n / 8 * f.width + c < (f.store t).length := by
      rw [length_store]
      calc n / 8 * f.width + c < n / 8 * f.width + f.width := by omega
        _ = (n / 8 + 1) * f.width := by rw [Nat.succ_mul]
        _ ≤ 32 * f.width := Nat.mul_le_mul_right _ group
    have entry := @getElem?_rows _ _ (List.range 32) (fun i => List.ofFn fun c =>
      UInt8.ofNat (f.pack (fun j => t (Fin.ofNat 256 (8 * i + j))) c)) f.width
      (fun _ _ => List.length_ofFn) _ _ c.isLt _ (List.getElem?_range group)
    rw [List.getD_append _ _ _ _ inside, List.getD_eq_getElem?_getD, store, entry,
      List.getElem?_ofFn, dif_pos c.isLt, Option.getD_some, UInt8.toNat_ofNat']
  have number : Fin.ofNat 256 (8 * (n / 8) + Fin.ofNat 8 n) = n := by
    apply Fin.ext
    simp only [Fin.val_ofNat]
    omega
  simp only [load, bytes]
  rw [f.unpack_pack _ (fun j => small _), number]

end GroupFormat

/-! ## Polynomials -/

/-- `KYBER_K`. -/
def kyberK : Nat := 3

/-- `polyvec`. -/
abbrev PolyVec := Fin kyberK → Poly

/-- `poly_tobytes`: 13 bits for each frozen coefficient. -/
def polyTobytes (a : Poly) : List UInt8 := group13.store fun n => (freeze (a n)).toNat

/-- `poly_frombytes`. -/
def polyFrombytes (a : List UInt8) : Poly := fun n => BitVec.ofNat 16 (group13.load a n)

/-- A coefficient rounded to a number of `d` bits. -/
def compressed (d : Nat) (x : BitVec 16) : Nat :=
  ((freeze x).toNat <<< d + kyberQ / 2) / kyberQ &&& (2 ^ d - 1)

/-- The coefficient that a code of `d` bits stands for. -/
def decompressed (d code : Nat) : BitVec 16 := BitVec.ofNat 16 ((code * kyberQ + 2 ^ (d - 1)) >>> d)

/-- `poly_compress`: 3 bits for each coefficient. -/
def polyCompress (a : Poly) : List UInt8 := group3.store fun n => compressed 3 (a n)

/-- `poly_decompress`. -/
def polyDecompress (a : List UInt8) : Poly := fun n => decompressed 3 (group3.load a n)

/-- `mask` is zero or all ones. -/
def polyFrommsg (msg : List UInt8) : Poly := fun n =>
  let mask := -BitVec.ofNat 16 ((msg.getD (n.val / 8) 0).toNat >>> (n.val % 8) &&& 1)
  mask &&& BitVec.ofNat 16 ((kyberQ + 1) / 2)

/-- `poly_tomsg`: one bit for each coefficient. -/
def polyTomsg (a : Poly) : List UInt8 :=
  (List.range 32).map fun i => (List.range 8).foldl (fun byte j =>
    byte ||| UInt8.ofNat (compressed 1 (a (Fin.ofNat 256 (8 * i + j))) <<< j)) 0

/-- `polyvec_compress` with eleven bits, as `KYBER_POLYVECCOMPRESSEDBYTES` has it. -/
def polyvecCompress (a : PolyVec) : List UInt8 :=
  (List.finRange kyberK).flatMap fun i => group11.store fun n => compressed 11 (a i n)

/-- `polyvec_decompress`, 352 bytes a polynomial. -/
def polyvecDecompress (a : List UInt8) : PolyVec := fun i n =>
  decompressed 11 (group11.load (a.drop (i * 352)) n)

/-- `polyvec_tobytes`. -/
def polyvecTobytes (a : PolyVec) : List UInt8 :=
  (List.finRange kyberK).flatMap fun i => polyTobytes (a i)

/-- `polyvec_frombytes`, 416 bytes a polynomial. -/
def polyvecFrombytes (a : List UInt8) : PolyVec := fun i => polyFrombytes (a.drop (i * 416))

/-! ## Reading back -/

/-- A code has `d` bits. -/
theorem compressed_lt (d : Nat) (x : BitVec 16) : compressed d x < 2 ^ d := by
  rw [compressed, Nat.and_two_pow_sub_one_eq_mod]
  exact Nat.mod_lt _ (Nat.two_pow_pos d)

theorem length_polyvecCompress (a : PolyVec) : (polyvecCompress a).length = 1056 := by
  rw [polyvecCompress, length_rows fun _ _ => group11.length_store _]
  rfl

theorem length_polyvecTobytes (a : PolyVec) : (polyvecTobytes a).length = 1248 := by
  have uniform : ∀ i ∈ List.finRange kyberK, (polyTobytes (a i)).length = 416 := fun i _ =>
    group13.length_store fun n => (freeze (a i n)).toNat
  rw [polyvecTobytes, length_rows uniform]
  rfl

/-- One of several strings of a length, with what follows it. -/
theorem drop_rows {fill : Fin kyberK → List UInt8} {width : Nat}
    (uniform : ∀ i, (fill i).length = width) (i : Fin kyberK) (rest : List UInt8) :
    ∃ after, ((List.finRange kyberK).flatMap fill ++ rest).drop (i * width) = fill i ++ after := by
  have found : (List.finRange kyberK)[i.val]? = some i := by
    rw [List.getElem?_eq_getElem (by rw [List.length_finRange]; exact i.isLt), List.getElem_finRange]
    rfl
  have short : i * width ≤ ((List.finRange kyberK).flatMap fill).length := by
    rw [length_rows fun j _ => uniform j, List.length_finRange]
    exact Nat.mul_le_mul_right _ i.isLt.le
  have row := section_rows (fun j _ => uniform j) found
  refine ⟨(((List.finRange kyberK).flatMap fill).drop (i * width)).drop width ++ rest, ?_⟩
  rw [List.drop_append_of_le_length short, ← row, ← List.append_assoc, List.take_append_drop]

/-- A packed polynomial is read back frozen. -/
theorem polyFrombytes_polyTobytes (a : Poly) (rest : List UInt8) :
    polyFrombytes (polyTobytes a ++ rest) = fun n => freeze (a n) := by
  have small : ∀ n, (freeze (a n)).toNat < 2 ^ 13 := fun n => (freeze_lt (a n)).trans (by decide)
  funext n
  rw [polyFrombytes, polyTobytes, group13.load_store small, BitVec.ofNat_toNat, BitVec.setWidth_eq]

/-- A vector is read back with canonical coefficients. -/
theorem polyvecFrombytes_polyvecTobytes (a : PolyVec) (rest : List UInt8) :
    polyvecFrombytes (polyvecTobytes a ++ rest) = fun i n => freeze (a i n) := by
  funext i
  obtain ⟨after, row⟩ := drop_rows (fun j => group13.length_store fun n => (freeze (a j n)).toNat) i rest
  rw [polyvecFrombytes, polyvecTobytes]
  exact (congrArg polyFrombytes row).trans (polyFrombytes_polyTobytes (a i) after)

/-- A compressed polynomial is read back through its codes. -/
theorem polyDecompress_polyCompress (a : Poly) (rest : List UInt8) :
    polyDecompress (polyCompress a ++ rest) = fun n => decompressed 3 (compressed 3 (a n)) := by
  funext n
  rw [polyDecompress, polyCompress, group3.load_store fun n => compressed_lt 3 (a n)]

/-- So is a compressed vector. -/
theorem polyvecDecompress_polyvecCompress (a : PolyVec) (rest : List UInt8) :
    polyvecDecompress (polyvecCompress a ++ rest) = fun i n => decompressed 11 (compressed 11 (a i n)) := by
  funext i n
  obtain ⟨after, row⟩ := drop_rows (fun j => group11.length_store fun n => compressed 11 (a j n)) i rest
  have read := group11.load_store (fun n => compressed_lt 11 (a i n)) after
  rw [polyvecDecompress, polyvecCompress]
  exact congrArg (decompressed 11) ((congrArg (group11.load · n) row).trans (congrFun read n))

end SimpleOprf.Kyber
