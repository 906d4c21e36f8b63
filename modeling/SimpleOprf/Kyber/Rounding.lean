import Mathlib.Data.ZMod.ValMinAbs
import SimpleOprf.Kyber.Packing

/-!
# Rounding

A coefficient that is compressed to `d` bits comes back within half a step of
itself, and one bit of a message comes back when the coefficient is nearer to the
middle of the residues than to zero.

The bounds are those of the formats that are compiled in: eleven bits for
vectors, three for polynomials and one for messages, over all 16-bit words.
-/

namespace SimpleOprf.Kyber

/-- What compression to `d` bits adds to a coefficient. -/
def roundingError (d : Nat) (x : BitVec 16) : Residue :=
  residue (decompressed d (compressed d x)) - residue x

/-- A code is the rounded multiple of `2 ^ d`, modulo `2 ^ d`. -/
theorem compressed_eq (d : Nat) (x : BitVec 16) :
    compressed d x = ((residue x).val * 2 ^ d + 3840) / 7681 % 2 ^ d := by
  rw [compressed, Nat.and_two_pow_sub_one_eq_mod, toNat_freeze_eq_val, Nat.shiftLeft_eq]
  rfl

/-- A code stands for its rounded multiple of `KYBER_Q`. -/
theorem toNat_decompressed {d code : Nat} (small : code < 2 ^ d) :
    (decompressed d code).toNat = (code * 7681 + 2 ^ (d - 1)) / 2 ^ d := by
  have positive : 0 < 2 ^ d := Nat.two_pow_pos d
  have half : 2 ^ (d - 1) ≤ 2 ^ d := Nat.pow_le_pow_right (by decide) (Nat.sub_le d 1)
  have fits : (code * 7681 + 2 ^ (d - 1)) / 2 ^ d < 65536 := by
    rw [Nat.div_lt_iff_lt_mul positive]
    omega
  rw [decompressed, Nat.shiftRight_eq_div_pow, BitVec.toNat_ofNat]
  exact Nat.mod_eq_of_lt fits

/-- A residue with a small representative. -/
theorem natAbs_valMinAbs_le {x : Residue} {k : ℤ} {bound : Nat} (small : bound ≤ 3840)
    (represents : x = (k : Residue)) (within : k.natAbs ≤ bound) : x.valMinAbs.natAbs ≤ bound := by
  have same : x.valMinAbs = k := by
    rw [ZMod.valMinAbs_spec]
    refine ⟨represents, ?_⟩
    simp only [kyberQ, Set.mem_Ioc]
    omega
  rwa [same]

/-- Rounding to eleven bits moves a coefficient by at most two, and rounding to three
bits by at most 480. -/
theorem roundingError_le (x : BitVec 16) :
    (roundingError 11 x).valMinAbs.natAbs ≤ 2 ∧ (roundingError 3 x).valMinAbs.natAbs ≤ 480 := by
  have value : residue x = (((residue x).val : ℤ) : Residue) := by
    rw [Int.cast_natCast, ZMod.natCast_zmod_val]
  have canonical : (residue x).val < 7681 := ZMod.val_lt _
  have close : ∀ d, ∀ bound ≤ 3840, (∃ k : ℤ, k.natAbs ≤ bound ∧ ∃ turns : ℤ,
      ((decompressed d (compressed d x)).toNat : ℤ) - (residue x).val = k - turns * 7681) →
      (roundingError d x).valMinAbs.natAbs ≤ bound := by
    rintro d bound small ⟨k, within, turns, distance⟩
    refine natAbs_valMinAbs_le small ?_ within
    have cast := congrArg (Int.cast : ℤ → Residue) distance
    push_cast at cast
    rw [show (7681 : Residue) = 0 from ZMod.natCast_self kyberQ, mul_zero, sub_zero,
      ZMod.natCast_zmod_val] at cast
    exact cast
  constructor
  · refine close 11 2 (by decide) ?_
    rw [toNat_decompressed (compressed_lt 11 x), compressed_eq]
    generalize (residue x).val = v at canonical
    refine ⟨(((v * 2 ^ 11 + 3840) / 7681 * 7681 + 2 ^ 10) / 2 ^ 11 : ℕ) - v, by omega,
      ((v * 2 ^ 11 + 3840) / 7681 / 2 ^ 11 : ℕ), by omega⟩
  · refine close 3 480 (by decide) ?_
    rw [toNat_decompressed (compressed_lt 3 x), compressed_eq]
    generalize (residue x).val = v at canonical
    refine ⟨(((v * 2 ^ 3 + 3840) / 7681 * 7681 + 2 ^ 2) / 2 ^ 3 : ℕ) - v, by omega,
      ((v * 2 ^ 3 + 3840) / 7681 / 2 ^ 3 : ℕ), by omega⟩

/-! ## Messages -/

/-- Bit `n` of a message. -/
def messageBit (msg : List UInt8) (n : Nat) : Bool := (msg.getD (n / 8) 0).toNat.testBit (n % 8)

/-- A set bit becomes the middle of the residues. -/
theorem toNat_polyFrommsg (msg : List UInt8) (n : Fin 256) :
    (polyFrommsg msg n).toNat = if messageBit msg n then 3841 else 0 := by
  simp only [polyFrommsg, messageBit, Nat.testBit, Nat.one_and_eq_mod_two, Nat.and_one_is_mod]
  rcases Nat.mod_two_eq_zero_or_one ((msg.getD (n.val / 8) 0).toNat >>> (n.val % 8)) with even | odd
  · rw [even]
    rfl
  · rw [odd]
    rfl

/-- A coefficient between a quarter and three quarters of `KYBER_Q` is a one. -/
theorem compressed_one (x : BitVec 16) :
    compressed 1 x = if 1921 ≤ (residue x).val ∧ (residue x).val ≤ 5760 then 1 else 0 := by
  have canonical : (residue x).val < 7681 := ZMod.val_lt _
  rw [compressed_eq]
  split <;> omega

theorem length_polyTomsg (a : Poly) : (polyTomsg a).length = 32 := by
  rw [polyTomsg, List.length_map, List.length_range]

/-- The bits of a byte that is put together from the low end. -/
theorem testBit_foldl_or {t : Nat → Nat} (bits : ∀ j, t j = 0 ∨ t j = 1) {m : Nat} (short : m ≤ 8) (k : Nat) :
    (((List.range m).foldl (fun byte j => byte ||| UInt8.ofNat (t j <<< j)) 0).toNat).testBit k =
      (decide (k < m) && (t k == 1)) := by
  induction m with
  | zero => simp
  | succ m ih =>
    rw [List.range_succ, List.foldl_append, List.foldl_cons, List.foldl_nil, UInt8.toNat_or,
      Nat.testBit_or, ih (by omega), UInt8.toNat_ofNat', Nat.testBit_mod_two_pow, Nat.testBit_shiftLeft]
    rcases Nat.lt_trichotomy k m with below | same | above
    · simp [below, show ¬m ≤ k by omega, show k < m + 1 by omega]
    · subst same
      rcases bits k with zero | one
      · simp [zero]
      · simp [one, show k < 8 by omega]
    · have beyond : (t m).testBit (k - m) = false := by
        apply Nat.testBit_lt_two_pow
        calc t m ≤ 1 := by rcases bits m with zero | one <;> omega
          _ < 2 ^ (k - m) := Nat.one_lt_two_pow (by omega)
      simp [beyond, show ¬k < m by omega, show ¬k < m + 1 by omega]

/-- A bit is read as set when its coefficient lies in the middle half. -/
theorem messageBit_polyTomsg (a : Poly) (n : Fin 256) : messageBit (polyTomsg a) n =
    decide (1921 ≤ (residue (a n)).val ∧ (residue (a n)).val ≤ 5760) := by
  have group : n.val / 8 < 32 := by omega
  have bits : ∀ j, compressed 1 (a (Fin.ofNat 256 (8 * (n / 8) + j))) = 0 ∨
      compressed 1 (a (Fin.ofNat 256 (8 * (n / 8) + j))) = 1 := by
    intro j
    rw [compressed_one]
    split
    · exact .inr rfl
    · exact .inl rfl
  have place : Fin.ofNat 256 (8 * (n.val / 8) + n.val % 8) = n := by
    apply Fin.ext
    simp only [Fin.val_ofNat]
    omega
  rw [messageBit, polyTomsg, List.getD_eq_getElem?_getD, List.getElem?_map, List.getElem?_range group,
    Option.map_some, Option.getD_some, testBit_foldl_or bits le_rfl, place, compressed_one]
  rw [decide_eq_true (Nat.mod_lt n.val (by decide)), Bool.true_and]
  split
  · rw [decide_eq_true ‹_›]
    rfl
  · rw [decide_eq_false ‹_›]
    rfl

/-- Two messages with the same bits are the same. -/
theorem eq_of_messageBit {left right : List UInt8} (sized : left.length = 32) (sized' : right.length = 32)
    (same : ∀ n : Fin 256, messageBit left n = messageBit right n) : left = right := by
  apply List.ext_getElem (sized.trans sized'.symm)
  intro i inside inside'
  apply UInt8.toNat_inj.mp
  apply Nat.eq_of_testBit_eq
  intro j
  rcases Nat.lt_or_ge j 8 with low | high
  · have bit := same ⟨8 * i + j, by omega⟩
    simp only [messageBit, show (8 * i + j) / 8 = i by omega, show (8 * i + j) % 8 = j by omega] at bit
    rwa [List.getD_eq_getElem _ _ inside, List.getD_eq_getElem _ _ inside'] at bit
  · have beyond : ∀ b : UInt8, b.toNat.testBit j = false := fun b =>
      Nat.testBit_lt_two_pow (b.toNat_lt.trans_le (Nat.pow_le_pow_right (by decide) high))
    rw [beyond, beyond]

/-- A message is read back exactly. -/
theorem polyTomsg_polyFrommsg (m : Vector UInt8 32) : polyTomsg (polyFrommsg m.toList) = m.toList := by
  refine eq_of_messageBit (length_polyTomsg _) m.length_toList fun n => ?_
  have value : (residue (polyFrommsg m.toList n)).val = if messageBit m.toList n then 3841 else 0 := by
    rw [← toNat_freeze_eq_val, toNat_freeze, toNat_polyFrommsg]
    split <;> rfl
  rw [messageBit_polyTomsg, value]
  cases messageBit m.toList n with
  | false => rfl
  | true => rfl

/-- Packed polynomials are read back with canonical coefficients, compressed ones with
small rounding errors, and messages as they were. -/
theorem formats_read_back (a : PolyVec) (v : Poly) (m : Vector UInt8 32) :
    (∀ i n, (polyvecFrombytes (polyvecTobytes a) i n).toNat = (a i n).toNat % kyberQ) ∧
    (∀ i n, (residue (polyvecDecompress (polyvecCompress a) i n) - residue (a i n)).valMinAbs.natAbs ≤ 2) ∧
    (∀ n, (residue (polyDecompress (polyCompress v) n) - residue (v n)).valMinAbs.natAbs ≤ 480) ∧
    polyTomsg (polyFrommsg m.toList) = m.toList := by
  have packed := polyvecFrombytes_polyvecTobytes a []
  have vector := polyvecDecompress_polyvecCompress a []
  have poly := polyDecompress_polyCompress v []
  rw [List.append_nil] at packed vector poly
  refine ⟨fun i n => ?_, fun i n => ?_, fun n => ?_, polyTomsg_polyFrommsg m⟩
  · rw [packed, toNat_freeze]
    rfl
  · rw [vector]
    exact (roundingError_le (a i n)).1
  · rw [poly]
    exact (roundingError_le (v n)).2

end SimpleOprf.Kyber
