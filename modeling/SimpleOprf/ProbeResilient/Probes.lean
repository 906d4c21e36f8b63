import Mathlib.Data.ZMod.Basic
import SimpleOprf.Basis.TwoShares
import SimpleOprf.ProbeResilient

/-!
# What probed shares tell

The random bits of `encodeShares` are the low bits of its draws. For every set of
positions without both shares of a bit, equally many of them explain what is seen
there, whatever the input is.

The count is over the random bits with the other bits of the draws left as they
are, so it holds for every generator whose low bits are uniform.
-/

namespace SimpleOprf.ProbeResilient

open SimpleOprf.Basis SimpleOprf.GcMmo

/-- The byte of a bit. -/
def bitByte (bit : ZMod 2) : UInt8 := UInt8.ofNat bit.val

/-- A draw with its lowest bit replaced. -/
def setLow (draw : UInt64) (bit : ZMod 2) : UInt64 := draw / 2 * 2 + UInt64.ofNat bit.val

/-- The second share is the difference of the secret and the first. -/
theorem bitByte_xor : ∀ a b : ZMod 2, bitByte a ^^^ bitByte b = bitByte (b - a) := by decide

/-- The byte of a number modulo two. -/
theorem bitByte_natCast (value : Nat) : bitByte (value : ZMod 2) = UInt8.ofNat (value % 2) := by
  rw [bitByte, ZMod.val_natCast]

/-- The low bit of a byte. -/
theorem and_one_eq (byte : UInt8) : byte &&& 1 = bitByte (parity byte) := by
  rw [parity, bitByte_natCast]
  apply UInt8.toNat_inj.mp
  simp only [UInt8.toNat_and, UInt8.toNat_ofNat', UInt8.reduceToNat, Nat.and_one_is_mod]
  omega

/-- The low bit of a draw. -/
theorem low_eq (draw : UInt64) : (draw &&& 1).toUInt8 = bitByte (draw.toNat : ZMod 2) := by
  rw [bitByte_natCast]
  apply UInt8.toNat_inj.mp
  simp only [UInt64.toNat_toUInt8, UInt64.toNat_and, UInt8.toNat_ofNat', UInt64.reduceToNat,
    Nat.and_one_is_mod]

/-- The lowest bit of a draw can be set. -/
theorem toNat_setLow (draw : UInt64) (bit : ZMod 2) : ((setLow draw bit).toNat : ZMod 2) = bit := by
  have small : bit.val < 2 := ZMod.val_lt bit
  have size := draw.toNat_lt
  have value : (setLow draw bit).toNat = draw.toNat / 2 * 2 + bit.val := by
    simp only [setLow, UInt64.toNat_add, UInt64.toNat_mul, UInt64.toNat_div, UInt64.reduceToNat,
      UInt64.toNat_ofNat']
    omega
  rw [value, Nat.cast_add, Nat.cast_mul, ZMod.natCast_self, mul_zero, zero_add,
    ZMod.natCast_zmod_val]

/-- The draws `rng` with the lowest bits of the first `n` of them replaced by `r`. -/
def withShareBits {n : Nat} (rng : Rng) (r : Fin n → ZMod 2) : Rng := fun t =>
  if inside : t < n then setLow (rng.get t) (r ⟨t, inside⟩) else rng.get t

/-- The bits that are shared. -/
def secrets (n : Nat) (bits : List UInt8) : Fin n → ZMod 2 := fun i => parity (bits.getD i 0)

/-- Position `2 i` holds the first share of bit `i` and position `2 i + 1` the second. -/
theorem getElem?_encodeShares {bits : List UInt8} (rng : Rng) {j : Nat} (inside : j < bits.length) :
    (encodeShares bits rng).1[2 * j]? = some (rng.get j &&& 1).toUInt8 ∧
      (encodeShares bits rng).1[2 * j + 1]? =
        some ((rng.get j &&& 1).toUInt8 ^^^ (bits.getD j 0 &&& 1)) := by
  induction bits generalizing rng j with
  | nil => exact absurd inside (Nat.not_lt_zero j)
  | cons bit bits ih =>
    cases j with
    | zero => exact ⟨rfl, rfl⟩
    | succ j => exact ih rng.tail (Nat.lt_of_succ_lt_succ inside)

/-- The list shows the two shares of every secret at adjacent positions. -/
def SharesOf {α : Type} {n : Nat} (shown : ZMod 2 → α) (shares : List α) (b r : Fin n → ZMod 2) :
    Prop :=
  ∀ s : Fin n × Bool, shares[2 * s.1.val + s.2.toNat]? = some (shown (twoShares b r s))

/-- The encoder shows the two shares of every bit. -/
theorem encodeShares_sharesOf {n : Nat} {bits : List UInt8} (length : bits.length = n) (rng : Rng)
    (r : Fin n → ZMod 2) :
    SharesOf bitByte (encodeShares bits (withShareBits rng r)).1 (secrets n bits) r := by
  rintro ⟨i, second⟩
  obtain ⟨first, other⟩ := getElem?_encodeShares (withShareBits rng r)
    (show i.val < bits.length by rw [length]; exact i.isLt)
  have draw : ((withShareBits rng r).get i.val &&& 1).toUInt8 = bitByte (r i) := by
    rw [low_eq]
    change bitByte (((if inside : i.val < n then setLow (rng.get i.val) (r ⟨i.val, inside⟩)
      else rng.get i.val).toNat : ZMod 2)) = _
    rw [dif_pos i.isLt, toNat_setLow]
  cases second with
  | false => exact first.trans (congrArg some draw)
  | true =>
    refine other.trans (congrArg some ?_)
    rw [draw, and_one_eq, bitByte_xor]
    rfl

/-- Equally many random bits explain what is seen at positions that do not
include both shares of a secret. -/
theorem card_sharesOf {α : Type} {shown : ZMod 2 → α} {n : Nat} {probes : Finset Nat}
    (inside : ∀ t ∈ probes, t < 2 * n) (apart : ∀ i, ¬ (2 * i ∈ probes ∧ 2 * i + 1 ∈ probes))
    {shares shares' : (Fin n → ZMod 2) → List α} {b b' : Fin n → ZMod 2}
    (encodes : ∀ r, SharesOf shown (shares r) b r)
    (encodes' : ∀ r, SharesOf shown (shares' r) b' r) (v : Nat → α) :
    Nat.card {r : Fin n → ZMod 2 // ∀ t ∈ probes, (shares r)[t]? = some (v t)} =
      Nat.card {r : Fin n → ZMod 2 // ∀ t ∈ probes, (shares' r)[t]? = some (v t)} := by
  let position : Fin n × Bool → Nat := fun s => 2 * s.1.val + s.2.toNat
  have apart' : Apart {s | position s ∈ probes} := fun i => apart i.val
  have counted : ∀ {enc : (Fin n → ZMod 2) → List α} {c : Fin n → ZMod 2},
      (∀ r, SharesOf shown (enc r) c r) →
      Nat.card {r : Fin n → ZMod 2 // ∀ t ∈ probes, (enc r)[t]? = some (v t)} =
        Nat.card {r : Fin n → ZMod 2 // ∀ s ∈ {s | position s ∈ probes},
          shown (twoShares c r s) = v (position s)} := by
    intro enc c holds
    refine Nat.card_congr (Equiv.subtypeEquivRight fun r => ?_)
    constructor
    · intro seen s probed
      exact Option.some.inj ((holds r s).symm.trans (seen _ probed))
    · intro seen t probed
      have bounded := inside t probed
      let s : Fin n × Bool := (⟨t / 2, by omega⟩, decide (t % 2 = 1))
      have here : position s = t := by
        change 2 * (t / 2) + (decide (t % 2 = 1)).toNat = t
        rcases Nat.mod_two_eq_zero_or_one t with even | odd
        · rw [even]
          simp only [zero_ne_one, decide_false, Bool.toNat_false]
          omega
        · rw [odd]
          simp only [decide_true, Bool.toNat_true]
          omega
      rw [← here]
      refine (holds r s).trans (congrArg some (seen s ?_))
      change position s ∈ probes
      rwa [here]
  rw [counted encodes, counted encodes']
  exact card_twoShares apart' b b' fun s share => shown share = v (position s)

end SimpleOprf.ProbeResilient
