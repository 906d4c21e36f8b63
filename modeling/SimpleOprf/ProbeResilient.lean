import SimpleOprf.GcMmo.Garble

/-!
# Probe-resilient input sharing

Each evaluator input bit is split into two shares and the zero label of its
wire into two share labels, so that XOR of the labels of the shares is the
label of the bit.
-/

namespace SimpleOprf.ProbeResilient

open SimpleOprf.Basis SimpleOprf.GcMmo

/-- Two shares for each bit, in adjacent positions. -/
def encodeShares : List UInt8 → Rng → List UInt8 × Rng
  | [], rng => ([], rng)
  | bit :: bits, rng =>
    let r := (rng.head &&& 1).toUInt8
    let (shares, rng) := encodeShares bits rng.tail
    (r :: (r ^^^ (bit &&& 1)) :: shares, rng)

/-- The zero labels of the two share wires. -/
structure ShareLabelPair where
  s0_0 : Block
  s1_0 : Block
deriving DecidableEq, Repr, Inhabited

def makeShareLabels (wire0 delta : Block) (rng : Rng) : ShareLabelPair × Rng :=
  let (s0_0, rng) := randomBlock rng
  let s0_0 := if lsb s0_0 then xorBlock s0_0 delta else s0_0
  ({ s0_0, s1_0 := xorBlock wire0 s0_0 }, rng)

def reconstructLabel (lab0 lab1 : Block) : Block := xorBlock lab0 lab1

@[simp] theorem length_encodeShares (bits : List UInt8) (rng : Rng) :
    (encodeShares bits rng).1.length = 2 * bits.length := by
  induction bits generalizing rng with
  | nil => rfl
  | cons bit bits ih =>
    simp only [encodeShares, List.length_cons, ih]
    omega

private theorem low_bit : ∀ y : UInt64, (y &&& 1).toUInt8 = 0 ∨ (y &&& 1).toUInt8 = 1 := by
  intro y
  have value : (y &&& 1).toUInt8.toNat = y.toNat % 2 := by simp
  rcases Nat.mod_two_eq_zero_or_one y.toNat with even | odd
  · left
    apply UInt8.toNat_inj.mp
    rw [value, even]
    rfl
  · right
    apply UInt8.toNat_inj.mp
    rw [value, odd]
    rfl

/-- The two shares of a bit are bits and sum to it. -/
theorem encodeShares_shares {bits : List UInt8} (isBit : ∀ x ∈ bits, x = 0 ∨ x = 1) (rng : Rng)
    {j : Nat} (inside : j < bits.length) :
    let shares := (encodeShares bits rng).1
    (shares.getD (2 * j) 0 = 0 ∨ shares.getD (2 * j) 0 = 1) ∧
      (shares.getD (2 * j + 1) 0 = 0 ∨ shares.getD (2 * j + 1) 0 = 1) ∧
      shares.getD (2 * j) 0 ^^^ shares.getD (2 * j + 1) 0 = bits.getD j 0 := by
  induction bits generalizing rng j with
  | nil => exact absurd inside (Nat.not_lt_zero j)
  | cons bit bits ih =>
    cases j with
    | zero =>
      have first := low_bit rng.head
      have given := isBit bit List.mem_cons_self
      simp only [encodeShares, Nat.mul_zero, Nat.zero_add, List.getD_cons_zero,
        List.getD_cons_succ]
      rcases first with r | r <;> rcases given with rfl | rfl <;> rw [r] <;> decide
    | succ j =>
      have later := ih (fun x member => isBit x (List.mem_cons_of_mem _ member)) rng.tail
        (Nat.lt_of_succ_lt_succ inside)
      have even : 2 * (j + 1) = 2 * j + 1 + 1 := by omega
      simpa only [encodeShares, even, List.getD_cons_succ] using later

/-- The labels of two shares combine to the label of their sum, whichever
random label the first share got. -/
theorem reconstruct_makeShareLabels (wire0 delta : Block) (rng : Rng) {x y : UInt8}
    (xBit : x = 0 ∨ x = 1) (yBit : y = 0 ∨ y = 1) :
    let pair := (makeShareLabels wire0 delta rng).1
    reconstructLabel (labelForBit pair.s0_0 delta x) (labelForBit pair.s1_0 delta y) =
      labelForBit wire0 delta (x ^^^ y) := by
  have sumBit : x ^^^ y = 0 ∨ x ^^^ y = 1 := by
    rcases xBit with rfl | rfl <;> rcases yBit with rfl | rfl <;> decide
  have shared : ∀ s : Block, labelForBit s delta x + labelForBit (wire0 + s) delta y =
      labelForBit wire0 delta (x ^^^ y) := by
    intro s
    have double : ∀ z : Block, s + (z + s) = z := by
      intro z
      rw [← add_assoc, add_comm s z, Block.add_add_cancel]
    rw [labelForBit_eq_active _ _ xBit, labelForBit_eq_active _ _ yBit,
      labelForBit_eq_active _ _ sumBit, parity_xor, Garbling.active_add, double]
  exact shared _

end SimpleOprf.ProbeResilient
