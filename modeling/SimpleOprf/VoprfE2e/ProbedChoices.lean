import SimpleOprf.Basis.Rows
import SimpleOprf.ProbeResilient.Probes
import SimpleOprf.VoprfE2e.Transmission

/-!
# What probed transfers tell

The choices of a client are the shares of the bits of all its inputs. A set of
transfers that never includes both shares of a bit tells nothing about the inputs.

The inputs are drawn from the same stream as the shares, at fixed places, so that
other share bits leave them as they are.
-/

namespace SimpleOprf.VoprfE2e

open SimpleOprf.Basis SimpleOprf.GcMmo SimpleOprf.PlaintextOprf SimpleOprf.ProbeResilient

/-- Sharing draws once for each bit. -/
theorem encodeShares_rest (bits : List UInt8) (rng : Rng) :
    (encodeShares bits rng).2 = rng.drop bits.length := by
  induction bits generalizing rng with
  | nil => rfl
  | cons bit bits ih => exact ih rng.tail

/-- An input takes 16 draws and the shares of its hash 128. -/
theorem drawInputs_succ (p : Primitives) (count : Nat) (rng : Rng) :
    drawInputs p (count + 1) rng =
      ((drawInput rng).1, (encodeShares (blockToBits128 (h1 p (drawInput rng).1))
        (rng.drop 16)).1) :: drawInputs p count (rng.drop 144) := by
  have behind : (encodeShares (blockToBits128 (h1 p (drawInput rng).1)) (rng.drop 16)).2 =
      rng.drop 144 := by
    rw [encodeShares_rest, length_blockToBits128, Stream'.drop_drop]
  rcases shared : encodeShares (blockToBits128 (h1 p (drawInput rng).1)) (rng.drop 16) with
    ⟨shares, rest⟩
  rw [shared] at behind
  rw [drawInputs, ← behind]
  simp only [drawInput] at shared ⊢
  rw [shared]

/-- Input `k` starts at draw `144 k`, and its shares sixteen draws later. -/
theorem getElem?_drawInputs (p : Primitives) {count k : Nat} (rng : Rng) (inside : k < count) :
    ∃ x shares, (drawInputs p count rng)[k]? = some (x, shares) ∧
      x = (drawInput (rng.drop (144 * k))).1 ∧
      shares = (encodeShares (blockToBits128 (h1 p x)) (rng.drop (144 * k + 16))).1 := by
  induction count generalizing rng k with
  | zero => exact absurd inside (Nat.not_lt_zero k)
  | succ count ih =>
    rw [drawInputs_succ]
    cases k with
    | zero => exact ⟨_, _, rfl, rfl, rfl⟩
    | succ k =>
      obtain ⟨x, shares, present, input, encoded⟩ := ih (rng.drop 144) (Nat.lt_of_succ_lt_succ inside)
      rw [Stream'.drop_drop] at input encoded
      refine ⟨x, shares, present, ?_, ?_⟩
      · rw [input, Nat.mul_succ, Nat.add_comm 144]
      · rw [encoded, Nat.mul_succ, Nat.add_comm 144, Nat.add_right_comm]

/-- The draws with the lowest bits of those for the shares of `m` inputs replaced. -/
def withChoiceBits {m : Nat} (rng : Rng) (r : Fin (128 * m) → ZMod 2) : Rng := fun t =>
  if inside : 16 ≤ t % 144 ∧ t / 144 < m then
    setLow (rng.get t) (r ⟨128 * (t / 144) + (t % 144 - 16), by omega⟩)
  else rng.get t

/-- The bits of the hashes of all inputs. -/
def inputSecrets (p : Primitives) (m : Nat) (rng : Rng) : Fin (128 * m) → ZMod 2 := fun i =>
  parity ((blockToBits128 (h1 p (drawInput (rng.drop (144 * (i.val / 128)))).1)).getD
    (i.val % 128) 0)

/-- Other share bits leave the inputs as they are. -/
theorem withChoiceBits_input {m : Nat} (rng : Rng) (r : Fin (128 * m) → ZMod 2) (k : Nat) :
    (drawInput ((withChoiceBits rng r).drop (144 * k))).1 = (drawInput (rng.drop (144 * k))).1 := by
  simp only [drawInput]
  refine List.map_congr_left fun j member => ?_
  have early := List.mem_range.mp member
  have kept : ¬ (16 ≤ (144 * k + j) % 144 ∧ (144 * k + j) / 144 < m) := by omega
  rw [Stream'.get_drop, Stream'.get_drop]
  change ((if inside : 16 ≤ (144 * k + j) % 144 ∧ (144 * k + j) / 144 < m then _
    else rng.get (144 * k + j)) &&& 0xff).toUInt8 = _
  rw [dif_neg kept]

/-- The first share of a bit is the given one. -/
theorem withChoiceBits_share {m : Nat} (rng : Rng) (r : Fin (128 * m) → ZMod 2)
    (i : Fin (128 * m)) :
    ((((withChoiceBits rng r).drop (144 * (i.val / 128) + 16)).get (i.val % 128)) &&& 1).toUInt8 =
      bitByte (r i) := by
  have bounded := i.isLt
  have inside : 16 ≤ (144 * (i.val / 128) + 16 + i.val % 128) % 144 ∧
      (144 * (i.val / 128) + 16 + i.val % 128) / 144 < m := by omega
  have index : 128 * ((144 * (i.val / 128) + 16 + i.val % 128) / 144) +
      ((144 * (i.val / 128) + 16 + i.val % 128) % 144 - 16) = i.val := by omega
  rw [Stream'.get_drop, low_eq]
  change bitByte (((if inside : 16 ≤ (144 * (i.val / 128) + 16 + i.val % 128) % 144 ∧
      (144 * (i.val / 128) + 16 + i.val % 128) / 144 < m then setLow _ (r ⟨_, _⟩)
    else _ : UInt64).toNat : ZMod 2)) = _
  rw [dif_pos inside, toNat_setLow]
  exact congrArg (fun i => bitByte (r i)) (Fin.ext index)

/-- The choices of a client are the shares of the bits of all its inputs. -/
theorem clientChoices_sharesOf (p : Primitives) (cfg : Config) (rng : Rng)
    (r : Fin (128 * cfg.m.toNat) → ZMod 2) :
    SharesOf (fun share => decide (share = 1)) (clientChoices p cfg (withChoiceBits rng r))
      (inputSecrets p cfg.m.toNat rng) r := by
  rintro ⟨i, second⟩
  have bounded := i.isLt
  obtain ⟨x, shares, present, input, encoded⟩ := getElem?_drawInputs p (withChoiceBits rng r)
    (show i.val / 128 < cfg.m.toNat by omega)
  rw [withChoiceBits_input] at input
  have entry := getElem?_rows (length_shares p cfg.m.toNat (withChoiceBits rng r))
    (show 2 * (i.val % 128) + second.toNat < 256 by cases second <;> simp <;> omega) present
  have position : i.val / 128 * 256 + (2 * (i.val % 128) + second.toNat) =
      2 * i.val + second.toNat := by omega
  rw [position] at entry
  have chosen : (clientChoices p cfg (withChoiceBits rng r))[2 * i.val + second.toNat]? =
      (shares[2 * (i.val % 128) + second.toNat]?).map fun share => share &&& 1 == 1 := by
    rw [clientChoices, List.getElem?_map]
    exact congrArg _ entry
  obtain ⟨first, other⟩ := getElem?_encodeShares
    ((withChoiceBits rng r).drop (144 * (i.val / 128) + 16))
    (show i.val % 128 < (blockToBits128 (h1 p x)).length by rw [length_blockToBits128]; omega)
  rw [withChoiceBits_share] at first other
  rw [← encoded] at first other
  have kept : ∀ bit : ZMod 2, (bitByte bit &&& 1 == 1) = decide (bit = 1) := by decide
  cases second with
  | false =>
    rw [chosen]
    refine (congrArg _ first).trans ?_
    exact congrArg some (kept _)
  | true =>
    rw [chosen]
    refine (congrArg _ other).trans ?_
    rw [and_one_eq, bitByte_xor, input]
    exact congrArg some (kept _)

/-- Positions without both shares of a bit explain every input equally often,
although the two shares of a bit always sum to it; so do the transfers of a whole
client, whatever inputs it drew. -/
theorem probed_shares_tell_nothing (n : Nat) (bits bits' : List UInt8) (length : bits.length = n)
    (length' : bits'.length = n) (isBit : ∀ x ∈ bits, x = 0 ∨ x = 1) :
    (∀ probes : Finset Nat, (∀ t ∈ probes, t < 2 * n) →
      (∀ i, ¬ (2 * i ∈ probes ∧ 2 * i + 1 ∈ probes)) → ∀ (v : Nat → UInt8) (rng : Rng),
      Nat.card {r : Fin n → ZMod 2 //
          ∀ t ∈ probes, (encodeShares bits (withShareBits rng r)).1[t]? = some (v t)} =
        Nat.card {r : Fin n → ZMod 2 //
          ∀ t ∈ probes, (encodeShares bits' (withShareBits rng r)).1[t]? = some (v t)}) ∧
    (∀ rng i, i < n → (encodeShares bits rng).1.getD (2 * i) 0 ^^^
      (encodeShares bits rng).1.getD (2 * i + 1) 0 = bits.getD i 0) ∧
    ∀ (p : Primitives) (cfg : Config) (probes : Finset Nat),
      (∀ t ∈ probes, t < 2 * (128 * cfg.m.toNat)) →
      (∀ i, ¬ (2 * i ∈ probes ∧ 2 * i + 1 ∈ probes)) → ∀ (v : Nat → Bool) (rng rng' : Rng),
      Nat.card {r : Fin (128 * cfg.m.toNat) → ZMod 2 //
          ∀ t ∈ probes, (clientChoices p cfg (withChoiceBits rng r))[t]? = some (v t)} =
        Nat.card {r : Fin (128 * cfg.m.toNat) → ZMod 2 //
          ∀ t ∈ probes, (clientChoices p cfg (withChoiceBits rng' r))[t]? = some (v t)} := by
  refine ⟨fun probes inside apart v rng => ?_, fun rng i inside => ?_,
    fun p cfg probes inside apart v rng rng' => ?_⟩
  · exact card_sharesOf inside apart (encodeShares_sharesOf length rng)
      (encodeShares_sharesOf length' rng) v
  · exact (encodeShares_shares isBit rng (by rwa [length])).2.2
  · exact card_sharesOf inside apart (clientChoices_sharesOf p cfg rng)
      (clientChoices_sharesOf p cfg rng') v

/-- The second share of one bit and the first of the next, for two inputs. -/
theorem inner_probes_tell_nothing :
    Nat.card {r : Fin 2 → ZMod 2 // ∀ t ∈ ({1, 2} : Finset Nat),
        (encodeShares [1, 0] (withShareBits (Stream'.const 6) r)).1[t]? = some 1} =
      Nat.card {r : Fin 2 → ZMod 2 // ∀ t ∈ ({1, 2} : Finset Nat),
        (encodeShares [0, 1] (withShareBits (Stream'.const 6) r)).1[t]? = some 1} ∧
    (encodeShares [1, 0] (Stream'.const 6)).1.getD 0 0 ^^^
      (encodeShares [1, 0] (Stream'.const 6)).1.getD 1 0 = 1 := by
  obtain ⟨counted, summed, -⟩ := probed_shares_tell_nothing 2 [1, 0] [0, 1] rfl rfl (by simp)
  refine ⟨counted {1, 2} (by decide) (fun i => ?_) (fun _ => 1) _, summed _ 0 (by decide)⟩
  simp only [Finset.mem_insert, Finset.mem_singleton]
  omega

end SimpleOprf.VoprfE2e
