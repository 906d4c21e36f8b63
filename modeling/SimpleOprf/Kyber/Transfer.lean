import SimpleOprf.Kyber.Indcpa

/-!
# Transfers with Kyber

The oblivious transfer over the encryption that it is compiled with. The sender
recovers the receiver's public key byte by byte, so a transfer is correct exactly
when decryption is.

The equivalence names the noise of the very keys, coins and string of the
transfer. All transfers are correct exactly when no choice of them makes a bit
fail.
-/

namespace SimpleOprf.Kyber

open SimpleOprf.Basis SimpleOprf.BaseOt

variable (asm : Assembly) (hashes : Hashes) (unwritten : Vector UInt8 512)

/-- The functions of `indcpa.c`. The callers' arrays for ciphertexts end in bytes that
nobody writes or reads. -/
def indcpa : Indcpa where
  keypair := indcpaKeypair asm hashes
  enc m pk coins := ofBytes ctLength (indcpaEnc asm hashes m pk coins ++ unwritten.toList)
  dec := indcpaDec asm
  randomPK seed1 seed2 := packPk (genmatrix hashes seed1 false ⟨0, by decide⟩) seed2
  pkPlus pk1 pk2 :=
    let (pkpv1, _) := unpackPk pk1
    let (pkpv2, seed) := unpackPk pk2
    packPk (polyvecAdd pkpv1 pkpv2) seed
  pkMinus pk1 pk2 :=
    let (pkpv1, _) := unpackPk pk1
    let (pkpv2, seed) := unpackPk pk2
    packPk (polyvecSub pkpv1 pkpv2) seed
  sha3_256 := hashes.sha3_256

/-! ## Masked keys -/

@[simp] theorem publicSeed_packPk (pk : PolyVec) (seed : Seed) : publicSeed (packPk pk seed) = seed := by
  have packed := unpackPk_packPk pk seed
  rw [unpackPk, Prod.mk.injEq] at packed
  exact packed.2

/-- Packing forgets everything but the residues. -/
theorem packPk_congr {a b : PolyVec} (same : ∀ i, residues (a i) = residues (b i)) (seed : Seed) :
    packPk a seed = packPk b seed := by
  have frozen : ∀ i, (fun n => (freeze (a i n)).toNat) = fun n => (freeze (b i n)).toNat := fun i =>
    funext fun n => congrArg BitVec.toNat (freeze_eq_of_residue (congrFun (same i) n))
  rw [packPk, packPk, polyvecTobytes, polyvecTobytes]
  simp only [polyTobytes, frozen]

/-- Taking a mask off that was put on gives the key. -/
theorem pkPlus_pkMinus (pk mask : PolyVec) (seed seed' : Seed) :
    (indcpa asm hashes unwritten).pkPlus
      ((indcpa asm hashes unwritten).pkMinus (packPk pk seed') (packPk mask seed)) (packPk mask seed) =
      packPk pk seed := by
  simp only [indcpa, unpackPk_packPk]
  apply packPk_congr
  intro i
  funext n
  have small := freeze_lt (pk i n)
  have smallMask := freeze_lt (mask i n)
  have smallDifference := freeze_lt (polyvecSub (fun i n => freeze (pk i n)) (fun i n => freeze (mask i n)) i n)
  have difference : residue (polySub (fun n => freeze (pk i n)) (fun n => freeze (mask i n)) n) =
      residue (freeze (pk i n)) - residue (freeze (mask i n)) := residue_polySub (by omega) (by omega)
  have sum := @residue_polyAdd (fun n => freeze (polyvecSub (fun i n => freeze (pk i n))
    (fun i n => freeze (mask i n)) i n)) (fun n => freeze (mask i n)) n (by omega)
  refine sum.trans ?_
  rw [residue_freeze, polyvecSub, difference, residue_freeze, residue_freeze, sub_add_cancel]
  rfl

/-! ## Transfers -/

/-- What the receiver gets for some random bytes of both parties. -/
def transferred (k : Indcpa) (recver : KyberOTRecver) (entropy : Entropy) (sot : OtString × OtString)
    (entropy' : Entropy) : OtString :=
  let (recver, keys, _) := kyberReceiverMessage k recver entropy
  let (sm, _) := kyberSenderMessage k sot keys entropy'
  (kyberReceiverStrings k recver sm).rot

/-- The random bytes that the sender encrypts the string of a choice with. -/
def coinsFor (b : Bool) (entropy : Entropy) : Seed := if b then entropy.tail.head else entropy.head

/-- A sender that recovers the receiver's key encrypts the chosen string under it. -/
theorem transferred_of_recovered (k : Indcpa) (recver : KyberOTRecver) (entropy : Entropy)
    (sot : OtString × OtString) (entropy' : Entropy) {pk : PublicKey} {sk : SecretKey}
    (pair : k.keypair entropy.head = (pk, sk)) {other h : PublicKey}
    (published : k.randomPK entropy.tail.head (publicSeed pk) = other) (hashed : pkHash k other (publicSeed pk) = h)
    (otherSeed : publicSeed other = publicSeed pk) (ownSeed : publicSeed (k.pkMinus pk h) = publicSeed pk)
    (recovered : k.pkPlus (k.pkMinus pk h) h = pk) :
    transferred k recver entropy sot entropy' =
      k.dec (k.enc (pick recver.b sot) pk (coinsFor recver.b entropy')) sk := by
  obtain ⟨secretKey, rot, b⟩ := recver
  cases b with
  | false =>
    simp only [transferred, kyberReceiverMessage, kyberSenderMessage, kyberReceiverStrings, randombytes,
      pair, published, hashed, pick, coinsFor, Bool.false_eq_true, if_false, ownSeed, recovered]
  | true =>
    simp only [transferred, kyberReceiverMessage, kyberSenderMessage, kyberReceiverStrings, randombytes,
      pair, published, hashed, pick, coinsFor, if_true, otherSeed, recovered]

/-- The chosen string is encrypted under the receiver's own key. -/
theorem transferred_indcpa (recver : KyberOTRecver) (entropy : Entropy) (sot : OtString × OtString)
    (entropy' : Entropy) : transferred (indcpa asm hashes unwritten) recver entropy sot entropy' =
      indcpaDec asm (ofBytes ctLength (indcpaEnc asm hashes (pick recver.b sot)
        (indcpaKeypair asm hashes entropy.head).1 (coinsFor recver.b entropy') ++ unwritten.toList))
        (indcpaKeypair asm hashes entropy.head).2 := by
  let seed := (keySeeds hashes entropy.head).1
  have key : (indcpaKeypair asm hashes entropy.head).1 = packPk (keyPolys asm hashes entropy.head).1 seed := rfl
  have masked : ∀ pk mask : PolyVec, ∃ difference, (indcpa asm hashes unwritten).pkMinus (packPk pk seed)
      (packPk mask seed) = packPk difference seed := by
    intro pk mask
    simp only [indcpa, unpackPk_packPk]
    exact ⟨_, rfl⟩
  have random : ∀ seed1 seed2, (indcpa asm hashes unwritten).randomPK seed1 seed2 =
      packPk (genmatrix hashes seed1 false ⟨0, by decide⟩) seed2 := fun _ _ => rfl
  refine transferred_of_recovered (indcpa asm hashes unwritten) recver entropy sot entropy' rfl rfl rfl ?_ ?_ ?_
  · rw [random, publicSeed_packPk]
  · rw [pkHash, random, key, publicSeed_packPk]
    obtain ⟨difference, masked⟩ := masked (keyPolys asm hashes entropy.head).1 (genmatrix hashes
      ((indcpa asm hashes unwritten).sha3_256 (((indcpa asm hashes unwritten).randomPK entropy.tail.head
        seed).toList.take pkLengthSmall)) false ⟨0, by decide⟩)
    rw [masked, publicSeed_packPk]
  · rw [pkHash, random, key, publicSeed_packPk, pkPlus_pkMinus]

variable {asm hashes} {spectrum : Poly → Fin 256 → Residue}

/-- A transfer delivers the chosen string exactly when all of its bits survive the
noise of the receiver's key and of the sender's ciphertext. -/
theorem transferred_iff (correct : asm.Correct spectrum) (recver : KyberOTRecver) (entropy : Entropy)
    (sot : OtString × OtString) (entropy' : Entropy) :
    transferred (indcpa asm hashes unwritten) recver entropy sot entropy' = pick recver.b sot ↔
      ∀ n, Survives (decryptionNoise asm hashes entropy.head (coinsFor recver.b entropy')
        (pick recver.b sot) n) (messageBit (pick recver.b sot).toList n) := by
  rw [transferred_indcpa]
  exact indcpaDec_iff correct _ _ _ unwritten

/-- Transforms that leave a polynomial as it is, and products by coefficients. -/
def schoolbook : Assembly where
  ntt := id
  invntt := id
  polyvecPointwiseAcc a b := fun n =>
    BitVec.ofNat 16 ((∑ i, negacyclicMul (residues (a i)) (residues (b i))) n).val

/-- The product has the residues of the negacyclic product. -/
theorem residues_schoolbook (a b : PolyVec) (n : Fin 256) :
    residue (schoolbook.polyvecPointwiseAcc a b n) =
      (∑ i, negacyclicMul (residues (a i)) (residues (b i))) n := by
  have canonical := ZMod.val_lt ((∑ i, negacyclicMul (residues (a i)) (residues (b i))) n)
  have fits : ((∑ i, negacyclicMul (residues (a i)) (residues (b i))) n).val < 2 ^ 16 :=
    canonical.trans (by decide)
  rw [residue, schoolbook, BitVec.toNat_ofNat, Nat.mod_eq_of_lt fits, ZMod.natCast_zmod_val]

/-- Schoolbook products meet the specification of the transforms. -/
theorem schoolbook_correct : schoolbook.Correct residues where
  spectrum_congr same := same
  spectrum_ntt _ := rfl
  ntt_lt small n := (small n).trans (by decide)
  product {a b} _ _ := funext fun n => residues_schoolbook a b n
  invntt_lt {a b} _ _ n := by
    have canonical := ZMod.val_lt ((∑ i, negacyclicMul (residues (a i)) (residues (b i))) n)
    have product : (schoolbook.polyvecPointwiseAcc a b n).toNat ≤
        ((∑ i, negacyclicMul (residues (a i)) (residues (b i))) n).val := by
      rw [schoolbook, BitVec.toNat_ofNat]
      exact Nat.mod_le _ _
    exact product.trans (canonical.le.trans (by decide))

/-- A polynomial in 31 of the bytes. -/
def rolling (bytes : List UInt8) (start : Nat) : UInt8 :=
  bytes.foldl (fun h byte => 31 * h + byte) (UInt8.ofNat start)

/-- Hashes that roll over their input, once for each byte of their output. -/
def rollingHashes : Hashes where
  sha3_256 bytes := Vector.ofFn fun i => rolling bytes i
  sha3_512 bytes := Vector.ofFn fun i => rolling bytes i
  shake256 bytes := Vector.ofFn fun i => rolling bytes (7 * i)
  entry seed i j n := Fin.ofNat kyberQ (rolling (seed.toList ++ [i, j]) n).toNat

/-- Their noise is not zero, which is stored as `KYBER_Q`. -/
example : polyGetnoise rollingHashes (Vector.replicate 32 1) 0 1 ≠ 7681#16 := by decide +kernel

/-- The second string of a transfer under these hashes. -/
theorem rolling_transferred_iff :
    transferred (indcpa schoolbook rollingHashes (Vector.replicate _ 0)) ⟨Vector.replicate _ 0,
        Vector.replicate _ 0, true⟩ (Stream'.const (Vector.replicate _ 4))
        (Vector.replicate _ 1, Vector.replicate _ 2) (Stream'.const (Vector.replicate _ 3)) =
      Vector.replicate _ 2 ↔
    ∀ n, Survives (decryptionNoise schoolbook rollingHashes (Vector.replicate _ 4)
      (Vector.replicate _ 3) (Vector.replicate _ 2) n)
      (messageBit (Vector.replicate otLength 2).toList n) :=
  transferred_iff (Vector.replicate _ 0) schoolbook_correct
    ⟨Vector.replicate _ 0, Vector.replicate _ 0, true⟩ (Stream'.const (Vector.replicate _ 4))
    (Vector.replicate _ 1, Vector.replicate _ 2) (Stream'.const (Vector.replicate _ 3))

/-- All transfers are correct exactly when no seeds and no string make a bit fail. -/
theorem indcpa_correct_iff (correct : asm.Correct spectrum) : (indcpa asm hashes unwritten).Correct ↔
    ∀ (buf coins : Seed) (m : OtString) n,
      Survives (decryptionNoise asm hashes buf coins m n) (messageBit m.toList n) := by
  have decrypts : ∀ recver entropy sot entropy',
      transferred (indcpa asm hashes unwritten) recver entropy sot entropy' = pick recver.b sot ↔
      ∀ n, Survives (decryptionNoise asm hashes entropy.head (coinsFor recver.b entropy')
        (pick recver.b sot) n) (messageBit (pick recver.b sot).toList n) := by
    intro recver entropy sot entropy'
    rw [transferred_indcpa]
    exact indcpaDec_iff correct _ _ _ unwritten
  constructor
  · intro all buf coins m
    let recver : KyberOTRecver := ⟨Vector.replicate _ 0, m, false⟩
    exact (decrypts recver (Stream'.const buf) (m, m) (Stream'.const coins)).mp (all recver _ _ _)
  · intro all recver entropy sot entropy'
    exact (decrypts recver entropy sot entropy').mpr (all _ _ _)

end SimpleOprf.Kyber
