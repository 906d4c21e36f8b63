import SimpleOprf.Basis.Negacyclic
import SimpleOprf.BaseOt.Kyber
import SimpleOprf.Kyber.Rounding

/-!
# Encryption

`indcpa.c` for three polynomials to a vector. The transforms in assembly and the
hashes are parameters. A message comes back exactly when no coefficient of the noise
reaches a quarter of the modulus.

The noise is an explicit polynomial in the draws of both parties and the rounding
errors of the ciphertext. Nothing is said of how likely it is to be small.
-/

namespace SimpleOprf.Kyber

open SimpleOprf.Basis SimpleOprf.BaseOt

/-- `ntt.s`, `invntt.s` and `polyvec_pointwise_acc.s`. -/
structure Assembly where
  ntt : Poly → Poly
  invntt : Poly → Poly
  polyvecPointwiseAcc : PolyVec → PolyVec → Poly

/-- `fips202.c`, with the entries that `genmatrix.c` samples for a seed and two indices.
It stores only values below `KYBER_Q`. The calls of `shake256x4` in `fips202x4.c`,
which hashes four inputs at a time, are taken as four calls of `shake256`. -/
structure Hashes where
  sha3_256 : List UInt8 → Seed
  sha3_512 : List UInt8 → Vector UInt8 64
  shake256 : List UInt8 → Vector UInt8 256
  entry : Seed → UInt8 → UInt8 → Fin 256 → Fin kyberQ

/-! ## Noise -/

/-- An instruction on the two bytes of a lane. -/
def bytewise (op : BitVec 8 → BitVec 8 → BitVec 8) (x y : BitVec 16) : BitVec 16 :=
  op (x.extractLsb' 8 8) (y.extractLsb' 8 8) ++ op (x.extractLsb' 0 8) (y.extractLsb' 0 8)

/-- `cbdeta4.s`, by 16-bit lanes. -/
def cbdeta4 (buf : List UInt8) : Poly := fun n =>
  let lane := (buf.getD (2 * (n / 2) + 1) 0).toBitVec ++ (buf.getD (2 * (n / 2)) 0).toBitVec
  let sums := bytewise (· + ·) (lane &&& 0x1111#16) (lane >>> 1 &&& 0x1111#16)
  let sums := bytewise (· + ·) sums (lane >>> 2 &&& 0x1111#16)
  let sums := bytewise (· + ·) sums (lane >>> 3 &&& 0x1111#16)
  let differences := bytewise (· - ·) (sums &&& 0x0f0f#16) (sums >>> 4 &&& 0x0f0f#16)
  (differences.extractLsb' (8 * (n % 2)) 8).signExtend 16 + 7681#16

/-- `poly_getnoise`, and each of the four polynomials of `poly_getnoise4x`. -/
def polyGetnoise (hashes : Hashes) (seed : Seed) (nonce : Nat) : Poly :=
  cbdeta4 (hashes.shake256 (seed.toList ++ [UInt8.ofNat nonce])).toList

/-- Each byte of the result is the operation on that byte. -/
theorem extractLsb'_bytewise (op : BitVec 8 → BitVec 8 → BitVec 8) (x y : BitVec 16) {k : Nat} (byte : k < 2) :
    (bytewise op x y).extractLsb' (8 * k) 8 = op (x.extractLsb' (8 * k) 8) (y.extractLsb' (8 * k) 8) := by
  obtain rfl | rfl : k = 0 ∨ k = 1 := by omega
  · exact BitVec.extractLsb'_append_eq_right
  · exact BitVec.extractLsb'_append_eq_left

/-- A byte of a lane that is masked to its nibbles. -/
theorem nibble_lt (x : BitVec 16) {k : Nat} (byte : k < 2) :
    ((x &&& 0x0f0f#16).extractLsb' (8 * k) 8).toNat < 16 := by
  have masked : (x &&& 0x0f0f#16).extractLsb' (8 * k) 8 = x.extractLsb' (8 * k) 8 &&& 0x0f#8 := by
    rw [BitVec.extractLsb'_and]
    obtain rfl | rfl : k = 0 ∨ k = 1 := by omega
    · rfl
    · rfl
  rw [masked, BitVec.toNat_and]
  exact Nat.and_lt_two_pow _ (show (0x0f#8).toNat < 2 ^ 4 by decide)

/-- The noise of a coefficient is the difference of two nibbles. -/
theorem cbdeta4_le (buf : List UInt8) (n : Fin 256) : (cbdeta4 buf n).toNat ≤ 7696 := by
  have difference : ∀ low high : Fin 16,
      ((BitVec.ofNat 8 low - BitVec.ofNat 8 high).signExtend 16 + 7681#16).toNat ≤ 7696 := by decide
  have byte : n.val % 2 < 2 := Nat.mod_lt _ (by decide)
  simp only [cbdeta4]
  generalize bytewise _ (bytewise _ _ _) _ = sums
  rw [extractLsb'_bytewise _ _ _ byte]
  have values := difference ⟨_, nibble_lt sums byte⟩ ⟨_, nibble_lt (sums >>> 4) byte⟩
  simp only [BitVec.ofNat_toNat, BitVec.setWidth_eq] at values
  exact values

/-- A noise coefficient lies within 15 of `KYBER_Q`. -/
theorem polyGetnoise_le (hashes : Hashes) (seed : Seed) (nonce : Nat) (n : Fin 256) :
    (polyGetnoise hashes seed nonce n).toNat ≤ 7696 := cbdeta4_le _ n

/-! ## The operations -/

/-- Row `i` of the matrix of a seed, or of its transpose. -/
def genmatrix (hashes : Hashes) (seed : Seed) (transposed : Bool) (i : Fin kyberK) : PolyVec := fun j n =>
  let value := if transposed then hashes.entry seed (UInt8.ofNat i) (UInt8.ofNat j) n
    else hashes.entry seed (UInt8.ofNat j) (UInt8.ofNat i) n
  BitVec.ofNat 16 value

/-- `polyvec_add`. -/
def polyvecAdd (a b : PolyVec) : PolyVec := fun i => polyAdd (a i) (b i)

/-- `polyvec_sub`. -/
def polyvecSub (a b : PolyVec) : PolyVec := fun i => polySub (a i) (b i)

/-- `pack_pk`: the vector, then the public seed. -/
def packPk (pk : PolyVec) (seed : Seed) : PublicKey := ofBytes pkLength (polyvecTobytes pk ++ seed.toList)

/-- `unpack_pk`. -/
def unpackPk (packedpk : PublicKey) : PolyVec × Seed :=
  (polyvecFrombytes packedpk.toList, publicSeed packedpk)

/-- `pack_sk`. -/
def packSk (sk : PolyVec) : SecretKey := ofBytes skLength (polyvecTobytes sk)

/-- `unpack_sk`. -/
def unpackSk (packedsk : SecretKey) : PolyVec := polyvecFrombytes packedsk.toList

/-- `pack_ciphertext`: the compressed vector, then the compressed polynomial. -/
def packCiphertext (b : PolyVec) (v : Poly) : List UInt8 := polyvecCompress b ++ polyCompress v

/-- `unpack_ciphertext`. The polynomial starts behind the vector's 1056 bytes. -/
def unpackCiphertext (c : Ciphertext) : PolyVec × Poly :=
  (polyvecDecompress c.toList, polyDecompress (c.toList.drop 1056))

section Operations

variable (asm : Assembly) (hashes : Hashes)

/-- The seeds of a key pair: that of the matrix and that of the noise. -/
def keySeeds (buf : Seed) : Seed × Seed :=
  let digest := (hashes.sha3_512 buf.toList).toList
  (ofBytes 32 digest, ofBytes 32 (digest.drop 32))

/-- `KYBER_K` noise polynomials with consecutive nonces. -/
def noiseVec (seed : Seed) (nonce : Nat) : PolyVec := fun i => polyGetnoise hashes seed (nonce + i)

/-- The polynomials of a key pair: the public ones and the transformed secret. -/
def keyPolys (buf : Seed) : PolyVec × PolyVec :=
  let (publicseed, noiseseed) := keySeeds hashes buf
  let a := genmatrix hashes publicseed false
  let skpv := fun i => asm.ntt (noiseVec hashes noiseseed 0 i)
  let pkpv := fun i => asm.invntt (asm.polyvecPointwiseAcc skpv (a i))
  (polyvecAdd pkpv (noiseVec hashes noiseseed kyberK), skpv)

/-- `indcpa_keypair`, whose only randomness is `buf`. -/
def indcpaKeypair (buf : Seed) : PublicKey × SecretKey :=
  let (pkpv, skpv) := keyPolys asm hashes buf
  (packPk pkpv (keySeeds hashes buf).1, packSk skpv)

/-- `bp` in `indcpa_enc`. -/
def ciphertextVec (seed coins : Seed) : PolyVec :=
  let sp := fun i => asm.ntt (noiseVec hashes coins 0 i)
  let bp := fun i => asm.invntt (asm.polyvecPointwiseAcc sp (genmatrix hashes seed true i))
  polyvecAdd bp (noiseVec hashes coins kyberK)

/-- `v` in `indcpa_enc`. -/
def ciphertextPoly (m : List UInt8) (pkpv : PolyVec) (coins : Seed) : Poly :=
  let pkpv := fun i => asm.ntt (pkpv i)
  let sp := fun i => asm.ntt (noiseVec hashes coins 0 i)
  let v := asm.invntt (asm.polyvecPointwiseAcc pkpv sp)
  let v := polyAdd v (polyGetnoise hashes coins (2 * kyberK))
  polyAdd v (polyFrommsg m)

/-- The bytes that `indcpa_enc` writes; its caller's array is longer. -/
def indcpaEnc (m : OtString) (pk : PublicKey) (coins : Seed) : List UInt8 :=
  let (pkpv, seed) := unpackPk pk
  packCiphertext (ciphertextVec asm hashes seed coins) (ciphertextPoly asm hashes m.toList pkpv coins)

/-- `indcpa_dec`: the message bits of the polynomial minus the product of the vector
and the secret key. -/
def indcpaDec (c : Ciphertext) (sk : SecretKey) : OtString :=
  let (bp, v) := unpackCiphertext c
  let skpv := unpackSk sk
  let bp := fun i => asm.ntt (bp i)
  let mp := asm.invntt (asm.polyvecPointwiseAcc skpv bp)
  ofBytes otLength (polyTomsg (polySub mp v))

end Operations

/-! ## What the assembly computes -/

instance : Fact (1 < kyberQ) := ⟨by decide⟩

/-- The residues of all coefficients. -/
def residues (a : Poly) : Fin 256 → Residue := fun n => residue (a n)

/-- The transforms turn products of polynomials into pointwise ones, on words that are
not negative as signed ones. `spectrum` reads a transformed polynomial. -/
structure Assembly.Correct (asm : Assembly) (spectrum : Poly → Fin 256 → Residue) : Prop where
  spectrum_congr : ∀ {a b}, residues a = residues b → spectrum a = spectrum b
  spectrum_ntt : ∀ {a : Poly}, (∀ n, (a n).toNat < 8192) → spectrum (asm.ntt a) = residues a
  ntt_lt : ∀ {a : Poly}, (∀ n, (a n).toNat < 8192) → ∀ n, (asm.ntt a n).toNat < 32768
  product : ∀ {a b : PolyVec}, (∀ i n, (a i n).toNat < 32768) → (∀ i n, (b i n).toNat < 32768) →
    residues (asm.invntt (asm.polyvecPointwiseAcc a b)) =
      ∑ i, negacyclicMul (spectrum (a i)) (spectrum (b i))
  invntt_lt : ∀ {a b : PolyVec}, (∀ i n, (a i n).toNat < 32768) → (∀ i n, (b i n).toNat < 32768) →
    ∀ n, (asm.invntt (asm.polyvecPointwiseAcc a b) n).toNat ≤ 2 * kyberQ

/-! ## Reading keys and ciphertexts -/

/-- Freezing a polynomial keeps its residues. -/
theorem residues_freeze (a : Poly) : residues (fun n => freeze (a n)) = residues a := by
  funext n
  exact residue_freeze (a n)

/-- A public key is read back with its coefficients frozen. -/
theorem unpackPk_packPk (pk : PolyVec) (seed : Seed) :
    unpackPk (packPk pk seed) = (fun i n => freeze (pk i n), seed) := by
  have bytes : (packPk pk seed).toList = polyvecTobytes pk ++ seed.toList := by
    apply toList_ofBytes
    rw [List.length_append, length_polyvecTobytes, Vector.length_toList]
    rfl
  rw [unpackPk, publicSeed, bytes, polyvecFrombytes_polyvecTobytes, pkLengthSmall,
    List.drop_left' (length_polyvecTobytes pk), ofBytes_toList]

/-- So is a secret key. -/
theorem unpackSk_packSk (sk : PolyVec) : unpackSk (packSk sk) = fun i n => freeze (sk i n) := by
  have bytes : (packSk sk).toList = polyvecTobytes sk ++ [] := by
    rw [List.append_nil]
    exact toList_ofBytes (length_polyvecTobytes sk)
  rw [unpackSk, bytes, polyvecFrombytes_polyvecTobytes]

/-- The array of a ciphertext is longer than what is written to it. -/
theorem unpackCiphertext_packCiphertext (b : PolyVec) (v : Poly) (unwritten : Vector UInt8 512) :
    unpackCiphertext (ofBytes ctLength (packCiphertext b v ++ unwritten.toList)) =
      (fun i n => decompressed 11 (compressed 11 (b i n)), fun n => decompressed 3 (compressed 3 (v n))) := by
  have bytes : (ofBytes ctLength (packCiphertext b v ++ unwritten.toList)).toList =
      polyvecCompress b ++ (polyCompress v ++ unwritten.toList) := by
    rw [packCiphertext, List.append_assoc]
    apply toList_ofBytes
    rw [List.length_append, List.length_append, length_polyvecCompress, Vector.length_toList, polyCompress,
      group3.length_store]
    rfl
  rw [unpackCiphertext, bytes, polyvecDecompress_polyvecCompress,
    List.drop_left' (length_polyvecCompress b), polyDecompress_polyCompress]

/-- Decompressed coefficients have 13 bits. -/
theorem decompressed_lt (d : Nat) (x : BitVec 16) : (decompressed d (compressed d x)).toNat < 8192 := by
  have positive : 0 < 2 ^ d := Nat.two_pow_pos d
  have half : 2 ^ (d - 1) ≤ 2 ^ d := Nat.pow_le_pow_right (by decide) (Nat.sub_le d 1)
  have small := compressed_lt d x
  rw [toNat_decompressed small, Nat.div_lt_iff_lt_mul positive]
  omega

/-- The entries of the matrix have 15 bits. -/
theorem genmatrix_lt (hashes : Hashes) (seed : Seed) (transposed : Bool) (i j : Fin kyberK) (n : Fin 256) :
    (genmatrix hashes seed transposed i j n).toNat < 32768 := by
  have below : ∀ value : Fin kyberQ, (BitVec.ofNat 16 value).toNat < 32768 := by
    intro value
    have canonical : value.val < 7681 := value.isLt
    rw [BitVec.toNat_ofNat]
    omega
  simp only [genmatrix]
  split
  · exact below _
  · exact below _

/-! ## Decryption -/

/-- The public parts cancel, as products of matrices and vectors are associative. -/
theorem public_parts_cancel {R ι : Type} [CommRing R] [Fintype ι] (s e r e' du : ι → R) (a : ι → ι → R)
    (e'' dv k : R) :
    ∑ i, s i * (∑ j, r j * a j i + e' i + du i) - (∑ i, (∑ j, s j * a i j + e i) * r i + e'' + k + dv) =
      -(∑ i, e i * r i + e'' + dv - ∑ i, s i * (e' i + du i) + k) := by
  have swapped : ∑ i, ∑ j, s i * (r j * a j i) = ∑ i, ∑ j, s j * a i j * r i := by
    rw [Finset.sum_comm]
    refine Finset.sum_congr rfl fun j _ => Finset.sum_congr rfl fun i _ => ?_
    ring
  simp only [mul_add, add_mul, Finset.sum_add_distrib, Finset.mul_sum, Finset.sum_mul, swapped]
  ring

/-- The noise of a coefficient leaves a bit as it is: a set bit, which is half a step
above the middle, bears less noise upwards. -/
def Survives (noise : Residue) (bit : Bool) : Prop :=
  -1920 ≤ noise.valMinAbs ∧ noise.valMinAbs + bit.toNat ≤ 1920

/-- A coefficient at one of the two message values plus noise is read as its bit
exactly when the bit survives. -/
theorem rounded_iff (noise : Residue) (bit : Bool) {x : Residue}
    (shifted : x = -(noise + ((if bit then 3841 else 0 : Nat) : Residue))) :
    decide (1921 ≤ x.val ∧ x.val ≤ 5760) = bit ↔ Survives noise bit := by
  obtain ⟨k, represented⟩ : ∃ k, noise.valMinAbs = k := ⟨_, rfl⟩
  have inside : -3840 ≤ k ∧ k ≤ 3840 := by
    have interval := ZMod.valMinAbs_mem_Ioc noise
    rw [represented, show ((kyberQ : Nat) : ℤ) = 7681 from rfl, Set.mem_Ioc] at interval
    omega
  have value : (x.val : ℤ) = (-(k + (if bit then 3841 else 0 : Nat))) % 7681 := by
    have cast : x = ((-(k + (if bit then 3841 else 0 : Nat)) : ℤ) : Residue) := by
      rw [shifted, Int.cast_neg, Int.cast_add, Int.cast_natCast, ← represented, ZMod.coe_valMinAbs]
    rw [cast, ZMod.val_intCast]
    rfl
  rw [Survives, represented]
  cases bit with
  | false =>
    simp only [Bool.false_eq_true, if_false, decide_eq_false_iff_not, Bool.toNat_false] at *
    omega
  | true =>
    simp only [if_true, decide_eq_true_eq, Bool.toNat_true] at *
    omega

section Decryption

variable (asm : Assembly) (hashes : Hashes)

/-- What the compression of a polynomial adds to its coefficients. -/
def roundingErrors (d : Nat) (a : Poly) : Fin 256 → Residue := fun n => roundingError d (a n)

/-- What decryption has to round away: the noise of both parties and what the
compression of the ciphertext adds to it. -/
def decryptionNoise (buf coins : Seed) (m : OtString) : Fin 256 → Residue :=
  let noiseseed := (keySeeds hashes buf).2
  let (pkpv, seed) := unpackPk (indcpaKeypair asm hashes buf).1
  let s := noiseVec hashes noiseseed 0
  let e := noiseVec hashes noiseseed kyberK
  let sp := noiseVec hashes coins 0
  let ep := noiseVec hashes coins kyberK
  let epp := polyGetnoise hashes coins (2 * kyberK)
  ∑ i, negacyclicMul (residues (e i)) (residues (sp i)) + residues epp +
    roundingErrors 3 (ciphertextPoly asm hashes m.toList pkpv coins) -
    ∑ i, negacyclicMul (residues (s i))
      (residues (ep i) + roundingErrors 11 (ciphertextVec asm hashes seed coins i))

/-- Noise coefficients have 13 bits. -/
theorem noise_lt (seed : Seed) (nonce : Nat) (i : Fin kyberK) (n : Fin 256) :
    (noiseVec hashes seed nonce i n).toNat < 8192 :=
  (polyGetnoise_le hashes seed (nonce + i) n).trans_lt (by decide)

/-- A compressed polynomial is read back with its rounding errors. -/
theorem residues_decompressed (d : Nat) (a : Poly) :
    residues (fun n => decompressed d (compressed d (a n))) = residues a + roundingErrors d a := by
  funext n
  simp only [residues, roundingErrors, roundingError, Pi.add_apply, add_sub_cancel]

variable {asm hashes} {spectrum : Poly → Fin 256 → Residue} (correct : asm.Correct spectrum)
include correct

/-- A vector that is transformed and multiplied with one that is transformed already. -/
theorem residues_product {p b : PolyVec} (small : ∀ i n, (p i n).toNat < 8192)
    (small' : ∀ i n, (b i n).toNat < 32768) :
    residues (asm.invntt (asm.polyvecPointwiseAcc (fun i => asm.ntt (p i)) b)) =
      ∑ i, negacyclicMul (residues (p i)) (spectrum (b i)) := by
  rw [correct.product (fun i => correct.ntt_lt (small i)) small']
  exact Finset.sum_congr rfl fun i _ => by rw [correct.spectrum_ntt (small i)]

/-- Adding noise to a product. -/
theorem residues_product_add {p b : PolyVec} {c : Poly} (small : ∀ i n, (p i n).toNat < 8192)
    (small' : ∀ i n, (b i n).toNat < 32768) (small'' : ∀ n, (c n).toNat < 8192) :
    residues (polyAdd (asm.invntt (asm.polyvecPointwiseAcc (fun i => asm.ntt (p i)) b)) c) =
      ∑ i, negacyclicMul (residues (p i)) (spectrum (b i)) + residues c := by
  rw [← residues_product correct small small']
  funext n
  have product := correct.invntt_lt (fun i => correct.ntt_lt (small i)) small' n
  have noise := small'' n
  exact residue_polyAdd (by simp only [kyberQ] at product; omega)

/-- The public key is the matrix times the secret vector, plus noise. -/
theorem residues_publicKey (buf : Seed) (i : Fin kyberK) :
    residues ((keyPolys asm hashes buf).1 i) =
      ∑ j, negacyclicMul (residues (noiseVec hashes (keySeeds hashes buf).2 0 j))
        (spectrum (genmatrix hashes (keySeeds hashes buf).1 false i j)) +
      residues (noiseVec hashes (keySeeds hashes buf).2 kyberK i) :=
  residues_product_add correct (noise_lt hashes _ 0) (genmatrix_lt hashes _ false i)
    (noise_lt hashes _ kyberK i)

/-- The ciphertext vector is the transposed matrix times the sender's vector, plus
noise. -/
theorem residues_ciphertextVec (seed coins : Seed) (i : Fin kyberK) :
    residues (ciphertextVec asm hashes seed coins i) =
      ∑ j, negacyclicMul (residues (noiseVec hashes coins 0 j)) (spectrum (genmatrix hashes seed true i j)) +
        residues (noiseVec hashes coins kyberK i) :=
  residues_product_add correct (noise_lt hashes coins 0) (genmatrix_lt hashes seed true i)
    (noise_lt hashes coins kyberK i)

/-- The ciphertext polynomial is the public key times that vector, plus noise and the
message. -/
theorem residues_ciphertextPoly (m : List UInt8) {pkpv : PolyVec} (small : ∀ i n, (pkpv i n).toNat < 8192)
    (coins : Seed) : residues (ciphertextPoly asm hashes m pkpv coins) =
      ∑ i, negacyclicMul (residues (pkpv i)) (residues (noiseVec hashes coins 0 i)) +
        residues (polyGetnoise hashes coins (2 * kyberK)) + residues (polyFrommsg m) := by
  have noise := noise_lt hashes coins 0
  have product := residues_product_add correct small (fun i => correct.ntt_lt (noise i))
    fun n => (polyGetnoise_le hashes coins (2 * kyberK) n).trans_lt (by decide)
  simp only [correct.spectrum_ntt (noise _)] at product
  rw [← product]
  funext n
  have first := barrettReduce_le (asm.invntt (asm.polyvecPointwiseAcc (fun i => asm.ntt (pkpv i))
    fun i => asm.ntt (noiseVec hashes coins 0 i)) n + polyGetnoise hashes coins (2 * kyberK) n)
  have second : (polyFrommsg m n).toNat ≤ 3841 := by
    rw [toNat_polyFrommsg]
    split <;> omega
  exact residue_polyAdd (by rw [polyAdd]; omega)

/-- The polynomial that decryption rounds is the negated message with the noise. -/
theorem residues_decrypted (buf coins : Seed) (m : OtString) {pkpv : PolyVec} {seed : Seed}
    (key : unpackPk (indcpaKeypair asm hashes buf).1 = (pkpv, seed)) :
    residues (polySub
      (asm.invntt (asm.polyvecPointwiseAcc (fun i n => freeze ((keyPolys asm hashes buf).2 i n)) fun i =>
        asm.ntt fun n => decompressed 11 (compressed 11 (ciphertextVec asm hashes seed coins i n))))
      fun n => decompressed 3 (compressed 3 (ciphertextPoly asm hashes m.toList pkpv coins n))) =
    -(decryptionNoise asm hashes buf coins m + residues (polyFrommsg m.toList)) := by
  obtain ⟨vector, own⟩ : pkpv = (fun i n => freeze ((keyPolys asm hashes buf).1 i n)) ∧
      seed = (keySeeds hashes buf).1 := by
    have packed := (unpackPk_packPk (keyPolys asm hashes buf).1 (keySeeds hashes buf).1).symm.trans key
    exact ⟨(congrArg Prod.fst packed).symm, (congrArg Prod.snd packed).symm⟩
  have noise := noise_lt hashes (keySeeds hashes buf).2 0
  have canonical : ∀ i n, (pkpv i n).toNat < 8192 := fun i n => by
    rw [vector]
    exact (freeze_lt _).trans (by decide)
  have secret : ∀ i n, (freeze ((keyPolys asm hashes buf).2 i n)).toNat < 32768 := fun i n =>
    (freeze_lt _).trans (by decide)
  have received : ∀ i n, (asm.ntt (fun n => decompressed 11 (compressed 11
      (ciphertextVec asm hashes seed coins i n))) n).toNat < 32768 := fun i =>
    correct.ntt_lt fun n => decompressed_lt 11 _
  have product := correct.product secret received
  have bounds := correct.invntt_lt secret received
  have spectra : ∀ i, spectrum (fun n => freeze ((keyPolys asm hashes buf).2 i n)) =
      residues (noiseVec hashes (keySeeds hashes buf).2 0 i) := fun i =>
    (correct.spectrum_congr (residues_freeze _)).trans (correct.spectrum_ntt (noise i))
  simp only [spectra, correct.spectrum_ntt (fun _ => decompressed_lt 11 _), residues_decompressed] at product
  have difference : ∀ mp v : Poly, (∀ n, (mp n).toNat ≤ 2 * kyberQ) → (∀ n, (v n).toNat < 8192) →
      residues (polySub mp v) = residues mp - residues v := by
    intro mp v large small
    funext n
    have first := large n
    have second := small n
    simp only [kyberQ] at first
    exact residue_polySub (by omega) (by omega)
  rw [difference _ _ bounds fun n => decompressed_lt 3 _, product, residues_decompressed,
    residues_ciphertextPoly correct m.toList canonical, decryptionNoise, key]
  simp only [residues_ciphertextVec correct]
  apply (Negacyclic.ofCoeffs (A := Residue) (n := 256)).injective
  have publicKey : ∀ i, residues (pkpv i) =
      ∑ j, negacyclicMul (residues (noiseVec hashes (keySeeds hashes buf).2 0 j))
        (spectrum (genmatrix hashes seed false i j)) +
      residues (noiseVec hashes (keySeeds hashes buf).2 kyberK i) := fun i => by
    rw [vector, own, residues_freeze]
    exact residues_publicKey correct buf i
  simp only [publicKey, map_sub, map_add, map_neg, map_sum, Negacyclic.ofCoeffs_mul]
  exact public_parts_cancel _ _ _ _ _ _ _ _ _

/-- A message comes back exactly when every bit survives its noise. -/
theorem indcpaDec_iff (buf coins : Seed) (m : OtString) (unwritten : Vector UInt8 512) :
    indcpaDec asm (ofBytes ctLength (indcpaEnc asm hashes m (indcpaKeypair asm hashes buf).1 coins ++
      unwritten.toList)) (indcpaKeypair asm hashes buf).2 = m ↔
    ∀ n, Survives (decryptionNoise asm hashes buf coins m n) (messageBit m.toList n) := by
  obtain ⟨pkpv, seed, key⟩ : ∃ pkpv seed, unpackPk (indcpaKeypair asm hashes buf).1 = (pkpv, seed) := ⟨_, _, rfl⟩
  have secretKey : unpackSk (indcpaKeypair asm hashes buf).2 =
      fun i n => freeze ((keyPolys asm hashes buf).2 i n) := unpackSk_packSk _
  have decrypted := residues_decrypted correct buf coins m key
  set mp := polySub (asm.invntt (asm.polyvecPointwiseAcc
    (fun i n => freeze ((keyPolys asm hashes buf).2 i n)) fun i =>
      asm.ntt fun n => decompressed 11 (compressed 11 (ciphertextVec asm hashes seed coins i n))))
    fun n => decompressed 3 (compressed 3 (ciphertextPoly asm hashes m.toList pkpv coins n)) with rounded
  have message : indcpaDec asm (ofBytes ctLength (indcpaEnc asm hashes m (indcpaKeypair asm hashes buf).1
      coins ++ unwritten.toList)) (indcpaKeypair asm hashes buf).2 = ofBytes otLength (polyTomsg mp) := by
    simp only [indcpaDec, indcpaEnc, key, unpackCiphertext_packCiphertext, secretKey, rounded]
  have survives : ∀ n : Fin 256, messageBit (polyTomsg mp) n = messageBit m.toList n ↔
      Survives (decryptionNoise asm hashes buf coins m n) (messageBit m.toList n) := by
    intro n
    have coefficient : residue (mp n) =
        -(decryptionNoise asm hashes buf coins m n + residue (polyFrommsg m.toList n)) := congrFun decrypted n
    have bit : residue (polyFrommsg m.toList n) =
        ((if messageBit m.toList n then 3841 else 0 : Nat) : Residue) := by
      rw [residue, toNat_polyFrommsg]
    rw [bit] at coefficient
    rw [messageBit_polyTomsg]
    exact rounded_iff _ _ coefficient
  have bytes : (ofBytes otLength (polyTomsg mp)).toList = polyTomsg mp :=
    toList_ofBytes (length_polyTomsg mp)
  rw [message]
  constructor
  · intro same n
    have bits : messageBit (polyTomsg mp) n = messageBit m.toList n := by rw [← bytes, same]
    exact (survives n).mp bits
  · intro all
    have same : polyTomsg mp = m.toList :=
      eq_of_messageBit (length_polyTomsg mp) m.length_toList fun n => (survives n).mpr (all n)
    rw [same, ofBytes_toList]

end Decryption

end SimpleOprf.Kyber
