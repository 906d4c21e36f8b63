import Mathlib.Data.Stream.Init
import SimpleOprf.Basis.LittleEndian

/-!
# One Kyber oblivious transfer

`KyberOT.c`: the receiver publishes two public keys, one of which it can open,
and the sender encrypts one string under each. The lattice code below is a
parameter; all calls of `randombytes` in these functions ask for 32 bytes.

`Indcpa` collects the functions of `indcpa.c` and the hash. `Correct` says that
a transfer gives the receiver the string at its choice bit, for all keys and
coins.
-/

namespace SimpleOprf.BaseOt

open SimpleOprf.Basis

/-- `PKlengthsmall`, the packed polynomial vector of a public key. -/
def pkLengthSmall : Nat := 1248

/-- `PKlength`: the packed vector and the public seed. -/
def pkLength : Nat := 1280

/-- `SK_LENGTH`. -/
def skLength : Nat := 1248

/-- `CT_LENGTH`. -/
def ctLength : Nat := 1664

/-- `OT_LENGTH`. -/
def otLength : Nat := 32

/-- Thirty-two bytes of `randombytes`. -/
abbrev Seed := Vector UInt8 32

/-- A public key, as it is sent. -/
abbrev PublicKey := Vector UInt8 pkLength

/-- A packed secret key. -/
abbrev SecretKey := Vector UInt8 skLength

/-- A ciphertext, as it is sent. -/
abbrev Ciphertext := Vector UInt8 ctLength

/-- A string that is transferred. -/
abbrev OtString := Vector UInt8 otLength

/-- The entry of a two-element array at a choice bit. -/
def pick {α : Type} (b : Bool) (pair : α × α) : α := if b then pair.2 else pair.1

/-- The results that `randombytes` has yet to return. -/
abbrev Entropy := Stream' Seed

/-- The next block of the entropy. -/
def randombytes (entropy : Entropy) : Seed × Entropy := (entropy.head, entropy.tail)

/-- The functions of `indcpa.c` and `fips202.c`; `keypair` takes the bytes it draws. -/
structure Indcpa where
  keypair : Seed → PublicKey × SecretKey
  enc : OtString → PublicKey → Seed → Ciphertext
  dec : Ciphertext → SecretKey → OtString
  randomPK : Seed → Seed → PublicKey
  pkPlus : PublicKey → PublicKey → PublicKey
  pkMinus : PublicKey → PublicKey → PublicKey
  sha3_256 : List UInt8 → Seed

/-- `KYBEROT_RECVER`: the secret key, the string opened last and the choice bit. -/
structure KyberOTRecver where
  secretKey : SecretKey
  rot : OtString
  b : Bool

variable (k : Indcpa)

/-- The seed behind the packed vector of a public key. -/
def publicSeed (pk : PublicKey) : Seed := ofBytes 32 (pk.toList.drop pkLengthSmall)

/-- `pkHash`: a random key from the hash of another key, under the same public seed. -/
def pkHash (pk : PublicKey) (publicseed : Seed) : PublicKey :=
  k.randomPK (k.sha3_256 (pk.toList.take pkLengthSmall)) publicseed

/-- The two keys of a receiver: it can open the one at its choice bit. -/
def kyberReceiverMessage (recver : KyberOTRecver) (entropy : Entropy) :
    KyberOTRecver × (PublicKey × PublicKey) × Entropy :=
  let (buf, entropy) := randombytes entropy
  let (pk, secretKey) := k.keypair buf
  let (seed, entropy) := randombytes entropy
  let other := k.randomPK seed (publicSeed pk)
  let h := pkHash k other (publicSeed pk)
  let own := k.pkMinus pk h
  ({ recver with secretKey }, if recver.b then (other, own) else (own, other), entropy)

/-- `KyberSenderMessage`: both strings, each under the key that the receiver's pair
stands for. -/
def kyberSenderMessage (sot : OtString × OtString) (keys : PublicKey × PublicKey)
    (entropy : Entropy) : (Ciphertext × Ciphertext) × Entropy :=
  let (coins0, entropy) := randombytes entropy
  let pk0 := k.pkPlus keys.1 (pkHash k keys.2 (publicSeed keys.1))
  let sm0 := k.enc sot.1 pk0 coins0
  let (coins1, entropy) := randombytes entropy
  let pk1 := k.pkPlus keys.2 (pkHash k keys.1 (publicSeed keys.1))
  let sm1 := k.enc sot.2 pk1 coins1
  ((sm0, sm1), entropy)

/-- `KyberReceiverStrings`: the ciphertext at the choice bit, opened with the secret
key. -/
def kyberReceiverStrings (recver : KyberOTRecver) (sm : Ciphertext × Ciphertext) : KyberOTRecver :=
  { recver with rot := k.dec (pick recver.b sm) recver.secretKey }

/-- A single transfer is correct: with the secret key of the matching first
message the receiver opens the string at its choice bit. -/
def Indcpa.Correct : Prop :=
  ∀ recver entropy sot entropy',
    let (recver, keys, _) := kyberReceiverMessage k recver entropy
    let (sm, _) := kyberSenderMessage k sot keys entropy'
    (kyberReceiverStrings k recver sm).rot = pick recver.b sot

/-- A ciphertext that carries its string in the open. -/
def transparent : Indcpa where
  keypair _ := (Vector.replicate _ 0, Vector.replicate _ 0)
  enc sot _ _ := ofBytes ctLength sot.toList
  dec sm _ := ofBytes otLength sm.toList
  randomPK _ _ := Vector.replicate _ 0
  pkPlus pk _ := pk
  pkMinus pk _ := pk
  sha3_256 _ := Vector.replicate _ 0

/-- Decryption takes back the string from the front of the ciphertext. -/
theorem transparent_dec_enc (sot : OtString) (pk : PublicKey) (coins : Seed) (sk : SecretKey) :
    transparent.dec (transparent.enc sot pk coins) sk = sot := by
  apply Vector.ext
  intro j inside
  have shorter : otLength < ctLength := by decide
  simp [transparent, ofBytes, lt_trans inside shorter]

/-- Transfers with it are correct. -/
theorem transparent_correct : transparent.Correct := by
  rintro ⟨secretKey, rot, b⟩ entropy sot entropy'
  let pk : PublicKey := Vector.replicate _ 0
  let coins : Seed := Vector.replicate _ 0
  cases b with
  | false => exact transparent_dec_enc sot.1 pk coins secretKey
  | true => exact transparent_dec_enc sot.2 pk coins secretKey

end SimpleOprf.BaseOt
