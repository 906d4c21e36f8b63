import SimpleOprf.GcMmo.Garble

/-!
# The plaintext function

`F_k(x) = H2(x, AES_k(H1(x)))` and the key commitment. SHA-256 and the cipher
are parameters of the whole development.
-/

namespace SimpleOprf

open SimpleOprf.Basis SimpleOprf.GcMmo

/-- The two cryptographic functions the programs call. -/
structure Primitives where
  sha256 : List UInt8 → Digest
  aes : Block → Block → Block

namespace PlaintextOprf

variable (p : Primitives)

/-- SHA-256 truncated to a block. -/
def h1 (x : List UInt8) : Block := Block.ofBytes (p.sha256 x).toList

def h2 (x : List UInt8) (z : Block) : Digest := p.sha256 (x ++ z.bytes)

def fK (k : Block) (x : List UInt8) : Digest := h2 p x (p.aes k (h1 p x))

/-- The plaintext block of the `i`-th commitment entry. -/
def counterBlock (i : Nat) : Block := Block.ofBytes (leBytes 2 i)

/-- `cm = (H(k), AES(k,0), ..., AES(k,T-1))`. -/
def keyCommitment (k : Block) (t : Nat) : List UInt8 :=
  (p.sha256 k.bytes).toList ++ (List.range t).flatMap fun i => (p.aes k (counterBlock i)).bytes

theorem length_keyCommitment (k : Block) (t : Nat) :
    (keyCommitment p k t).length = 32 + t * 16 := by
  simp [keyCommitment, List.length_flatMap]

end PlaintextOprf

end SimpleOprf
