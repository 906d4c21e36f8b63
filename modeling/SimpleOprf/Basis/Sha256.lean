import SimpleOprf.Basis.LittleEndian

/-!
# SHA-256

The hash function of FIPS 180-4 on byte strings, for running the model on
concrete data. No theorem about the protocol depends on how it is computed.

Padding, message schedule and compression are written from the definition, one
word at a time.
-/

namespace SimpleOprf.Basis.Sha256

/-- The round constants. -/
def roundConstants : List UInt32 := [
  0x428a2f98, 0x71374491, 0xb5c0fbcf, 0xe9b5dba5, 0x3956c25b, 0x59f111f1, 0x923f82a4, 0xab1c5ed5,
  0xd807aa98, 0x12835b01, 0x243185be, 0x550c7dc3, 0x72be5d74, 0x80deb1fe, 0x9bdc06a7, 0xc19bf174,
  0xe49b69c1, 0xefbe4786, 0x0fc19dc6, 0x240ca1cc, 0x2de92c6f, 0x4a7484aa, 0x5cb0a9dc, 0x76f988da,
  0x983e5152, 0xa831c66d, 0xb00327c8, 0xbf597fc7, 0xc6e00bf3, 0xd5a79147, 0x06ca6351, 0x14292967,
  0x27b70a85, 0x2e1b2138, 0x4d2c6dfc, 0x53380d13, 0x650a7354, 0x766a0abb, 0x81c2c92e, 0x92722c85,
  0xa2bfe8a1, 0xa81a664b, 0xc24b8b70, 0xc76c51a3, 0xd192e819, 0xd6990624, 0xf40e3585, 0x106aa070,
  0x19a4c116, 0x1e376c08, 0x2748774c, 0x34b0bcb5, 0x391c0cb3, 0x4ed8aa4a, 0x5b9cca4f, 0x682e6ff3,
  0x748f82ee, 0x78a5636f, 0x84c87814, 0x8cc70208, 0x90befffa, 0xa4506ceb, 0xbef9a3f7, 0xc67178f2]

/-- The eight chaining words. -/
structure State where
  a : UInt32
  b : UInt32
  c : UInt32
  d : UInt32
  e : UInt32
  f : UInt32
  g : UInt32
  h : UInt32

/-- The initial hash value. -/
def initial : State :=
  ⟨0x6a09e667, 0xbb67ae85, 0x3c6ef372, 0xa54ff53a, 0x510e527f, 0x9b05688c, 0x1f83d9ab, 0x5be0cd19⟩

/-- The rotation of a word to the right. -/
def rotateRight (x n : UInt32) : UInt32 := (x >>> n) ||| (x <<< (32 - n))

/-- One big-endian word for every four bytes. -/
def words : List UInt8 → List UInt32
  | p :: q :: r :: s :: rest =>
    ((p.toUInt32 <<< 24) ||| (q.toUInt32 <<< 16) ||| (r.toUInt32 <<< 8) ||| s.toUInt32) ::
      words rest
  | _ => []

/-- Extend the message schedule, kept newest word first, by `count` words. -/
def extendSchedule : Nat → List UInt32 → List UInt32
  | 0, newest => newest
  | count + 1, newest =>
    let x := newest.getD 14 0
    let y := newest.getD 1 0
    let low := rotateRight x 7 ^^^ rotateRight x 18 ^^^ (x >>> 3)
    let high := rotateRight y 17 ^^^ rotateRight y 19 ^^^ (y >>> 10)
    extendSchedule count ((newest.getD 15 0 + low + newest.getD 6 0 + high) :: newest)

/-- One round, with its constant and schedule word. -/
def round (s : State) (entry : UInt32 × UInt32) : State :=
  let big1 := rotateRight s.e 6 ^^^ rotateRight s.e 11 ^^^ rotateRight s.e 25
  let choose := (s.e &&& s.f) ^^^ (~~~ s.e &&& s.g)
  let t1 := s.h + big1 + choose + entry.1 + entry.2
  let big0 := rotateRight s.a 2 ^^^ rotateRight s.a 13 ^^^ rotateRight s.a 22
  let majority := (s.a &&& s.b) ^^^ (s.a &&& s.c) ^^^ (s.b &&& s.c)
  ⟨t1 + (big0 + majority), s.a, s.b, s.c, s.d + t1, s.e, s.f, s.g⟩

/-- Compress one block of sixteen words into the state. -/
def compress (s : State) (block : List UInt32) : State :=
  let schedule := (extendSchedule 48 block.reverse).reverse
  let t := (roundConstants.zip schedule).foldl round s
  ⟨s.a + t.a, s.b + t.b, s.c + t.c, s.d + t.d, s.e + t.e, s.f + t.f, s.g + t.g, s.h + t.h⟩

/-- Compress `count` blocks. -/
def compressAll : Nat → State → List UInt32 → State
  | 0, s, _ => s
  | count + 1, s, blocks => compressAll count (compress s (blocks.take 16)) (blocks.drop 16)

/-- The message with its delimiter, zeros and bit length. -/
def padded (message : List UInt8) : List UInt8 :=
  let zeros := (119 - message.length % 64) % 64
  message ++ 0x80 :: List.replicate zeros 0 ++ (leBytes 8 (8 * message.length)).reverse

/-- The bytes of a word, the highest first. -/
def wordBytes (word : UInt32) : List UInt8 := (leBytes 4 word.toNat).reverse

/-- The digest of a message. -/
def hash (message : List UInt8) : Vector UInt8 32 :=
  let input := words (padded message)
  let s := compressAll (input.length / 16) initial input
  ofBytes 32 ([s.a, s.b, s.c, s.d, s.e, s.f, s.g, s.h].flatMap wordBytes)

end SimpleOprf.Basis.Sha256
