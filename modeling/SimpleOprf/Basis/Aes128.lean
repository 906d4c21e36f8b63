import Mathlib.Data.FinEnum
import Mathlib.Data.Nat.Bitwise
import SimpleOprf.Basis.LittleEndian

/-!
# The AES-128 block cipher

The cipher of FIPS-197 for keys of sixteen bytes, written from the definition:
bytes are polynomials over the two-element field modulo `x^8 + x^4 + x^3 + x + 1`,
the state is a matrix of four rows and four columns, and the key schedule is a
recursion over words. Nothing here is optimised.
-/

namespace SimpleOprf.Basis.Aes128

/-! ## The field of bytes -/

/-- One step of a division: clear the coefficient of `x ^ i`. -/
def clearCoefficient (a i : Nat) : Nat := if a.testBit i then a ^^^ (0x11b <<< (i - 8)) else a

/-- The remainder of a polynomial of degree at most fourteen. -/
def remainder (a : Nat) : Nat := [14, 13, 12, 11, 10, 9, 8].foldl clearCoefficient a

/-- The product of two polynomials of degree at most seven. -/
def polynomialProduct (a b : Nat) : Nat :=
  (List.range 8).foldl (fun sum i => if b.testBit i then sum ^^^ (a <<< i) else sum) 0

/-- The product in the field of 256 elements. -/
def mul (a b : UInt8) : UInt8 := UInt8.ofNat (remainder (polynomialProduct a.toNat b.toNat))

/-- The multiplicative inverse as a power, `b ^ 254`; zero goes to zero. -/
def inverse (b : UInt8) : UInt8 :=
  let power := (List.range 6).foldl (fun power _ => mul (mul power power) b) b
  mul power power

/-- The power is an inverse of every nonzero byte. -/
theorem mul_inverse (b : UInt8) (nonzero : b ≠ 0) : mul b (inverse b) = 1 := by
  revert b
  decide +kernel

/-- Two conditional differences with one constant combine. -/
private theorem ite_xor (c d : Bool) (u v k : Nat) :
    (if (c ^^ d) = true then (u ^^^ v) ^^^ k else u ^^^ v) =
      (if c = true then u ^^^ k else u) ^^^ (if d = true then v ^^^ k else v) := by
  have swap : u ^^^ v ^^^ k = u ^^^ k ^^^ v := by rw [Nat.xor_assoc, Nat.xor_comm v, Nat.xor_assoc]
  have cancel : (u ^^^ k) ^^^ (v ^^^ k) = u ^^^ v := by
    rw [← Nat.xor_assoc, ← swap, Nat.xor_assoc _ k k, Nat.xor_self, Nat.xor_zero]
  cases c <;> cases d
  · rfl
  · exact Nat.xor_assoc u v k
  · exact swap
  · exact cancel.symm

/-- Clearing coefficients is linear. -/
theorem foldl_clearCoefficient_xor (degrees : List Nat) (a b : Nat) :
    degrees.foldl clearCoefficient (a ^^^ b) =
      degrees.foldl clearCoefficient a ^^^ degrees.foldl clearCoefficient b := by
  induction degrees generalizing a b with
  | nil => rfl
  | cons i rest ih =>
    have step : clearCoefficient (a ^^^ b) i = clearCoefficient a i ^^^ clearCoefficient b i := by
      unfold clearCoefficient
      rw [Nat.testBit_xor]
      exact ite_xor _ _ a b _
    rw [List.foldl_cons, step, ih]
    rfl

/-- Reduction is linear. -/
theorem remainder_xor (a b : Nat) : remainder (a ^^^ b) = remainder a ^^^ remainder b :=
  foldl_clearCoefficient_xor _ a b

/-- The unreduced product is linear in its second factor. -/
theorem polynomialProduct_xor (a b c : Nat) :
    polynomialProduct a (b ^^^ c) = polynomialProduct a b ^^^ polynomialProduct a c := by
  have sums (degrees : List Nat) (u v : Nat) :
      degrees.foldl (fun sum i => if (b ^^^ c).testBit i then sum ^^^ (a <<< i) else sum) (u ^^^ v) =
        degrees.foldl (fun sum i => if b.testBit i then sum ^^^ (a <<< i) else sum) u ^^^
          degrees.foldl (fun sum i => if c.testBit i then sum ^^^ (a <<< i) else sum) v := by
    induction degrees generalizing u v with
    | nil => rfl
    | cons i rest ih =>
      rw [List.foldl_cons, Nat.testBit_xor, ite_xor, ih]
      rfl
  exact sums _ 0 0

/-- Multiplication distributes over the addition of bytes. -/
theorem mul_xor (a b c : UInt8) : mul a (b ^^^ c) = mul a b ^^^ mul a c := by
  unfold mul
  rw [UInt8.toNat_xor, polynomialProduct_xor, remainder_xor, UInt8.ofNat_xor]

/-- Three times a byte is twice the byte and the byte. -/
theorem mul_three (b : UInt8) : mul 3 b = mul 2 b ^^^ b := by
  revert b
  decide +kernel

/-! ## Words and states -/

/-- Reading a vector at a bounded index. -/
theorem get_eq_getElem {n : Nat} (v : Vector UInt8 n) (i : Fin n) : v.get i = v[i.val] := rfl

/-- Four bytes. -/
abbrev Word := Vector UInt8 4

/-- Four columns of four bytes each. -/
abbrev State := Vector Word 4

/-- The byte in a row and a column. -/
def State.entry (s : State) (row column : Fin 4) : UInt8 := s[column][row]

/-- The state with the given bytes. -/
def State.ofEntries (entry : Fin 4 → Fin 4 → UInt8) : State :=
  Vector.ofFn fun column => Vector.ofFn fun row => entry row column

/-- Sixteen bytes fill the columns one after the other. -/
def load (bytes : Vector UInt8 16) : State :=
  State.ofEntries fun row column => bytes[4 * column.val + row.val]

/-- The columns one after the other. -/
def store (s : State) : Vector UInt8 16 :=
  Vector.ofFn fun i => s.entry ⟨i % 4, by omega⟩ ⟨i / 4, by omega⟩

@[simp] theorem State.entry_ofEntries (entry : Fin 4 → Fin 4 → UInt8) (row column : Fin 4) :
    (State.ofEntries entry).entry row column = entry row column := by
  simp [State.entry, State.ofEntries]

/-- States with equal entries are equal. -/
theorem State.ext_entry {s t : State}
    (same : ∀ row column, s.entry row column = t.entry row column) : s = t := by
  apply Vector.ext
  intro column columnInside
  apply Vector.ext
  intro row rowInside
  exact same ⟨row, rowInside⟩ ⟨column, columnInside⟩

@[simp] theorem entry_load (bytes : Vector UInt8 16) (row column : Fin 4) :
    (load bytes).entry row column = bytes[4 * column.val + row.val] :=
  State.entry_ofEntries _ row column

@[simp] theorem load_store (s : State) : load (store s) = s := by
  apply State.ext_entry
  intro row column
  have rowPlace : (4 * column.val + row.val) % 4 = row.val := by omega
  have columnPlace : (4 * column.val + row.val) / 4 = column.val := by omega
  simp only [entry_load, store, Vector.getElem_ofFn, rowPlace, columnPlace]

/-- Different blocks fill different states. -/
theorem load_injective : Function.Injective load := by
  intro x y same
  apply Vector.ext
  intro i inside
  have place : 4 * (i / 4) + i % 4 = i := Nat.div_add_mod i 4
  have entry := congrArg (fun s => State.entry s ⟨i % 4, by omega⟩ ⟨i / 4, by omega⟩) same
  simpa only [entry_load, place] using entry

@[simp] theorem store_load (bytes : Vector UInt8 16) : store (load bytes) = bytes :=
  load_injective (load_store _)

/-! ## The transformations of a round -/

/-- The affine transformation over the two-element field. -/
def affine (b : UInt8) : UInt8 :=
  let bit (i : Nat) : Bool := b.toNat.testBit (i % 8)
  UInt8.ofNat <| Nat.ofBits fun i : Fin 8 =>
    bit i ^^ bit (i + 4) ^^ bit (i + 5) ^^ bit (i + 6) ^^ bit (i + 7) ^^ Nat.testBit 0x63 i

/-- The S-box. -/
def substitute (b : UInt8) : UInt8 := affine (inverse b)

/-- SubBytes. -/
def subBytes (s : State) : State :=
  State.ofEntries fun row column => substitute (s.entry row column)

/-- Row `r` turns left by `r` places. -/
def shiftRows (s : State) : State :=
  State.ofEntries fun row column => s.entry row (column + row)

/-- A column times the circulant matrix of `2, 3, 1, 1`. -/
def mixColumn (entries : Fin 4 → UInt8) : Fin 4 → UInt8 := fun row =>
  mul 2 (entries row) ^^^ mul 3 (entries (row + 1)) ^^^ entries (row + 2) ^^^ entries (row + 3)

/-- MixColumns. -/
def mixColumns (s : State) : State :=
  State.ofEntries fun row column => mixColumn (fun i => s.entry i column) row

/-- AddRoundKey. -/
def addRoundKey (s key : State) : State :=
  State.ofEntries fun row column => s.entry row column ^^^ key.entry row column

/-! ## The key schedule -/

/-- SubWord. -/
def subWord (w : Word) : Word := w.map substitute

/-- RotWord. -/
def rotWord (w : Word) : Word := Vector.ofFn fun i : Fin 4 => w.get (i + 1)

/-- The sum of two words. -/
def xorWord (v w : Word) : Word := Vector.zipWith (· ^^^ ·) v w

/-- A byte in front of three zeros. -/
def leading (byte : UInt8) : Word := Vector.ofFn fun i : Fin 4 => if i = 0 then byte else 0

/-- The `j`-th round constant, `x ^ (j - 1)` in the first byte. -/
def roundConstant (j : Nat) : Word := leading ((mul 2)^[j - 1] 1)

/-- The words `i` to `i + 3` of the expanded key. -/
def keyWindow (key : State) : Nat → State
  | 0 => key
  | i + 1 =>
    let w := keyWindow key i
    let temp :=
      if (i + 4) % 4 = 0 then
        xorWord (subWord (rotWord (w.get 3))) (roundConstant ((i + 4) / 4))
      else
        w.get 3
    #v[w.get 1, w.get 2, w.get 3, xorWord (w.get 0) temp]

/-- Word `i` of the expanded key. -/
def expandedWord (key : State) (i : Nat) : Word := (keyWindow key i).get 0

/-- A window of the expanded key holds its words in order. -/
theorem keyWindow_getElem (key : State) (i j : Nat) (inside : j < 4) :
    (keyWindow key i)[j] = expandedWord key (i + j) := by
  induction j generalizing i with
  | zero => rfl
  | succ j ih =>
    have shifted : (keyWindow key i)[j + 1] = (keyWindow key (i + 1))[j] := by
      have cases : j = 0 ∨ j = 1 ∨ j = 2 := by omega
      rcases cases with rfl | rfl | rfl <;> rfl
    rw [shifted, ih (i + 1) (by omega), Nat.add_right_comm, Nat.add_assoc]

/-- The first four words are the key. -/
theorem expandedWord_of_lt (key : State) (i : Nat) (inside : i < 4) :
    expandedWord key i = key[i] := by
  have start := keyWindow_getElem key 0 i inside
  rw [Nat.zero_add] at start
  exact start.symm

/-- Every later word is the word four places before it plus its predecessor,
which every fourth time is transformed first. -/
theorem expandedWord_add_four (key : State) (i : Nat) :
    expandedWord key (i + 4) = xorWord (expandedWord key i)
      (if (i + 4) % 4 = 0 then
        xorWord (subWord (rotWord (expandedWord key (i + 3)))) (roundConstant ((i + 4) / 4))
      else
        expandedWord key (i + 3)) := by
  have last : expandedWord key (i + 4) = (keyWindow key (i + 1))[3] := by
    rw [keyWindow_getElem]
  have predecessor : expandedWord key (i + 3) = (keyWindow key i)[3] := by
    rw [keyWindow_getElem]
  rw [last, predecessor]
  rfl

/-- The four words of round `r` as the columns of a state. -/
def roundKey (key : State) (r : Nat) : State :=
  Vector.ofFn fun column => expandedWord key (4 * r + column)

/-! ## The key schedule by rounds -/

/-- What one round key says about the next: its first column adds the last
column transformed with the round's constant, each other column its neighbour. -/
structure NextKey (constant : UInt8) (prev next : State) : Prop where
  first : ∀ row, next.entry row 0 =
    prev.entry row 0 ^^^ (substitute (prev.entry (row + 1) 3) ^^^ if row = 0 then constant else 0)
  later : ∀ row (j : Fin 3),
    next.entry row j.succ = prev.entry row j.succ ^^^ next.entry row j.castSucc

/-- A round key and its constant determine the next round key. -/
theorem NextKey.unique {constant : UInt8} {prev next other : State}
    (h : NextKey constant prev next) (h' : NextKey constant prev other) : next = other := by
  apply State.ext_entry
  intro row column
  induction column using Fin.induction with
  | zero => rw [h.first, h'.first]
  | succ j ih => rw [h.later, h'.later, ih]

/-- Column `c` of round key `r` is word `4 r + c` of the expansion. -/
theorem entry_roundKey (key : State) (r : Nat) (row column : Fin 4) :
    (roundKey key r).entry row column = (expandedWord key (4 * r + column.val))[row] := by
  simp [State.entry, roundKey]

theorem roundKey_zero (key : State) : roundKey key 0 = key := by
  apply State.ext_entry
  intro row column
  rw [entry_roundKey, Nat.mul_zero, Nat.zero_add, expandedWord_of_lt key _ column.isLt]
  rfl

/-- Words add byte by byte. -/
theorem getElem_xorWord (v w : Word) (i : Fin 4) : (xorWord v w)[i] = v[i] ^^^ w[i] := by
  simp [xorWord]

/-- Rotation moves each byte down by one. -/
theorem getElem_rotWord (w : Word) (i : Fin 4) : (rotWord w)[i] = w[i + 1] := by
  simp [rotWord, get_eq_getElem]

/-- Substitution works byte by byte. -/
theorem getElem_subWord (w : Word) (i : Fin 4) : (subWord w)[i] = substitute w[i] := by
  simp [subWord]

/-- Only the first byte of a round constant is set. -/
theorem getElem_leading (byte : UInt8) (i : Fin 4) :
    (leading byte)[i] = if i = 0 then byte else 0 := by
  simp [leading]

/-- Each round key is the next one after its predecessor, with the round constant of
its number. -/
theorem nextKey_roundKey (key : State) (r : Nat) :
    NextKey ((mul 2)^[r] 1) (roundKey key r) (roundKey key (r + 1)) where
  first row := by
    have fourth : (4 * r + 4) % 4 = 0 := by omega
    have number : (4 * r + 4) / 4 - 1 = r := by omega
    have index : 4 * (r + 1) + (0 : Fin 4).val = 4 * r + 4 := by
      simp only [Fin.val_zero]
      omega
    rw [entry_roundKey, index, expandedWord_add_four, if_pos fourth, getElem_xorWord,
      getElem_xorWord, roundConstant, getElem_leading, number, getElem_subWord, getElem_rotWord,
      entry_roundKey, entry_roundKey]
    rfl
  later row j := by
    have within : (4 * r + j.succ.val + 4) % 4 ≠ 0 := by
      rw [Fin.val_succ]
      omega
    have index : 4 * (r + 1) + j.succ.val = 4 * r + j.succ.val + 4 := by omega
    have neighbour : 4 * r + j.succ.val + 3 = 4 * (r + 1) + j.castSucc.val := by
      rw [Fin.val_succ, Fin.val_castSucc]
      omega
    rw [entry_roundKey, index, expandedWord_add_four, if_neg within, getElem_xorWord, neighbour,
      entry_roundKey, entry_roundKey]

/-! ## The cipher -/

/-- One of the first nine rounds. -/
def round (s key : State) : State := addRoundKey (mixColumns (shiftRows (subBytes s))) key

/-- The tenth round, which mixes no columns. -/
def lastRound (s key : State) : State := addRoundKey (shiftRows (subBytes s)) key

/-- Ten rounds, the last one without the mixing of columns. -/
def cipher (key input : State) : State :=
  let s := addRoundKey input (roundKey key 0)
  let s := (List.range 9).foldl (fun s r => round s (roundKey key (r + 1))) s
  lastRound s (roundKey key 10)

/-- The round key `r` of a key, as sixteen bytes. -/
def roundKeyBytes (key : Vector UInt8 16) (r : Nat) : Vector UInt8 16 :=
  store (roundKey (load key) r)

/-- The eleven round keys, as the programs store them. -/
def keySchedule (key : Vector UInt8 16) : List (Vector UInt8 16) :=
  (List.range 11).map (roundKeyBytes key)

/-- AES-128 of one block. -/
def encrypt (key input : Vector UInt8 16) : Vector UInt8 16 :=
  store (cipher (load key) (load input))

/-- The example of the standard's appendix on ciphers with keys of 128 bits. -/
example :
    encrypt (Vector.ofFn fun i => UInt8.ofNat i) (Vector.ofFn fun i => UInt8.ofNat (17 * i)) =
      #v[0x69, 0xc4, 0xe0, 0xd8, 0x6a, 0x7b, 0x04, 0x30,
        0xd8, 0xcd, 0xb7, 0x80, 0x70, 0xb4, 0xc5, 0x5a] := by
  decide +kernel

/-! ## Implementations over bytes -/

/-- The ten round constants. -/
def constants : List UInt8 := (List.range 10).map fun r => (mul 2)^[r] 1

/-- A step that computes next round keys computes the key schedule. -/
theorem scanl_constants {step : Vector UInt8 16 → UInt8 → Vector UInt8 16}
    (next : ∀ prev constant, NextKey constant (load prev) (load (step prev constant)))
    (key : Vector UInt8 16) : constants.scanl step key = keySchedule key := by
  have rounds (n start : Nat) :
      ((List.range' start n).map fun r => (mul 2)^[r] 1).scanl step (roundKeyBytes key start) =
        (List.range' start (n + 1)).map (roundKeyBytes key) := by
    induction n generalizing start with
    | zero => rfl
    | succ n ih =>
      have stepped : step (roundKeyBytes key start) ((mul 2)^[start] 1) =
          roundKeyBytes key (start + 1) := by
        apply load_injective
        have computed := next (roundKeyBytes key start) ((mul 2)^[start] 1)
        rw [roundKeyBytes, load_store] at computed
        rw [roundKeyBytes, roundKeyBytes, load_store]
        exact computed.unique (nextKey_roundKey (load key) start)
      have unrolled : List.range' start (n + 1 + 1) = start :: List.range' (start + 1) (n + 1) :=
        List.range'_succ
      rw [unrolled, List.range'_succ, List.map_cons, List.map_cons, List.scanl_cons, stepped, ih]
  have whole := rounds 10 0
  rw [roundKeyBytes, roundKey_zero, store_load] at whole
  rw [constants, keySchedule, List.range_eq_range', List.range_eq_range', whole]

/-- Rounds over bytes that compute the rounds of the cipher compute the cipher. -/
theorem encrypt_eq_rounds {whiten body last : Vector UInt8 16 → Vector UInt8 16 → Vector UInt8 16}
    (whitens : ∀ s key, load (whiten s key) = addRoundKey (load s) (load key))
    (rounds : ∀ s key, load (body s key) = round (load s) (load key))
    (ends : ∀ s key, load (last s key) = lastRound (load s) (load key))
    (key input : Vector UInt8 16) :
    last ((List.range 9).foldl (fun s r => body s (roundKeyBytes key (r + 1)))
      (whiten input (roundKeyBytes key 0))) (roundKeyBytes key 10) = encrypt key input := by
  apply load_injective
  have folded : load ((List.range 9).foldl (fun s r => body s (roundKeyBytes key (r + 1)))
      (whiten input (roundKeyBytes key 0))) =
      (List.range 9).foldl (fun s r => round s (roundKey (load key) (r + 1)))
        (load (whiten input (roundKeyBytes key 0))) := by
    symm
    apply List.foldl_hom
    intro s r
    rw [rounds, roundKeyBytes, load_store]
  rw [ends, folded, whitens, encrypt, load_store, roundKeyBytes, roundKeyBytes, load_store,
    load_store]
  rfl

end SimpleOprf.Basis.Aes128
