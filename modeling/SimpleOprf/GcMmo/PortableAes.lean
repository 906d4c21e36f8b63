import Mathlib.Data.List.FinRange
import Mathlib.Tactic.FinCases
import SimpleOprf.Basis.Aes128
import SimpleOprf.Basis.Loops
import SimpleOprf.GcMmo.Block

/-!
# The portable cipher is AES-128

Each step of the portable `FixedKeyAES` is a transformation of FIPS-197 on the
state that the sixteen bytes fill. The optimised `mix_columns` needs that
multiplication distributes over XOR; the key schedule writes four words in
place, each from the word before it.

With `AesNi` the two builds of the class agree on every key and block.
-/

namespace SimpleOprf.GcMmo

open SimpleOprf.Basis
open SimpleOprf.Basis.Aes128 (load store)

/-! ## Bytes -/

/-- The table is the S-box of the standard. -/
theorem subByte_eq_substitute (x : UInt8) : subByte x = Aes128.substitute x := by
  revert x
  decide +kernel

/-- `xtime` multiplies by two. -/
theorem xtime_eq_mul (x : UInt8) : xtime x = Aes128.mul 2 x := by
  revert x
  decide +kernel

/-- The optimised entry of a column is the product with a row of the matrix. -/
theorem mixed_entry (a b c d : UInt8) :
    a ^^^ ((a ^^^ b ^^^ c ^^^ d) ^^^ xtime (a ^^^ b)) =
      Aes128.mul 2 a ^^^ Aes128.mul 3 b ^^^ c ^^^ d := by
  have cancel (y : UInt8) : a ^^^ (a ^^^ y) = y := by
    rw [← UInt8.xor_assoc, UInt8.xor_self, UInt8.zero_xor]
  rw [xtime_eq_mul, Aes128.mul_xor, Aes128.mul_three]
  simp only [UInt8.xor_assoc, cancel]
  ac_rfl

/-! ## States -/

/-- `add_round_key` adds the round key. -/
theorem load_addRoundKey (s key : State) :
    load (addRoundKey s key) = Aes128.addRoundKey (load s) (load key) := by
  apply Aes128.State.ext_entry
  intro row column
  simp [addRoundKey, Aes128.addRoundKey]

/-- `sub_bytes` substitutes every entry. -/
theorem load_subBytes (s : State) :
    load (subBytes s) = Aes128.subBytes (load s) := by
  apply Aes128.State.ext_entry
  intro row column
  simp [subBytes, Aes128.subBytes, subByte_eq_substitute]

/-- The swaps turn each row by its number. -/
theorem load_shiftRows (st : State) :
    load (shiftRows st) = Aes128.shiftRows (load st) := by
  apply Aes128.State.ext_entry
  intro row column
  simp only [Aes128.entry_load, Aes128.shiftRows, Aes128.State.entry_ofEntries]
  fin_cases row <;> fin_cases column <;> simp [shiftRows]

/-! ## The columns in place -/

/-- A column of the state. -/
def column (st : State) (c : Fin 4) : Fin 4 → UInt8 := fun row => (load st).entry row c

/-- Every iteration of the loop of `mix_columns` mixes its own column. -/
theorem mixColumns_loop :
    ∃ body : State → Fin 4 → State, (∀ st, mixColumns st = (List.finRange 4).foldl body st) ∧
      (∀ st c other, other ≠ c → column (body st c) other = column st other) ∧
      ∀ st c, column (body st c) c = Aes128.mixColumn (column st c) := by
  refine ⟨_, fun st => rfl, ?_, ?_⟩
  · intro st c other distinct
    have apart : other.val ≠ c.val := fun same => distinct (Fin.ext same)
    funext row
    simp only [column, Aes128.entry_load]
    rw [Vector.getElem_set_ne _ _ (by omega), Vector.getElem_set_ne _ _ (by omega),
      Vector.getElem_set_ne _ _ (by omega), Vector.getElem_set_ne _ _ (by omega)]
  · intro st c
    funext row
    simp only [column, Aes128.entry_load, Aes128.mixColumn, ← mixed_entry]
    fin_cases row
    · simp
    all_goals
      simp
      grind

/-- `mix_columns` multiplies every column. -/
theorem load_mixColumns (st : State) :
    load (mixColumns st) = Aes128.mixColumns (load st) := by
  obtain ⟨body, looped, other, own⟩ := mixColumns_loop
  apply Aes128.State.ext_entry
  intro row c
  have rewritten : column ((List.finRange 4).foldl body st) c = Aes128.mixColumn (column st c) :=
    foldl_parts (List.nodup_finRange 4) other Aes128.mixColumn own st (List.mem_finRange c)
  rw [looped, Aes128.mixColumns, Aes128.State.entry_ofEntries]
  exact congrFun rewritten row

/-! ## The key schedule in place -/

/-- Where iteration `k` of the loop over the later words writes. -/
def laterPlace (k : Fin 12) : Fin 16 := k.addNat 4

/-- Where it reads the next round key. -/
def earlierPlace (k : Fin 12) : Fin 16 := k.castAdd 4

/-- The body of that loop. -/
def laterByte (prev key : State) (k : Fin 12) : State :=
  key.set (laterPlace k) (prev.get (laterPlace k) ^^^ key.get (earlierPlace k))

/-- The place that an iteration writes. -/
theorem val_laterPlace (k : Fin 12) : (laterPlace k).val = k.val + 4 := rfl

/-- The place that it reads from the new key. -/
theorem val_earlierPlace (k : Fin 12) : (earlierPlace k).val = k.val := rfl

/-- The first column is written before the loop. -/
theorem nextRoundKey_loop (prev : State) (rc : UInt8) :
    ∃ head, nextRoundKey prev rc = (List.finRange 12).foldl (laterByte prev) head ∧
      ∀ row, (load head).entry row 0 = (load prev).entry row 0 ^^^
        (subByte ((load prev).entry (row + 1) 3) ^^^ if row = 0 then rc else 0) := by
  refine ⟨_, List.foldl_ext _ (laterByte prev) _ fun key k _ => rfl, ?_⟩
  intro row
  simp only [Aes128.entry_load]
  fin_cases row <;> simp

theorem get_laterByte_of_ne (prev key : State) (k : Fin 12) (place : Fin 16)
    (elsewhere : place ≠ laterPlace k) : (laterByte prev key k).get place = key.get place := by
  have apart : (laterPlace k).val ≠ place.val := fun same => elsewhere (Fin.ext same).symm
  simp only [laterByte, Aes128.get_eq_getElem]
  exact Vector.getElem_set_ne _ _ apart

theorem get_laterByte_self (prev key : State) (k : Fin 12) :
    (laterByte prev key k).get (laterPlace k) =
      prev.get (laterPlace k) ^^^ key.get (earlierPlace k) := by
  simp only [laterByte, Aes128.get_eq_getElem]
  exact Vector.getElem_set_self _

/-- The first column keeps what it held before the loop. -/
theorem get_laterBytes_first (prev head : State) {place : Fin 16} (first : place.val < 4) :
    ((List.finRange 12).foldl (laterByte prev) head).get place = head.get place := by
  apply foldl_untouched (get_laterByte_of_ne prev)
  rintro k - rfl
  rw [val_laterPlace] at first
  omega

/-- Every later byte adds a byte of the finished round key. -/
theorem get_laterBytes_later (prev head : State) (k : Fin 12) :
    ((List.finRange 12).foldl (laterByte prev) head).get (laterPlace k) =
      prev.get (laterPlace k) ^^^
        ((List.finRange 12).foldl (laterByte prev) head).get (earlierPlace k) := by
  have frame := get_laterByte_of_ne prev
  obtain ⟨before, after, split⟩ := List.append_of_mem (List.mem_finRange k)
  have ordered := List.pairwise_lt_finRange 12
  rw [split] at ordered
  have larger : ∀ other ∈ after, k < other :=
    (List.pairwise_cons.mp (List.pairwise_append.mp ordered).2.1).1
  have distinct : ∀ other ∈ after, laterPlace k ≠ laterPlace other := by
    intro other member same
    have index := congrArg Fin.val same
    have order := larger other member
    rw [val_laterPlace, val_laterPlace] at index
    omega
  -- Iteration `k` reads a place that neither it nor a later iteration writes.
  have unread : ∀ other ∈ k :: after, earlierPlace k ≠ laterPlace other := by
    intro other member same
    have index := congrArg Fin.val same
    rw [val_earlierPlace, val_laterPlace] at index
    rcases List.mem_cons.mp member with rfl | member
    · omega
    · have order := larger other member
      omega
  have written := @foldl_written _ _ _ _ (laterByte prev) Vector.get laterPlace frame before after k
    distinct head
  have read := foldl_untouched frame unread (before.foldl (laterByte prev) head)
  rw [split, written, List.foldl_append, read, get_laterByte_self]

/-- One step of the expansion gives the next round key. -/
theorem nextKey_nextRoundKey (prev : State) (rc : UInt8) :
    Aes128.NextKey rc (load prev) (load (nextRoundKey prev rc)) := by
  obtain ⟨head, looped, first⟩ := nextRoundKey_loop prev rc
  rw [looped]
  constructor
  · intro row
    have front : 4 * (0 : Fin 4).val + row.val < 4 := by simp
    have kept := @get_laterBytes_first prev head ⟨4 * (0 : Fin 4).val + row.val, by omega⟩ front
    rw [← subByte_eq_substitute, ← first]
    simpa only [Aes128.entry_load, Aes128.get_eq_getElem] using kept
  · intro row j
    have written := get_laterBytes_later prev head ⟨4 * j.val + row.val, by omega⟩
    have place : 4 * j.succ.val + row.val = 4 * j.val + row.val + 4 := by
      rw [Fin.val_succ]
      omega
    simp only [Aes128.get_eq_getElem, val_laterPlace, val_earlierPlace] at written
    simp only [Aes128.entry_load, place, Fin.val_castSucc]
    exact written

/-- The table of constants is the sequence of powers of `x`. -/
theorem rcon_eq_constants : rcon = Aes128.constants := by decide +kernel

/-- The round keys are those of the standard. -/
theorem roundKeys_eq_keySchedule (key : Block) : roundKeys key = Aes128.keySchedule key.b := by
  rw [roundKeys, rcon_eq_constants]
  exact Aes128.scanl_constants nextKey_nextRoundKey key.b

/-! ## The cipher -/

/-- The body of the loop is a round. -/
theorem load_portableRound (s key : State) :
    load (addRoundKey (mixColumns (shiftRows (subBytes s))) key) =
      Aes128.round (load s) (load key) := by
  rw [load_addRoundKey, load_mixColumns, load_shiftRows, load_subBytes]
  rfl

/-- What follows it is the last round. -/
theorem load_portableLastRound (s key : State) :
    load (addRoundKey (shiftRows (subBytes s)) key) = Aes128.lastRound (load s) (load key) := by
  rw [load_addRoundKey, load_shiftRows, load_subBytes]
  rfl

/-- The portable build computes AES-128. -/
theorem fixedKeyAes_eq_encrypt (key input : Block) :
    fixedKeyAes key input = ⟨Aes128.encrypt key.b input.b⟩ := by
  have rounds := Aes128.encrypt_eq_rounds load_addRoundKey load_portableRound
    load_portableLastRound key.b input.b
  have schedule : roundKeys key = Aes128.roundKeyBytes key.b 0 ::
      ((List.range 9).map (fun r => Aes128.roundKeyBytes key.b (r + 1)) ++
        [Aes128.roundKeyBytes key.b 10]) := roundKeys_eq_keySchedule key
  rw [← rounds, fixedKeyAes, schedule]
  simp only [List.dropLast_concat, List.getLastD_concat, List.foldl_map]

end SimpleOprf.GcMmo
