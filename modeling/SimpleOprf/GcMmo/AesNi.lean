import SimpleOprf.GcMmo.Correctness
import SimpleOprf.GcMmo.PortableAes

/-!
# The cipher with the AES instructions

`FixedKeyAES` as it is built where the processor has the AES instructions. A
register holds sixteen bytes in memory order; the instructions of the cipher are
the round steps of FIPS-197 on the state that these bytes fill. Both builds
compute the same cipher, so what one garbles the other evaluates.

The key schedule folds a slide of the register over itself three times; each of
the ten steps gives the next round key of the standard.
-/

namespace SimpleOprf.GcMmo

open SimpleOprf.Basis
open SimpleOprf.Basis.Aes128 (load store)

namespace AesNi

/-! ## The instructions -/

/-- The register type `__m128i`. -/
abbrev M128i := Vector UInt8 16

/-- `_mm_xor_si128`. -/
def xorSi128 (a b : M128i) : M128i := Vector.ofFn fun i => a.get i ^^^ b.get i

/-- A shift towards the higher bytes, with zeros behind. -/
def slliSi128 (a : M128i) (count : Nat) : M128i :=
  Vector.ofFn fun i => if i.val < count then 0 else a[i.val - count]

/-- Doubleword `j` of the result is the doubleword that bits `2 * j` and
`2 * j + 1` of `control` select. -/
def shuffleEpi32 (a : M128i) (control : Nat) : M128i :=
  Vector.ofFn fun i => a[4 * ((control >>> (2 * (i.val / 4))) % 4) + i.val % 4]

/-- Doublewords one and three through the substitution, each beside itself
turned by a byte and with the constant added. -/
def aeskeygenassistSi128 (a : M128i) (constant : UInt8) : M128i :=
  let x1 : Aes128.Word := Vector.ofFn fun i => a.get ((i.natAdd 4).castAdd 8)
  let x3 : Aes128.Word := Vector.ofFn fun i => a.get (i.natAdd 12)
  let turned (x : Aes128.Word) : Aes128.Word :=
    Aes128.xorWord (Aes128.rotWord (Aes128.subWord x)) (Aes128.leading constant)
  store #v[Aes128.subWord x1, turned x1, Aes128.subWord x3, turned x3]

/-- `_mm_aesenc_si128`. -/
def aesencSi128 (a key : M128i) : M128i :=
  store (Aes128.addRoundKey (Aes128.mixColumns (Aes128.subBytes (Aes128.shiftRows (load a))))
    (load key))

/-- `_mm_aesenclast_si128`. -/
def aesenclastSi128 (a key : M128i) : M128i :=
  store (Aes128.addRoundKey (Aes128.subBytes (Aes128.shiftRows (load a))) (load key))

/-! ## The cipher -/

/-- `key_expand_assist`: three slides of the key, and the last word of the assist. -/
def keyExpandAssist (key assist : M128i) : M128i :=
  let key := xorSi128 key (slliSi128 key 4)
  let key := xorSi128 key (slliSi128 key 4)
  let key := xorSi128 key (slliSi128 key 4)
  xorSi128 key (shuffleEpi32 assist 0xff)

/-- The eleven round keys. -/
def roundKeys (key : Block) : List M128i :=
  let rk0 := key.b
  let rk1 := keyExpandAssist rk0 (aeskeygenassistSi128 rk0 0x01)
  let rk2 := keyExpandAssist rk1 (aeskeygenassistSi128 rk1 0x02)
  let rk3 := keyExpandAssist rk2 (aeskeygenassistSi128 rk2 0x04)
  let rk4 := keyExpandAssist rk3 (aeskeygenassistSi128 rk3 0x08)
  let rk5 := keyExpandAssist rk4 (aeskeygenassistSi128 rk4 0x10)
  let rk6 := keyExpandAssist rk5 (aeskeygenassistSi128 rk5 0x20)
  let rk7 := keyExpandAssist rk6 (aeskeygenassistSi128 rk6 0x40)
  let rk8 := keyExpandAssist rk7 (aeskeygenassistSi128 rk7 0x80)
  let rk9 := keyExpandAssist rk8 (aeskeygenassistSi128 rk8 0x1B)
  let rk10 := keyExpandAssist rk9 (aeskeygenassistSi128 rk9 0x36)
  [rk0, rk1, rk2, rk3, rk4, rk5, rk6, rk7, rk8, rk9, rk10]

/-- `FixedKeyAES(key).encrypt(in)`. -/
def fixedKeyAes (key input : Block) : Block :=
  let rk (i : Nat) : M128i := (roundKeys key).getD i (Vector.replicate 16 0)
  let m := input.b
  let m := xorSi128 m (rk 0)
  let m := (List.range' 1 9).foldl (fun m i => aesencSi128 m (rk i)) m
  ⟨aesenclastSi128 m (rk 10)⟩

/-! ## The key schedule -/

/-- An exclusive or adds a round key. -/
theorem load_xorSi128 (a b : M128i) :
    load (xorSi128 a b) = Aes128.addRoundKey (load a) (load b) :=
  load_addRoundKey a b

/-- A register added to itself shifted. -/
def slide (a : M128i) (count : Nat) : M128i := xorSi128 a (slliSi128 a count)

/-- A slide adds the bytes that lie `count` places lower. -/
theorem getElem_slide (a : M128i) (count i : Nat) (inside : i < 16) :
    (slide a count)[i] = a[i] ^^^ if i < count then 0 else a[i - count] := by
  simp [slide, xorSi128, slliSi128, Aes128.get_eq_getElem]

/-- Sliding twice slides twice as far. -/
theorem slide_slide (a : M128i) (count : Nat) :
    slide (slide a count) count = slide a (count + count) := by
  apply Vector.ext
  intro i inside
  simp only [getElem_slide]
  by_cases near : i < count
  · rw [if_pos near, if_pos near, if_pos (by omega), UInt8.xor_zero]
  · rw [if_neg near, if_neg near, ← UInt8.xor_assoc, UInt8.xor_assoc a[i], UInt8.xor_self,
      UInt8.xor_zero]
    by_cases twice : i - count < count
    · rw [if_pos twice, if_pos (by omega)]
    · have place : i - (count + count) = i - count - count := by omega
      simp only [if_neg twice, if_neg (show ¬ i < count + count by omega), place]

/-- A slide by the whole register changes nothing. -/
theorem slide_sixteen (a : M128i) : slide a 16 = a := by
  apply Vector.ext
  intro i inside
  rw [getElem_slide, if_pos inside, UInt8.xor_zero]

/-- The expansion as a composition of slides. -/
theorem keyExpandAssist_eq (key assist : M128i) :
    keyExpandAssist key assist =
      xorSi128 (slide (slide (slide key 4) 4) 4) (shuffleEpi32 assist 0xff) := rfl

/-- One more slide would restore the key. -/
theorem slide_four_times (key : M128i) : slide (slide (slide (slide key 4) 4) 4) 4 = key := by
  rw [slide_slide (slide (slide key 4) 4), slide_slide key, slide_slide, slide_sixteen]

theorem entry_slide_zero (a : M128i) (row : Fin 4) :
    (load (slide a 4)).entry row 0 = (load a).entry row 0 := by
  have first : 4 * (0 : Fin 4).val + row.val < 4 := by
    simp
  rw [Aes128.entry_load, Aes128.entry_load, getElem_slide, if_pos first, UInt8.xor_zero]

theorem entry_slide_succ (a : M128i) (row : Fin 4) (j : Fin 3) :
    (load (slide a 4)).entry row j.succ =
      (load a).entry row j.succ ^^^ (load a).entry row j.castSucc := by
  have later : ¬ 4 * j.succ.val + row.val < 4 := by
    rw [Fin.val_succ]
    omega
  have place : 4 * j.succ.val + row.val - 4 = 4 * j.castSucc.val + row.val := by
    rw [Fin.val_succ, Fin.val_castSucc]
    omega
  simp only [Aes128.entry_load, getElem_slide, if_neg later, place]

/-- The shuffle repeats the last column. -/
theorem entry_shuffle (a : M128i) (row column : Fin 4) :
    (load (shuffleEpi32 a 0xff)).entry row column = (load a).entry row 3 := by
  have word : (4 * column.val + row.val) / 4 = column.val := by omega
  have byte : (4 * column.val + row.val) % 4 = row.val := by omega
  simp only [Aes128.entry_load, shuffleEpi32, Vector.getElem_ofFn, word, byte]
  fin_cases column <;> rfl

/-- The last column of the assist is the rotated and substituted one, with the
constant. -/
theorem entry_assist (a : M128i) (constant : UInt8) (row : Fin 4) :
    (load (aeskeygenassistSi128 a constant)).entry row 3 =
      Aes128.substitute ((load a).entry (row + 1) 3) ^^^ if row = 0 then constant else 0 := by
  rw [aeskeygenassistSi128, Aes128.load_store]
  let x3 : Aes128.Word := Vector.ofFn fun i => a.get (i.natAdd 12)
  change (Aes128.xorWord (Aes128.rotWord (Aes128.subWord x3)) (Aes128.leading constant))[row] = _
  have byte : x3[row + 1] = (load a).entry (row + 1) 3 := by
    rw [Aes128.entry_load]
    simp [x3, Aes128.get_eq_getElem]
  rw [Aes128.getElem_xorWord, Aes128.getElem_rotWord, Aes128.getElem_subWord,
    Aes128.getElem_leading, byte]

/-- One step of the expansion gives the next round key. -/
theorem nextKey_keyExpandAssist (prev : M128i) (constant : UInt8) :
    Aes128.NextKey constant (load prev)
      (load (keyExpandAssist prev (aeskeygenassistSi128 prev constant))) where
  first row := by
    rw [keyExpandAssist_eq, load_xorSi128, Aes128.addRoundKey, Aes128.State.entry_ofEntries,
      entry_slide_zero, entry_slide_zero, entry_slide_zero, entry_shuffle, entry_assist]
  later row j := by
    have restored := entry_slide_succ (slide (slide (slide prev 4) 4) 4) row j
    rw [slide_four_times] at restored
    rw [keyExpandAssist_eq, load_xorSi128, Aes128.addRoundKey, Aes128.State.entry_ofEntries,
      Aes128.State.entry_ofEntries, entry_shuffle, entry_shuffle, restored, UInt8.xor_assoc,
      ← UInt8.xor_assoc _ _ ((load (aeskeygenassistSi128 prev constant)).entry row 3),
      UInt8.xor_self, UInt8.zero_xor]

/-- The round keys are those of the standard. -/
theorem roundKeys_eq_keySchedule (key : Block) : roundKeys key = Aes128.keySchedule key.b := by
  have listed : roundKeys key = rcon.scanl
      (fun rk constant => keyExpandAssist rk (aeskeygenassistSi128 rk constant)) key.b := rfl
  rw [listed, rcon_eq_constants]
  exact Aes128.scanl_constants nextKey_keyExpandAssist key.b

/-! ## The rounds -/

/-- Substitution and rotation commute. -/
theorem subBytes_shiftRows (s : Aes128.State) :
    Aes128.subBytes (Aes128.shiftRows s) = Aes128.shiftRows (Aes128.subBytes s) := by
  apply Aes128.State.ext_entry
  intro row column
  simp [Aes128.subBytes, Aes128.shiftRows]

/-- The instruction is a round. -/
theorem load_aesencSi128 (a key : M128i) :
    load (aesencSi128 a key) = Aes128.round (load a) (load key) := by
  rw [aesencSi128, Aes128.load_store, subBytes_shiftRows]
  rfl

/-- The instruction is the last round. -/
theorem load_aesenclastSi128 (a key : M128i) :
    load (aesenclastSi128 a key) = Aes128.lastRound (load a) (load key) := by
  rw [aesenclastSi128, Aes128.load_store, subBytes_shiftRows]
  rfl

/-- The build with instructions computes AES-128. -/
theorem fixedKeyAes_eq_encrypt (key input : Block) :
    fixedKeyAes key input = ⟨Aes128.encrypt key.b input.b⟩ := by
  have rounds := Aes128.encrypt_eq_rounds load_xorSi128 load_aesencSi128 load_aesenclastSi128
    key.b input.b
  have entry (i : Nat) (inside : i < 11) :
      (roundKeys key).getD i (Vector.replicate 16 0) = Aes128.roundKeyBytes key.b i := by
    rw [roundKeys_eq_keySchedule, Aes128.keySchedule, List.getD_eq_getElem _ _ (by simpa),
      List.getElem_map, List.getElem_range]
  have loop (m : M128i) :
      (List.range' 1 9).foldl
          (fun m i => aesencSi128 m ((roundKeys key).getD i (Vector.replicate 16 0))) m =
        (List.range 9).foldl
          (fun m r => aesencSi128 m (Aes128.roundKeyBytes key.b (r + 1))) m := by
    rw [List.range'_eq_map_range, List.foldl_map]
    apply List.foldl_ext
    intro m r member
    rw [entry (1 + r) (by have := List.mem_range.mp member; omega), Nat.add_comm]
  rw [← rounds]
  simp only [fixedKeyAes, loop, entry 0 (by norm_num), entry 10 (by norm_num)]

/-- The two builds compute one function. -/
theorem fixedKeyAes_eq_portable (key : Block) : fixedKeyAes key = GcMmo.fixedKeyAes key := by
  funext input
  rw [fixedKeyAes_eq_encrypt, GcMmo.fixedKeyAes_eq_encrypt]

end AesNi

/-! ## Both builds -/

/-- The portable cipher is AES-128, the cipher with the instructions agrees with
it, and each build evaluates the circuits that the other garbles. -/
theorem portable_cipher_is_aes128 (key : Block) :
    roundKeys key = Aes128.keySchedule key.b ∧
    AesNi.roundKeys key = roundKeys key ∧
    (∀ input, fixedKeyAes key input = ⟨Aes128.encrypt key.b input.b⟩ ∧
      AesNi.fixedKeyAes key input = fixedKeyAes key input) ∧
    ∀ (sha256 : List UInt8 → Digest) (c : Circuit) (rng : Rng), c.WellFormed →
      (∃ gr rng', garbleCircuit sha256 c key (fixedKeyAes key) rng = .ok (gr, rng') ∧
        RefinesPlain (AesNi.fixedKeyAes key) c gr) ∧
      ∃ gr rng', garbleCircuit sha256 c key (AesNi.fixedKeyAes key) rng = .ok (gr, rng') ∧
        RefinesPlain (fixedKeyAes key) c gr := by
  have sameKeys : AesNi.roundKeys key = roundKeys key := by
    rw [AesNi.roundKeys_eq_keySchedule, roundKeys_eq_keySchedule]
  have same := AesNi.fixedKeyAes_eq_portable key
  refine ⟨roundKeys_eq_keySchedule key, sameKeys, ?_, ?_⟩
  · intro input
    exact ⟨fixedKeyAes_eq_encrypt key input, congrFun same input⟩
  · intro sha256 c rng wf
    obtain ⟨gr, rng', ran, spec⟩ := garbleCircuit_spec sha256 (fixedKeyAes key) key wf rng
    have refines := spec.refinesPlain wf
    rw [same]
    exact ⟨⟨gr, rng', ran, refines⟩, gr, rng', ran, refines⟩

/-- A garbling of each build is evaluated by the other one. -/
theorem sampleCircuit_crosses_builds :
    (∃ gr rng', garbleCircuit Sha256.hash sampleCircuit 0 (fixedKeyAes 0) (Stream'.const 0) =
        .ok (gr, rng') ∧ RefinesPlain (AesNi.fixedKeyAes 0) sampleCircuit gr) ∧
      ∃ gr rng', garbleCircuit Sha256.hash sampleCircuit 0 (AesNi.fixedKeyAes 0)
          (Stream'.const 0) = .ok (gr, rng') ∧ RefinesPlain (fixedKeyAes 0) sampleCircuit gr :=
  (portable_cipher_is_aes128 0).2.2.2 Sha256.hash sampleCircuit (Stream'.const 0)
    sampleCircuit_wellFormed

end SimpleOprf.GcMmo
