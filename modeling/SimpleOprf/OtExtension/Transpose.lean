import Mathlib.Data.List.ProdSigma
import SimpleOprf.Basis.Loops
import SimpleOprf.Basis.Vectors
import SimpleOprf.OtExtension.BitMatrix

/-!
# The transposition of a square

`square128::transpose` as it is compiled with and without AVX2, and from smaller
squares. Unpacking instructions bring the bytes of a column of 16 rows together, and
the highest bits of these bytes, read after each of eight shifts, are a part of a row
of the result.
-/

namespace SimpleOprf.OtExtension

open SimpleOprf.Basis

/-- The rows of a square by their numbers. -/
abbrev Rows := Nat → BitVec 128

/-- The indices of two nested loops. -/
def nested (m n : Nat) : List (Nat × Nat) := List.range m ×ˢ List.range n

/-- One round of the macro `X`: rows `a` and `b` are unpacked into each other. -/
def unpackRows (I : Nat) (rows : Rows) (a b : Nat) : Rows :=
  let tmp := unpack I false (rows a) (rows b)
  let rows := Function.update rows b (unpack I true (rows a) (rows b))
  Function.update rows a tmp

/-- The macro `X`. -/
def unpackGroup (I base : Nat) (rows : Rows) : Rows :=
  let J := I / 4
  (nested (16 / J) (J / 2)).foldl (fun rows k =>
    let a := base + J * k.1 + k.2
    unpackRows I rows a (a + J / 2)) rows

/-- Stores a part of `W` bits of a row, as `doublebytes` or `words`. -/
def setPart (W : Nat) (rows : Rows) (row y : Nat) (value : BitVec W) : Rows :=
  Function.update rows row (ofBits 128 fun p =>
    if p / W = y then value.getLsbD (p % W) else (rows row).getLsbD p)

/-- `matrix16x8::transpose` and `matrix32x8::transpose`. -/
def transposeMatrix (W : Nat) {v : Nat} (whole : BitVec v) (output : Rows) (x y : Nat) : Rows :=
  ((List.range 8).foldl (fun s j =>
    let row := movemask W s.1
    (slliEpi64 s.1, setPart W s.2 (8 * x + 7 - j) y row)) (whole, output)).2

/-- Without AVX2. -/
def perm : List Nat := [0, 8, 4, 0xc, 2, 0xa, 6, 0xe, 1, 9, 5, 0xd, 3, 0xb, 7, 0xf]

/-- One group of 16 rows, whose columns of bytes become the rows of `tmp`. -/
def gather (s : Rows × Rows) (k : Nat) : Rows × Rows :=
  let base := k * 16
  let rows := unpackGroup 64 base (unpackGroup 32 base (unpackGroup 16 base (unpackGroup 8 base s.1)))
  (rows, (List.range 16).foldl (fun tmp i =>
    Function.update tmp (base + i) (rows (base + perm.getD i 0))) s.2)

/-- `square128::transpose`, where `tmp` starts uninitialised. -/
def transposeRows (tmp rows : Rows) : Rows :=
  let (rows, tmp) := (List.range 8).foldl gather (rows, tmp)
  (nested 16 8).foldl (fun output k =>
    transposeMatrix 16 (tmp (k.2 * 16 + k.1)) output k.1 k.2) rows

/-- A row of `doublerows`. -/
def doublerow (rows : Rows) (a : Nat) : BitVec 256 := rows (2 * a + 1) ++ rows (2 * a)

/-- Writes two rows at once. -/
def setDoublerow (rows : Rows) (a : Nat) (value : BitVec 256) : Rows :=
  Function.update (Function.update rows (2 * a) (value.setWidth 128)) (2 * a + 1)
    ((value >>> 128).setWidth 128)

/-- `_mm256_unpacklo_epi` and `_mm256_unpackhi_epi`, which work on halves of 128 bits. -/
def unpack256 (I : Nat) (high : Bool) (a b : BitVec 256) : BitVec 256 :=
  unpack I high ((a >>> 128).setWidth 128) ((b >>> 128).setWidth 128) ++
    unpack I high (a.setWidth 128) (b.setWidth 128)

/-- The macro that unpacks two doublerows into each other. -/
def unpackDoublerows (I : Nat) (rows : Rows) (a b : Nat) : Rows :=
  let tmp := unpack256 I false (doublerow rows a) (doublerow rows b)
  let rows := setDoublerow rows b (unpack256 I true (doublerow rows a) (doublerow rows b))
  setDoublerow rows a tmp

/-- The macro `Z`. -/
def unpackDoubleGroup (I base : Nat) (rows : Rows) : Rows :=
  let J := I / 8
  (nested (16 / J) (J / 2)).foldl (fun rows k =>
    let a := base + J * k.1 + k.2
    unpackDoublerows I rows a (a + J / 2)) rows

/-- The exchange of two rows that a doublerow holds in the wrong order. -/
def swapRows (rows : Rows) (base i : Nat) : Rows :=
  let a := base + i
  let b := a + 8
  let tmp := rows (2 * b)
  Function.update (Function.update rows (2 * b) (rows (2 * a + 1))) (2 * a + 1) tmp

/-- With AVX2. -/
def perm2 : List Nat := [0, 4, 2, 6, 1, 5, 3, 7, 8, 0xc, 0xa, 0xe, 9, 0xd, 0xb, 0xf]

/-- One group of 32 rows, whose columns of bytes become doubled rows of `tmp`. -/
def gatherDouble (s : Rows × Rows) (k : Nat) : Rows × Rows :=
  let base := k * 16 * 2
  let rows := unpackGroup 8 (base + 16) (unpackGroup 8 base s.1)
  let base := k * 16
  let rows := unpackDoubleGroup 64 base (unpackDoubleGroup 32 base (unpackDoubleGroup 16 base rows))
  let rows := (List.range 8).foldl (fun rows i => swapRows rows base i) rows
  (rows, (List.range 16).foldl (fun tmp i =>
    setDoublerow tmp (base + i) (doublerow rows (base + perm2.getD i 0))) s.2)

/-- `square128::transpose` with AVX2. -/
def transposeDoublerows (tmp rows : Rows) : Rows :=
  let (rows, tmp) := (List.range 4).foldl gatherDouble (rows, tmp)
  (nested 16 4).foldl (fun output k =>
    transposeMatrix 32 (doublerow tmp (k.2 * 16 + k.1)) output k.1 k.2) rows

/-- `matrix16x8::input` and `matrix32x8::input`. -/
def inputMatrix (W : Nat) (rows : Rows) (x y : Nat) : BitVec (8 * W) :=
  ofBits (8 * W) fun p => (rows (W * x + p / 8)).getLsbD (8 * y + p % 8)

/-- `square16::input` and `square32::input`, the matrices of a smaller square. -/
def inputSubsquare (W : Nat) (rows : Rows) (x y : Nat) : Nat → BitVec (8 * W) := fun i =>
  inputMatrix W rows x (W / 8 * y + i)

/-- `square16::transpose` and `square32::transpose`. -/
def transposeSubsquare (W : Nat) (parts : Nat → BitVec (8 * W)) (output : Rows) (x y : Nat) : Rows :=
  (List.range (W / 8)).foldl (fun output i =>
    transposeMatrix W (parts i) output (W / 8 * x + i) y) output

/-- `square128::transpose` from `USE_SUBSQUARES`, with smaller squares of `W` rows. -/
def transposeSubsquares (W : Nat) (rows : Rows) : Rows :=
  let rows := ((List.range (128 / W)).flatMap fun j => (List.range j).map (j, ·)).foldl
    (fun rows k =>
      let a := inputSubsquare W rows k.2 k.1
      let b := inputSubsquare W rows k.1 k.2
      let rows := transposeSubsquare W a rows k.1 k.2
      transposeSubsquare W b rows k.2 k.1) rows
  (List.range (128 / W)).foldl (fun rows j =>
    transposeSubsquare W (inputSubsquare W rows j j) rows j j) rows

/-- The rows of a square. -/
def rowsOf (square : Square) : Rows := fun r => if inside : r < 128 then square ⟨r, inside⟩ else 0

/-- The variants that are compiled. -/
inductive Build
  | sse
  | avx2
  | subsquares (wide : Bool)

/-- `square128::transpose` of each build; `tmp` is what its temporary holds before it
is written. -/
def transpose (build : Build) (tmp : Rows) (square : Square) : Square := fun r =>
  match build with
  | .sse => transposeRows tmp (rowsOf square) r
  | .avx2 => transposeDoublerows tmp (rowsOf square) r
  | .subsquares wide => transposeSubsquares (if wide then 32 else 16) (rowsOf square) r

/-! ## The macro -/

/-- Two nested loops visit the pairs below their limits. -/
theorem mem_nested {m n : Nat} {k : Nat × Nat} : k ∈ nested m n ↔ k.1 < m ∧ k.2 < n := by
  rw [nested, List.mem_product, List.mem_range, List.mem_range]

/-- Each pair once. -/
theorem nodup_nested (m n : Nat) : (nested m n).Nodup := List.nodup_range.product List.nodup_range

/-- Where the macro takes a bit from: row `q` of a group, with lanes of `8 * h` bits. -/
def source (h : Nat) (place : Nat × Nat) : Nat × Nat :=
  (place.1 - place.1 / h % 2 * h + place.2 / (8 * h) % 2 * h,
    place.1 / h % 2 * 64 + place.2 / (8 * h) / 2 * (8 * h) + place.2 % (8 * h))

/-- The rows that a round of the macro touches. -/
theorem unpackRows_of_ne {I a b r : Nat} (first : r ≠ a) (second : r ≠ b) (rows : Rows) :
    unpackRows I rows a b r = rows r := by
  simp [unpackRows, first, second]

/-- The first row takes the low halves. -/
theorem unpackRows_first (I a b : Nat) (rows : Rows) :
    unpackRows I rows a b a = unpack I false (rows a) (rows b) := by
  simp [unpackRows]

/-- The second row takes the high halves. -/
theorem unpackRows_second {I a b : Nat} (apart : b ≠ a) (rows : Rows) :
    unpackRows I rows a b b = unpack I true (rows a) (rows b) := by
  simp [unpackRows, apart]

/-- A loop of rounds over disjoint pairs of rows, `h` apart. -/
theorem foldl_unpackRows {I h : Nat} (positive : 0 < h) {steps : List (Nat × Nat)} {row : Nat × Nat → Nat}
    (distinct : steps.Nodup)
    (once : ∀ k ∈ steps, ∀ k' ∈ steps, ∀ r, (r = row k ∨ r = row k + h) →
      (r = row k' ∨ r = row k' + h) → k = k') (rows : Rows) {k : Nat × Nat} (member : k ∈ steps) :
    steps.foldl (fun rows k => unpackRows I rows (row k) (row k + h)) rows (row k) =
        unpack I false (rows (row k)) (rows (row k + h)) ∧
      steps.foldl (fun rows k => unpackRows I rows (row k) (row k + h)) rows (row k + h) =
        unpack I true (rows (row k)) (rows (row k + h)) := by
  have apart : ∀ k, row k + h ≠ row k := fun k => by omega
  have final : ∀ r, (r = row k ∨ r = row k + h) →
      steps.foldl (fun rows k => unpackRows I rows (row k) (row k + h)) rows r =
        unpackRows I rows (row k) (row k + h) r := fun r touched =>
    foldl_disjoint _ (fun rows r => rows r) (fun k r => r = row k ∨ r = row k + h)
      (fun s k r outside => unpackRows_of_ne (fun same => outside (.inl same))
        (fun same => outside (.inr same)) s)
      (fun s s' k same r touched => by
        have first := same _ (.inl rfl)
        have second := same _ (.inr rfl)
        rcases touched with rfl | rfl
        · simp only [unpackRows_first, first, second]
        · simp only [unpackRows_second (apart k), first, second])
      distinct once rows member touched
  exact ⟨(final _ (.inl rfl)).trans (unpackRows_first I _ _ rows),
    (final _ (.inr rfl)).trans (unpackRows_second (apart k) rows)⟩

theorem foldl_unpackRows_of_ne {I h : Nat} {steps : List (Nat × Nat)} {row : Nat × Nat → Nat} {r : Nat}
    (outside : ∀ k ∈ steps, r ≠ row k ∧ r ≠ row k + h) (rows : Rows) :
    steps.foldl (fun rows k => unpackRows I rows (row k) (row k + h)) rows r = rows r := by
  induction steps generalizing rows with
  | nil => rfl
  | cons k rest ih =>
    obtain ⟨first, second⟩ := outside k List.mem_cons_self
    rw [List.foldl_cons, ih fun k member => outside k (List.mem_cons_of_mem _ member),
      unpackRows_of_ne first second]

/-- The widths of the lanes that are unpacked, in bytes. -/
def IsWidth (h : Nat) : Prop := h = 1 ∨ h = 2 ∨ h = 4 ∨ h = 8

/-- A bit of the macro's result, in its group. -/
theorem getLsbD_unpack_source (h : Nat) {q p : Nat} (rows : Rows) (base : Nat)
    (inside : p < 128) : (unpack (8 * h) (q / h % 2 == 1) (rows (base + (q - q / h % 2 * h)))
      (rows (base + (q - q / h % 2 * h) + h))).getLsbD p =
      (rows (base + (source h (q, p)).1)).getLsbD (source h (q, p)).2 := by
  rw [unpack, getLsbD_ofBits, decide_eq_true inside, Bool.true_and, source]
  have half : (if (q / h % 2 == 1) = true then 64 else 0) = q / h % 2 * 64 := by
    rcases Nat.mod_two_eq_zero_or_one (q / h) with even | odd
    · simp [even]
    · simp [odd]
  rw [half]
  rcases Nat.mod_two_eq_zero_or_one (p / (8 * h)) with even | odd
  · simp [even]
  · simp [odd, Nat.add_assoc]

/-- Where a stage takes the row at place `q` from. -/
theorem unpackGroup_row {h : Nat} (width : IsWidth h) (base : Nat) (rows : Rows) {q : Nat}
    (inside : q < 16) : unpackGroup (8 * h) base rows (base + q) =
      unpack (8 * h) (q / h % 2 == 1) (rows (base + (q - q / h % 2 * h)))
        (rows (base + (q - q / h % 2 * h) + h)) := by
  have quarter : 8 * h / 4 = 2 * h := by omega
  have half : 2 * h / 2 = h := by omega
  simp only [unpackGroup, quarter, half]
  have place : (q / (2 * h), q % h) ∈ nested (16 / (2 * h)) h := by
    rw [mem_nested]
    rcases width with rfl | rfl | rfl | rfl <;> omega
  have positive : 0 < h := by
    rcases width with rfl | rfl | rfl | rfl <;> omega
  obtain ⟨first, second⟩ := @foldl_unpackRows (8 * h) h positive _
    (fun k => base + 2 * h * k.1 + k.2) (nodup_nested _ _) (fun k member k' member' r left right => by
      rw [mem_nested] at member member'
      refine Prod.ext ?_ ?_ <;> rcases width with rfl | rfl | rfl | rfl <;> omega) rows _ place
  have low : base + 2 * h * (q / (2 * h)) + q % h = base + (q - q / h % 2 * h) := by
    rcases width with rfl | rfl | rfl | rfl <;> omega
  simp only [low] at first second
  rcases Nat.mod_two_eq_zero_or_one (q / h) with even | odd
  · have row : base + q = base + (q - q / h % 2 * h) := by rw [even]; omega
    rw [row]
    simpa [even] using first
  · have row : base + q = base + (q - q / h % 2 * h) + h := by
      rcases width with rfl | rfl | rfl | rfl <;> omega
    rw [row]
    simpa [odd] using second

/-- The macro on a bit of its group. -/
theorem getLsbD_unpackGroup {h : Nat} (width : IsWidth h) (base : Nat) (rows : Rows) {q p : Nat}
    (row : q < 16) (inside : p < 128) : (unpackGroup (8 * h) base rows (base + q)).getLsbD p =
      (rows (base + (source h (q, p)).1)).getLsbD (source h (q, p)).2 := by
  rw [unpackGroup_row width base rows row, getLsbD_unpack_source h rows base inside]

theorem unpackGroup_of_ne {h : Nat} (width : IsWidth h) {base r : Nat}
    (outside : r < base ∨ base + 16 ≤ r) (rows : Rows) :
    unpackGroup (8 * h) base rows r = rows r := by
  have quarter : 8 * h / 4 = 2 * h := by omega
  have half : 2 * h / 2 = h := by omega
  simp only [unpackGroup, quarter, half]
  refine foldl_unpackRows_of_ne (fun k member => ?_) rows
  rw [mem_nested] at member
  rcases width with rfl | rfl | rfl | rfl <;> omega

/-- A stage takes its bits from the same group. -/
theorem source_inside {h q p limit : Nat} (width : IsWidth h) (group : limit % 16 = 0) (row : q < limit)
    (inside : p < 128) : (source h (q, p)).1 < limit ∧ (source h (q, p)).2 < 128 := by
  simp only [source]
  rcases width with rfl | rfl | rfl | rfl <;> omega

/-! ## The groups -/

/-- The four unpackings of a group of 16 rows. -/
def unpacked (base : Nat) (rows : Rows) : Rows :=
  unpackGroup 64 base (unpackGroup 32 base (unpackGroup 16 base (unpackGroup 8 base rows)))

/-- Where a bit of the unpacked group comes from. -/
def origin (place : Nat × Nat) : Nat × Nat := source 1 (source 2 (source 4 (source 8 place)))

/-- Where all stages together take a bit from. -/
theorem getLsbD_unpacked (base : Nat) (rows : Rows) {q p : Nat} (row : q < 16) (inside : p < 128) :
    (unpacked base rows (base + q)).getLsbD p =
      (rows (base + (origin (q, p)).1)).getLsbD (origin (q, p)).2 := by
  obtain ⟨row8, inside8⟩ := source_inside (h := 8) (by simp [IsWidth]) (by decide) row inside
  obtain ⟨row4, inside4⟩ := source_inside (h := 4) (by simp [IsWidth]) (by decide) row8 inside8
  obtain ⟨row2, inside2⟩ := source_inside (h := 2) (by simp [IsWidth]) (by decide) row4 inside4
  have first := getLsbD_unpackGroup (h := 8) (by simp [IsWidth]) base
    (unpackGroup 32 base (unpackGroup 16 base (unpackGroup 8 base rows))) row inside
  have second := getLsbD_unpackGroup (h := 4) (by simp [IsWidth]) base
    (unpackGroup 16 base (unpackGroup 8 base rows)) row8 inside8
  have third := getLsbD_unpackGroup (h := 2) (by simp [IsWidth]) base
    (unpackGroup 8 base rows) row4 inside4
  have fourth := getLsbD_unpackGroup (h := 1) (by simp [IsWidth]) base rows row2 inside2
  exact first.trans (second.trans (third.trans fourth))

theorem unpacked_of_ne {base r : Nat} (outside : r < base ∨ base + 16 ≤ r) (rows : Rows) :
    unpacked base rows r = rows r := by
  have first := unpackGroup_of_ne (h := 8) (by simp [IsWidth]) outside
    (unpackGroup 32 base (unpackGroup 16 base (unpackGroup 8 base rows)))
  have second := unpackGroup_of_ne (h := 4) (by simp [IsWidth]) outside
    (unpackGroup 16 base (unpackGroup 8 base rows))
  have third := unpackGroup_of_ne (h := 2) (by simp [IsWidth]) outside (unpackGroup 8 base rows)
  have fourth := unpackGroup_of_ne (h := 1) (by simp [IsWidth]) outside rows
  exact first.trans (second.trans (third.trans fourth))

/-- With its rows permuted the unpacked group has byte `i` of row `c` as byte `c` of
row `i`. -/
theorem origin_perm : ∀ i < 16, ∀ p < 128, origin (perm.getD i 0, p) = (p / 8, 8 * i + p % 8) := by
  decide +kernel

/-- The permutation stays below sixteen. -/
theorem perm_lt : ∀ i < 16, perm.getD i 0 < 16 := by decide

/-- A loop that fills consecutive rows. -/
theorem foldl_update (value : Nat → BitVec 128) (base m : Nat) (rows : Rows) (r : Nat) :
    (List.range m).foldl (fun rows i => Function.update rows (base + i) (value i)) rows r =
      if base ≤ r ∧ r < base + m then value (r - base) else rows r := by
  induction m with
  | zero => simp
  | succ m ih =>
    rw [List.range_succ, List.foldl_append, List.foldl_cons, List.foldl_nil]
    by_cases last : r = base + m
    · subst last
      simp
    · rw [Function.update_of_ne last, ih]
      have same : (base ≤ r ∧ r < base + m) ↔ (base ≤ r ∧ r < base + (m + 1)) := by omega
      simp only [same]

/-- After some groups their columns of bytes are in `tmp`, and the others are as they
were. -/
theorem foldl_gather (tmp rows : Rows) {m : Nat} (few : m ≤ 8) :
    (∀ r, 16 * m ≤ r → ((List.range m).foldl gather (rows, tmp)).1 r = rows r) ∧
      ∀ k < m, ∀ i < 16, ∀ p < 128,
        (((List.range m).foldl gather (rows, tmp)).2 (k * 16 + i)).getLsbD p =
          (rows (k * 16 + p / 8)).getLsbD (8 * i + p % 8) := by
  induction m with
  | zero => exact ⟨fun r _ => rfl, fun k below => absurd below (Nat.not_lt_zero k)⟩
  | succ m ih =>
    obtain ⟨later, done⟩ := ih (by omega)
    set s := (List.range m).foldl gather (rows, tmp) with before
    have step : (List.range (m + 1)).foldl gather (rows, tmp) =
        (unpacked (m * 16) s.1, (List.range 16).foldl (fun tmp i =>
          Function.update tmp (m * 16 + i) (unpacked (m * 16) s.1 (m * 16 + perm.getD i 0))) s.2) := by
      rw [List.range_succ, List.foldl_append, ← before]
      rfl
    rw [step]
    refine ⟨fun r above => (unpacked_of_ne (by omega) s.1).trans (later r (by omega)),
      fun k below i small p inside => ?_⟩
    · refine (congrArg (BitVec.getLsbD · p) (foldl_update
        (fun i => unpacked (m * 16) s.1 (m * 16 + perm.getD i 0)) (m * 16) 16 s.2 _)).trans ?_
      rcases Nat.lt_succ_iff_lt_or_eq.mp below with earlier | rfl
      · simp only [if_neg (show ¬(m * 16 ≤ k * 16 + i ∧ k * 16 + i < m * 16 + 16) by omega)]
        exact done k earlier i small p inside
      · simp only [if_pos (show k * 16 ≤ k * 16 + i ∧ k * 16 + i < k * 16 + 16 by omega)]
        rw [Nat.add_sub_cancel_left, getLsbD_unpacked _ _ (perm_lt i small) inside,
          origin_perm i small p inside, later _ (by omega)]

/-! ## The parts -/

/-- A matrix of `W` bytes becomes eight parts of `W` bits. -/
theorem getLsbD_transposeMatrix {W v : Nat} {whole : BitVec v} (sized : v = 8 * W) (positive : 0 < W)
    (output : Rows) (x y : Nat) {r p : Nat} (inside : p < 128) :
    (transposeMatrix W whole output x y r).getLsbD p =
      if 8 * x ≤ r ∧ r < 8 * x + 8 ∧ p / W = y then whole.getLsbD (8 * (p % W) + r % 8)
      else (output r).getLsbD p := by
  have step : ∀ m ≤ 8, ∃ rows : Rows, (List.range m).foldl (fun s j =>
      let row := movemask W s.1
      (slliEpi64 s.1, setPart W s.2 (8 * x + 7 - j) y row)) (whole, output) =
        (shifted whole m, rows) ∧ ∀ r, (rows r).getLsbD p =
        if 8 * x + 8 - m ≤ r ∧ r < 8 * x + 8 ∧ p / W = y then whole.getLsbD (8 * (p % W) + r % 8)
        else (output r).getLsbD p := by
    intro m
    induction m with
    | zero => exact fun _ => ⟨output, rfl, fun r => by rw [if_neg (by omega)]⟩
    | succ m ih =>
      intro small
      obtain ⟨rows, state, bits⟩ := ih (by omega)
      refine ⟨setPart W rows (8 * x + 7 - m) y (movemask W (shifted whole m)), ?_, fun r => ?_⟩
      · rw [List.range_succ, List.foldl_append, state]
        rfl
      · by_cases written : r = 8 * x + 7 - m
        · have place : p % W < W := Nat.mod_lt p positive
          have bit : r % 8 = 7 - m := by omega
          rw [setPart, written, Function.update_self, getLsbD_ofBits, decide_eq_true inside,
            Bool.true_and, ← written]
          by_cases part : p / W = y
          · rw [if_pos part, if_pos ⟨by omega, by omega, part⟩, bit]
            exact getLsbD_movemask_shifted whole sized (by omega) place
          · rw [if_neg part, if_neg (fun both => part both.2.2), bits, if_neg (fun both => part both.2.2)]
        · rw [setPart, Function.update_of_ne written, bits]
          have same : (8 * x + 8 - m ≤ r ∧ r < 8 * x + 8 ∧ p / W = y) ↔
              (8 * x + 8 - (m + 1) ≤ r ∧ r < 8 * x + 8 ∧ p / W = y) := by omega
          simp only [same]
  obtain ⟨rows, state, bits⟩ := step 8 le_rfl
  have result : transposeMatrix W whole output x y = rows := by
    rw [transposeMatrix, state]
  rw [result, bits, Nat.add_sub_cancel]

/-- The parts of all the rows, from the columns of bytes in `tmp`. -/
theorem foldl_transposeMatrix {W v n : Nat} (sized : v = 8 * W) (positive : 0 < W)
    (covers : W * n = 128) (whole : Nat → Nat → BitVec v) (output : Rows) {r p : Nat}
    (row : r < 128) (inside : p < 128) :
    ((nested 16 n).foldl (fun output k => transposeMatrix W (whole k.1 k.2) output k.1 k.2)
      output r).getLsbD p = (whole (r / 8) (p / W)).getLsbD (8 * (p % W) + r % 8) := by
  have member : (r / 8, p / W) ∈ nested 16 n := by
    rw [mem_nested]
    exact ⟨by omega, Nat.div_lt_of_lt_mul (by omega)⟩
  have written := foldl_disjoint
    (fun (output : Rows) (k : Nat × Nat) => transposeMatrix W (whole k.1 k.2) output k.1 k.2)
    (fun rows (place : Nat × Nat) => (rows place.1).getLsbD place.2)
    (fun k (place : Nat × Nat) => 8 * k.1 ≤ place.1 ∧ place.1 < 8 * k.1 + 8 ∧
      place.2 / W = k.2 ∧ place.2 < 128)
    (fun output k place outside => by
      rcases Nat.lt_or_ge place.2 128 with inside | beyond
      · rw [getLsbD_transposeMatrix sized positive _ _ _ inside, if_neg (fun both =>
          outside ⟨both.1, both.2.1, both.2.2, inside⟩)]
      · rw [BitVec.getLsbD_of_ge _ _ beyond, BitVec.getLsbD_of_ge _ _ beyond])
    (fun output output' k _ place touched => by
      rw [getLsbD_transposeMatrix sized positive _ _ _ touched.2.2.2,
        getLsbD_transposeMatrix sized positive _ _ _ touched.2.2.2,
        if_pos ⟨touched.1, touched.2.1, touched.2.2.1⟩, if_pos ⟨touched.1, touched.2.1, touched.2.2.1⟩])
    (nodup_nested 16 n) (fun k _ k' _ place mine theirs => by
      refine Prod.ext ?_ (mine.2.2.1.symm.trans theirs.2.2.1)
      omega)
    output member (j := (r, p)) ⟨by omega, by omega, rfl, inside⟩
  refine written.trans ?_
  rw [getLsbD_transposeMatrix sized positive _ _ _ inside, if_pos ⟨by omega, by omega, rfl⟩]

/-- The build with 128-bit registers transposes. -/
theorem getLsbD_transposeRows (tmp rows : Rows) {r p : Nat} (row : r < 128) (inside : p < 128) :
    (transposeRows tmp rows r).getLsbD p = (rows p).getLsbD r := by
  obtain ⟨-, columns⟩ := foldl_gather tmp rows (m := 8) le_rfl
  rw [transposeRows]
  refine (foldl_transposeMatrix (W := 16) rfl (by decide) rfl
    (fun i k => ((List.range 8).foldl gather (rows, tmp)).2 (k * 16 + i)) _ row inside).trans ?_
  have place : p / 16 * 16 + (8 * (p % 16) + r % 8) / 8 = p := by omega
  have bit : 8 * (r / 8) + (8 * (p % 16) + r % 8) % 8 = r := by omega
  rw [columns _ (by omega) _ (by omega) _ (by omega), place, bit]

/-! ## Doubled rows -/

/-- The low half of two words. -/
theorem append_low (a b : BitVec 128) : (a ++ b).setWidth 128 = b := by
  refine BitVec.eq_of_getLsbD_eq fun i inside => ?_
  rw [BitVec.getLsbD_setWidth, BitVec.getLsbD_append, decide_eq_true inside, Bool.true_and,
    if_pos inside]

/-- The high half of two words. -/
theorem append_high (a b : BitVec 128) : ((a ++ b) >>> 128).setWidth 128 = a := by
  refine BitVec.eq_of_getLsbD_eq fun i inside => ?_
  rw [BitVec.getLsbD_setWidth, BitVec.getLsbD_ushiftRight, BitVec.getLsbD_append,
    decide_eq_true inside, Bool.true_and, if_neg (by omega), Nat.add_sub_cancel_left]

/-- Storing a doubled row stores two rows. -/
theorem setDoublerow_append (rows : Rows) (a : Nat) (x y : BitVec 128) :
    setDoublerow rows a (y ++ x) = Function.update (Function.update rows (2 * a) x) (2 * a + 1) y := by
  rw [setDoublerow, append_low, append_high]

/-- A round on doubled rows unpacks their first rows and their second rows. -/
theorem unpackDoublerows_eq (I : Nat) (rows : Rows) (a b : Nat) :
    unpackDoublerows I rows a b =
      Function.update (Function.update (Function.update (Function.update rows
        (2 * b) (unpack I true (rows (2 * a)) (rows (2 * b))))
        (2 * b + 1) (unpack I true (rows (2 * a + 1)) (rows (2 * b + 1))))
        (2 * a) (unpack I false (rows (2 * a)) (rows (2 * b))))
        (2 * a + 1) (unpack I false (rows (2 * a + 1)) (rows (2 * b + 1))) := by
  have whole : ∀ high, unpack256 I high (doublerow rows a) (doublerow rows b) =
      unpack I high (rows (2 * a + 1)) (rows (2 * b + 1)) ++ unpack I high (rows (2 * a)) (rows (2 * b)) := by
    intro high
    simp only [unpack256, doublerow, append_low, append_high]
  simp only [unpackDoublerows, whole, setDoublerow_append]

variable {a b l r : Nat}

/-- The first doublerow takes the low halves of each lane. -/
theorem unpackDoublerows_first (I a b : Nat) (lane : l < 2) (rows : Rows) :
    unpackDoublerows I rows a b (2 * a + l) =
      unpack I false (rows (2 * a + l)) (rows (2 * b + l)) := by
  rw [unpackDoublerows_eq]
  obtain rfl | rfl : l = 0 ∨ l = 1 := by omega
  · simp only [Nat.add_zero]
    rw [Function.update_of_ne (by omega), Function.update_self]
  · rw [Function.update_self]

/-- The second doublerow takes the high halves. -/
theorem unpackDoublerows_second (I : Nat) (apart : a ≠ b) (lane : l < 2) (rows : Rows) :
    unpackDoublerows I rows a b (2 * b + l) =
      unpack I true (rows (2 * a + l)) (rows (2 * b + l)) := by
  rw [unpackDoublerows_eq, Function.update_of_ne (by omega), Function.update_of_ne (by omega)]
  obtain rfl | rfl : l = 0 ∨ l = 1 := by omega
  · simp only [Nat.add_zero]
    rw [Function.update_of_ne (by omega), Function.update_self]
  · rw [Function.update_self]

theorem unpackDoublerows_of_ne {I : Nat} (first : r / 2 ≠ a) (second : r / 2 ≠ b) (rows : Rows) :
    unpackDoublerows I rows a b r = rows r := by
  rw [unpackDoublerows_eq, Function.update_of_ne (by omega), Function.update_of_ne (by omega),
    Function.update_of_ne (by omega), Function.update_of_ne (by omega)]

/-- The macro for doubled rows on a row of its group. -/
theorem unpackDoubleGroup_row {h : Nat} (width : h = 2 ∨ h = 4 ∨ h = 8) (base : Nat) (rows : Rows)
    {q : Nat} (inside : q < 32) : unpackDoubleGroup (8 * h) base rows (2 * base + q) =
      unpack (8 * h) (q / h % 2 == 1) (rows (2 * base + (q - q / h % 2 * h)))
        (rows (2 * base + (q - q / h % 2 * h) + h)) := by
  have eighth : 8 * h / 8 = h := by omega
  simp only [unpackDoubleGroup, eighth]
  let row (k : Nat × Nat) : Nat := base + h * k.1 + k.2
  have place : (q / (2 * h), q / 2 % (h / 2)) ∈ nested (16 / h) (h / 2) := by
    rw [mem_nested]
    rcases width with rfl | rfl | rfl <;> omega
  have apart : ∀ k, row k ≠ row k + h / 2 := fun k => by
    rcases width with rfl | rfl | rfl <;> omega
  have lane : q % 2 < 2 := Nat.mod_lt q (by decide)
  have final : ∀ r, r / 2 = row (q / (2 * h), q / 2 % (h / 2)) ∨
      r / 2 = row (q / (2 * h), q / 2 % (h / 2)) + h / 2 →
      (nested (16 / h) (h / 2)).foldl (fun rows k =>
        unpackDoublerows (8 * h) rows (row k) (row k + h / 2)) rows r =
        unpackDoublerows (8 * h) rows (row (q / (2 * h), q / 2 % (h / 2)))
          (row (q / (2 * h), q / 2 % (h / 2)) + h / 2) r := fun r touched =>
    foldl_disjoint _ (fun rows r => rows r) (fun k r => r / 2 = row k ∨ r / 2 = row k + h / 2)
      (fun s k r outside => unpackDoublerows_of_ne (fun same => outside (.inl same))
        (fun same => outside (.inr same)) s)
      (fun s s' k same r touched => by
        have first := fun l (lane : l < 2) => same (2 * row k + l) (.inl (by omega))
        have second := fun l (lane : l < 2) => same (2 * (row k + h / 2) + l) (.inr (by omega))
        have split : r = 2 * (r / 2) + r % 2 := by omega
        have lane : r % 2 < 2 := Nat.mod_lt r (by decide)
        dsimp only
        rw [split]
        rcases touched with mine | mine
        · rw [mine, unpackDoublerows_first _ _ _ lane, unpackDoublerows_first _ _ _ lane,
            first _ lane, second _ lane]
        · rw [mine, unpackDoublerows_second _ (apart k) lane, unpackDoublerows_second _ (apart k) lane,
            first _ lane, second _ lane])
      (nodup_nested _ _) (fun k member k' member' r left right => by
        rw [mem_nested] at member member'
        simp only [row] at left right
        refine Prod.ext ?_ ?_ <;> rcases width with rfl | rfl | rfl <;> omega) rows place touched
  have low : 2 * row (q / (2 * h), q / 2 % (h / 2)) + q % 2 = 2 * base + (q - q / h % 2 * h) := by
    simp only [row]
    rcases width with rfl | rfl | rfl <;> omega
  have high : 2 * (row (q / (2 * h), q / 2 % (h / 2)) + h / 2) + q % 2 =
      2 * base + (q - q / h % 2 * h) + h := by
    rcases width with rfl | rfl | rfl <;> omega
  have first := unpackDoublerows_first (8 * h) (row (q / (2 * h), q / 2 % (h / 2)))
    (row (q / (2 * h), q / 2 % (h / 2)) + h / 2) lane rows
  have second := unpackDoublerows_second (8 * h) (apart (q / (2 * h), q / 2 % (h / 2))) lane rows
  rw [low, high] at first second
  rcases Nat.mod_two_eq_zero_or_one (q / h) with even | odd
  · have here : 2 * base + q = 2 * base + (q - q / h % 2 * h) := by rw [even]; omega
    rw [here]
    refine (final _ (.inl (by omega))).trans ?_
    simpa [even] using first
  · have here : 2 * base + q = 2 * base + (q - q / h % 2 * h) + h := by
      rcases width with rfl | rfl | rfl <;> omega
    rw [here]
    refine (final _ (.inr (by omega))).trans ?_
    simpa [odd] using second

/-- Where a stage on doublerows takes a bit from. -/
theorem getLsbD_unpackDoubleGroup {h q p : Nat} (width : h = 2 ∨ h = 4 ∨ h = 8) (base : Nat)
    (rows : Rows) (row : q < 32) (inside : p < 128) :
    (unpackDoubleGroup (8 * h) base rows (2 * base + q)).getLsbD p =
      (rows (2 * base + (source h (q, p)).1)).getLsbD (source h (q, p)).2 := by
  rw [unpackDoubleGroup_row width base rows row, getLsbD_unpack_source h rows (2 * base) inside]

theorem unpackDoubleGroup_of_ne {h r : Nat} (width : h = 2 ∨ h = 4 ∨ h = 8) {base : Nat}
    (outside : r < 2 * base ∨ 2 * base + 32 ≤ r) (rows : Rows) :
    unpackDoubleGroup (8 * h) base rows r = rows r := by
  have eighth : 8 * h / 8 = h := by omega
  simp only [unpackDoubleGroup, eighth]
  have others : ∀ k ∈ nested (16 / h) (h / 2), r / 2 ≠ base + h * k.1 + k.2 ∧
      r / 2 ≠ base + h * k.1 + k.2 + h / 2 := fun k member => by
    rw [mem_nested] at member
    rcases width with rfl | rfl | rfl <;> omega
  generalize nested (16 / h) (h / 2) = steps at others
  induction steps generalizing rows with
  | nil => rfl
  | cons k rest ih =>
    obtain ⟨first, second⟩ := others k List.mem_cons_self
    rw [List.foldl_cons, ih _ fun k member => others k (List.mem_cons_of_mem _ member),
      unpackDoublerows_of_ne first second]

/-- The first macro on both halves of a group of 32 rows. -/
theorem getLsbD_unpackGroup_twice (base : Nat) (rows : Rows) {q p : Nat} (row : q < 32)
    (inside : p < 128) :
    (unpackGroup 8 (base + 16) (unpackGroup 8 base rows) (base + q)).getLsbD p =
      (rows (base + (source 1 (q, p)).1)).getLsbD (source 1 (q, p)).2 := by
  rcases Nat.lt_or_ge q 16 with low | high
  · rw [unpackGroup_of_ne (h := 1) (by simp [IsWidth]) (by omega)]
    exact getLsbD_unpackGroup (h := 1) (by simp [IsWidth]) base rows low inside
  · obtain ⟨q, rfl⟩ := Nat.exists_eq_add_of_le high
    have places : source 1 (16 + q, p) = (16 + (source 1 (q, p)).1, (source 1 (q, p)).2) := by
      refine Prod.ext ?_ ?_ <;> simp only [source] <;> omega
    have outside := (source_inside (h := 1) (by simp [IsWidth]) (by decide)
      (show q < 16 by omega) inside).1
    have second := getLsbD_unpackGroup (h := 1) (by simp [IsWidth]) (base + 16)
      (unpackGroup 8 base rows) (show q < 16 by omega) inside
    have untouched : unpackGroup 8 base rows (base + 16 + (source 1 (q, p)).1) =
        rows (base + 16 + (source 1 (q, p)).1) :=
      unpackGroup_of_ne (h := 1) (by simp [IsWidth]) (by omega) rows
    rw [places, ← Nat.add_assoc, ← Nat.add_assoc]
    exact second.trans (congrArg (BitVec.getLsbD · _) untouched)

/-- Where the swaps take a row of a group from. -/
def swapped (q : Nat) : Nat :=
  if q < 16 ∧ q % 2 = 1 then q + 15 else if 16 ≤ q ∧ q % 2 = 0 then q - 15 else q

/-- What the first `m` exchanges do to a row. -/
theorem foldl_swapRows (base : Nat) (rows : Rows) {m : Nat} (few : m ≤ 8) (r : Nat) :
    (List.range m).foldl (fun rows i => swapRows rows base i) rows r =
      if 2 * base ≤ r ∧ r < 2 * base + 2 * m ∧ r % 2 = 1 then rows (r + 15)
      else if 2 * base + 16 ≤ r ∧ r < 2 * base + 16 + 2 * m ∧ r % 2 = 0 then rows (r - 15)
      else rows r := by
  induction m generalizing r with
  | zero => rw [if_neg (by omega), if_neg (by omega)]; rfl
  | succ m ih =>
    rw [List.range_succ, List.foldl_append, List.foldl_cons, List.foldl_nil, swapRows]
    by_cases second : r = 2 * (base + m) + 1
    · rw [second, Function.update_self, ih (by omega), if_neg (by omega), if_neg (by omega),
        if_pos (by omega)]
      congr 1
    · rw [Function.update_of_ne second]
      by_cases first : r = 2 * (base + m + 8)
      · rw [first, Function.update_self, ih (by omega), if_neg (by omega), if_neg (by omega),
          if_neg (by omega), if_pos (by omega)]
        congr 1
      · rw [Function.update_of_ne first, ih (by omega)]
        have left : (2 * base ≤ r ∧ r < 2 * base + 2 * m ∧ r % 2 = 1) ↔
            (2 * base ≤ r ∧ r < 2 * base + 2 * (m + 1) ∧ r % 2 = 1) := by omega
        have right : (2 * base + 16 ≤ r ∧ r < 2 * base + 16 + 2 * m ∧ r % 2 = 0) ↔
            (2 * base + 16 ≤ r ∧ r < 2 * base + 16 + 2 * (m + 1) ∧ r % 2 = 0) := by omega
        simp only [left, right]

/-- What all eight exchanges do. -/
theorem swapRows_row (base : Nat) (rows : Rows) {q : Nat} (row : q < 32) :
    (List.range 8).foldl (fun rows i => swapRows rows base i) rows (2 * base + q) =
      rows (2 * base + swapped q) := by
  rw [foldl_swapRows base rows le_rfl, swapped]
  by_cases odd : q < 16 ∧ q % 2 = 1
  · rw [if_pos (by omega), if_pos odd, Nat.add_assoc]
  · rw [if_neg (by omega), if_neg odd]
    by_cases even : 16 ≤ q ∧ q % 2 = 0
    · rw [if_pos (by omega), if_pos even]
      congr 1
      omega
    · rw [if_neg (by omega), if_neg even]

/-- The unpackings and swaps of a group of 32 rows. -/
def unpackedDouble (base : Nat) (rows : Rows) : Rows :=
  let rows := unpackGroup 8 (base * 2 + 16) (unpackGroup 8 (base * 2) rows)
  let rows := unpackDoubleGroup 64 base (unpackDoubleGroup 32 base (unpackDoubleGroup 16 base rows))
  (List.range 8).foldl (fun rows i => swapRows rows base i) rows

/-- The exchanged place stays in the group. -/
theorem swapped_lt : ∀ q < 32, swapped q < 32 := by decide

/-- Where all stages and the exchanges together take a bit from. -/
theorem getLsbD_unpackedDouble (base : Nat) (rows : Rows) {q p : Nat} (row : q < 32)
    (inside : p < 128) : (unpackedDouble base rows (2 * base + q)).getLsbD p =
      (rows (2 * base + (origin (swapped q, p)).1)).getLsbD (origin (swapped q, p)).2 := by
  have row' := swapped_lt q row
  obtain ⟨row8, inside8⟩ := source_inside (h := 8) (by simp [IsWidth]) (by decide) row' inside
  obtain ⟨row4, inside4⟩ := source_inside (h := 4) (by simp [IsWidth]) (by decide) row8 inside8
  obtain ⟨row2, inside2⟩ := source_inside (h := 2) (by simp [IsWidth]) (by decide) row4 inside4
  set first := unpackGroup 8 (base * 2 + 16) (unpackGroup 8 (base * 2) rows) with unpackedOnce
  have both := getLsbD_unpackGroup_twice (base * 2) rows row2 inside2
  rw [Nat.mul_comm base 2, Nat.mul_comm 2 base] at both
  have steps := (getLsbD_unpackDoubleGroup (h := 8) (by simp) base
      (unpackDoubleGroup 32 base (unpackDoubleGroup 16 base first)) row' inside).trans
    ((getLsbD_unpackDoubleGroup (h := 4) (by simp) base
      (unpackDoubleGroup 16 base first) row8 inside8).trans
    (getLsbD_unpackDoubleGroup (h := 2) (by simp) base first row4 inside4))
  rw [unpackedDouble, ← unpackedOnce]
  refine (congrArg (BitVec.getLsbD · p) (swapRows_row base _ row)).trans (steps.trans ?_)
  rw [unpackedOnce, Nat.mul_comm 2 base]
  exact getLsbD_unpackGroup_twice (base * 2) rows row2 inside2

theorem unpackedDouble_of_ne {base r : Nat} (outside : r < 2 * base ∨ 2 * base + 32 ≤ r)
    (rows : Rows) : unpackedDouble base rows r = rows r := by
  rw [unpackedDouble, foldl_swapRows base _ le_rfl, if_neg (by omega), if_neg (by omega)]
  have steps := (unpackDoubleGroup_of_ne (h := 8) (by simp) outside (unpackDoubleGroup 32 base
      (unpackDoubleGroup 16 base (unpackGroup 8 (base * 2 + 16) (unpackGroup 8 (base * 2) rows))))).trans
    ((unpackDoubleGroup_of_ne (h := 4) (by simp) outside (unpackDoubleGroup 16 base
      (unpackGroup 8 (base * 2 + 16) (unpackGroup 8 (base * 2) rows)))).trans
    (unpackDoubleGroup_of_ne (h := 2) (by simp) outside
      (unpackGroup 8 (base * 2 + 16) (unpackGroup 8 (base * 2) rows))))
  refine steps.trans ?_
  exact (unpackGroup_of_ne (h := 1) (by simp [IsWidth]) (by omega) _).trans
    (unpackGroup_of_ne (h := 1) (by simp [IsWidth]) (by omega) rows)

/-- With its doubled rows permuted the group has byte `i` of row `c` as byte `c` of
doubled row `i`. -/
theorem origin_perm2 : ∀ i < 16, ∀ l < 2, ∀ p < 128,
    origin (swapped (2 * perm2.getD i 0 + l), p) = (16 * l + p / 8, 8 * i + p % 8) := by
  decide +kernel

/-- The permutation stays below sixteen. -/
theorem perm2_lt : ∀ i < 16, perm2.getD i 0 < 16 := by decide

/-- A loop that fills consecutive doubled rows. -/
theorem foldl_setDoublerow (rows : Rows) (place : Nat → Nat) (base m : Nat) (tmp : Rows) {l : Nat}
    (lane : l < 2) (a : Nat) :
    (List.range m).foldl (fun tmp i => setDoublerow tmp (base + i) (doublerow rows (place i))) tmp
      (2 * a + l) = if base ≤ a ∧ a < base + m then rows (2 * place (a - base) + l)
        else tmp (2 * a + l) := by
  induction m with
  | zero => simp
  | succ m ih =>
    rw [List.range_succ, List.foldl_append, List.foldl_cons, List.foldl_nil, doublerow,
      setDoublerow_append]
    by_cases last : a = base + m
    · subst last
      rw [if_pos (by omega), Nat.add_sub_cancel_left]
      obtain rfl | rfl : l = 0 ∨ l = 1 := by omega
      · simp only [Nat.add_zero]
        rw [Function.update_of_ne (by omega), Function.update_self]
      · rw [Function.update_self]
    · rw [Function.update_of_ne (by omega), Function.update_of_ne (by omega), ih]
      have same : (base ≤ a ∧ a < base + m) ↔ (base ≤ a ∧ a < base + (m + 1)) := by omega
      simp only [same]

/-- After some groups of 32 rows their columns of bytes are in `tmp`, and the others are
as they were. -/
theorem foldl_gatherDouble (tmp rows : Rows) {m : Nat} (few : m ≤ 4) :
    (∀ r, 32 * m ≤ r → ((List.range m).foldl gatherDouble (rows, tmp)).1 r = rows r) ∧
      ∀ k < m, ∀ i < 16, ∀ l < 2, ∀ p < 128,
        (((List.range m).foldl gatherDouble (rows, tmp)).2 (2 * (k * 16 + i) + l)).getLsbD p =
          (rows (32 * k + (16 * l + p / 8))).getLsbD (8 * i + p % 8) := by
  induction m with
  | zero => exact ⟨fun r _ => rfl, fun k below => absurd below (Nat.not_lt_zero k)⟩
  | succ m ih =>
    obtain ⟨later, done⟩ := ih (by omega)
    set s := (List.range m).foldl gatherDouble (rows, tmp) with before
    have step : (List.range (m + 1)).foldl gatherDouble (rows, tmp) =
        (unpackedDouble (m * 16) s.1, (List.range 16).foldl (fun tmp i => setDoublerow tmp (m * 16 + i)
          (doublerow (unpackedDouble (m * 16) s.1) (m * 16 + perm2.getD i 0))) s.2) := by
      rw [List.range_succ, List.foldl_append, ← before]
      rfl
    rw [step]
    refine ⟨fun r above => (unpackedDouble_of_ne (by omega) s.1).trans (later r (by omega)),
      fun k below i small l lane p inside => ?_⟩
    refine (congrArg (BitVec.getLsbD · p) (foldl_setDoublerow (unpackedDouble (m * 16) s.1)
      (fun i => m * 16 + perm2.getD i 0) (m * 16) 16 s.2 lane (k * 16 + i))).trans ?_
    rcases Nat.lt_succ_iff_lt_or_eq.mp below with earlier | rfl
    · simp only [if_neg (show ¬(m * 16 ≤ k * 16 + i ∧ k * 16 + i < m * 16 + 16) by omega)]
      exact done k earlier i small l lane p inside
    · simp only [if_pos (show k * 16 ≤ k * 16 + i ∧ k * 16 + i < k * 16 + 16 by omega)]
      have row : 2 * perm2.getD i 0 + l < 32 := by
        have below := perm2_lt i small
        omega
      rw [Nat.add_sub_cancel_left, Nat.mul_add, Nat.add_assoc, getLsbD_unpackedDouble _ _ row inside,
        origin_perm2 i small l lane p inside, later _ (by omega), ← Nat.mul_assoc,
        Nat.mul_comm 2 k, Nat.mul_assoc, Nat.mul_comm k]

/-- A doublerow holds two rows. -/
theorem getLsbD_doublerow (rows : Rows) (a : Nat) {p : Nat} (inside : p < 256) :
    (doublerow rows a).getLsbD p = (rows (2 * a + p / 128)).getLsbD (p % 128) := by
  rw [doublerow, BitVec.getLsbD_append]
  rcases Nat.lt_or_ge p 128 with low | high
  · rw [if_pos low, show p / 128 = 0 by omega, show p % 128 = p by omega]
    rfl
  · rw [if_neg (by omega), show p / 128 = 1 by omega, show p % 128 = p - 128 by omega]

/-- The build with 256-bit registers transposes. -/
theorem getLsbD_transposeDoublerows (tmp rows : Rows) {r p : Nat} (row : r < 128) (inside : p < 128) :
    (transposeDoublerows tmp rows r).getLsbD p = (rows p).getLsbD r := by
  obtain ⟨-, columns⟩ := foldl_gatherDouble tmp rows (m := 4) le_rfl
  rw [transposeDoublerows]
  refine (foldl_transposeMatrix (W := 32) rfl (by decide) rfl
    (fun i k => doublerow ((List.range 4).foldl gatherDouble (rows, tmp)).2 (k * 16 + i)) _ row
      inside).trans ?_
  rw [getLsbD_doublerow _ _ (by omega), columns _ (by omega) _ (by omega) _ (by omega) _ (by omega)]
  congr 2 <;> omega

/-! ## Smaller squares -/

/-- A subsquare gathers one byte of each of its rows. -/
theorem getLsbD_inputSubsquare {W : Nat} (rows : Rows) (x y i : Nat) {q b : Nat} (row : q < W)
    (bit : b < 8) : (inputSubsquare W rows x y i).getLsbD (8 * q + b) =
      (rows (W * x + q)).getLsbD (8 * (W / 8 * y + i) + b) := by
  rw [inputSubsquare, inputMatrix, getLsbD_ofBits, decide_eq_true (by omega), Bool.true_and,
    show (8 * q + b) / 8 = q by omega, show (8 * q + b) % 8 = b by omega]

/-- A subsquare is written where its transpose belongs, and nowhere else. -/
theorem getLsbD_transposeSubsquare {W : Nat} (width : W = 16 ∨ W = 32) (parts : Nat → BitVec (8 * W))
    (output : Rows) (x y : Nat) {r p : Nat} (inside : p < 128) :
    (transposeSubsquare W parts output x y r).getLsbD p =
      if r / W = x ∧ p / W = y then (parts (r % W / 8)).getLsbD (8 * (p % W) + r % 8)
      else (output r).getLsbD p := by
  have positive : 0 < W := by omega
  have step : ∀ m ≤ W / 8, ((List.range m).foldl (fun output i =>
      transposeMatrix W (parts i) output (W / 8 * x + i) y) output r).getLsbD p =
      if W * x ≤ r ∧ r < W * x + 8 * m ∧ p / W = y then
        (parts (r % W / 8)).getLsbD (8 * (p % W) + r % 8) else (output r).getLsbD p := by
    intro m
    induction m with
    | zero => exact fun _ => by rw [if_neg (by omega)]; rfl
    | succ m ih =>
      intro small
      rw [List.range_succ, List.foldl_append, List.foldl_cons, List.foldl_nil,
        getLsbD_transposeMatrix rfl positive _ _ _ inside, ih (by omega)]
      by_cases part : p / W = y
      · by_cases here : 8 * (W / 8 * x + m) ≤ r ∧ r < 8 * (W / 8 * x + m) + 8
        · have number : r % W / 8 = m := by rcases width with rfl | rfl <;> omega
          rw [if_pos ⟨here.1, here.2, part⟩, number, if_pos]
          rcases width with rfl | rfl <;> omega
        · rw [if_neg (fun both => here ⟨both.1, both.2.1⟩)]
          have same : (W * x ≤ r ∧ r < W * x + 8 * m ∧ p / W = y) ↔
              (W * x ≤ r ∧ r < W * x + 8 * (m + 1) ∧ p / W = y) := by
            rcases width with rfl | rfl <;> omega
          simp only [same]
      · rw [if_neg (fun both => part both.2.2), if_neg (fun both => part both.2.2),
          if_neg (fun both => part both.2.2)]
  rw [transposeSubsquare, step _ le_rfl]
  have same : (W * x ≤ r ∧ r < W * x + 8 * (W / 8) ∧ p / W = y) ↔ (r / W = x ∧ p / W = y) := by
    rcases width with rfl | rfl <;> omega
  simp only [same]

/-- One smaller square that is read in one place and written in the transposed one. -/
theorem getLsbD_transposeSubsquare_input {W : Nat} (width : W = 16 ∨ W = 32) (rows output : Rows)
    (x y : Nat) {r p : Nat} (inside : p < 128) :
    (transposeSubsquare W (inputSubsquare W rows x y) output y x r).getLsbD p =
      if r / W = y ∧ p / W = x then (rows p).getLsbD r else (output r).getLsbD p := by
  rw [getLsbD_transposeSubsquare width _ _ _ _ inside]
  by_cases here : r / W = y ∧ p / W = x
  · obtain ⟨rfl, rfl⟩ := here
    rw [if_pos ⟨rfl, rfl⟩, if_pos ⟨rfl, rfl⟩, getLsbD_inputSubsquare _ _ _ _
      (Nat.mod_lt p (by omega)) (Nat.mod_lt r (by decide))]
    rcases width with rfl | rfl <;> congr 2 <;> omega
  · rw [if_neg here, if_neg here]

/-- Two smaller squares on opposite sides of the diagonal. -/
theorem getLsbD_swapSubsquares {W : Nat} (width : W = 16 ∨ W = 32) (rows : Rows) {j k : Nat}
    {r p : Nat} (inside : p < 128) :
    (transposeSubsquare W (inputSubsquare W rows j k) (transposeSubsquare W
      (inputSubsquare W rows k j) rows j k) k j r).getLsbD p =
      if r / W = k ∧ p / W = j ∨ r / W = j ∧ p / W = k then (rows p).getLsbD r
      else (rows r).getLsbD p := by
  rw [getLsbD_transposeSubsquare_input width _ _ _ _ inside,
    getLsbD_transposeSubsquare_input width _ _ _ _ inside]
  by_cases first : r / W = k ∧ p / W = j
  · rw [if_pos first, if_pos (.inl first)]
  · by_cases second : r / W = j ∧ p / W = k
    · rw [if_neg first, if_pos second, if_pos (.inr second)]
    · rw [if_neg first, if_neg second, if_neg (not_or.mpr ⟨first, second⟩)]

/-! ## All subsquares -/

/-- The bit at a row and a column. -/
def look (rows : Rows) (place : Nat × Nat) : Bool := (rows place.1).getLsbD place.2

/-- Columns past the end of a row hold no bits. -/
theorem look_beyond (rows rows' : Rows) (place : Nat × Nat) (past : ¬place.2 < 128) :
    look rows place = look rows' place := by
  rw [look, look, BitVec.getLsbD_of_ge _ _ (by omega), BitVec.getLsbD_of_ge _ _ (by omega)]

/-- The subsquares below the diagonal, each with its partner above it. -/
def subsquarePairs (W : Nat) : List (Nat × Nat) :=
  (List.range (128 / W)).flatMap fun j => (List.range j).map (j, ·)

theorem mem_subsquarePairs {W : Nat} {k : Nat × Nat} :
    k ∈ subsquarePairs W ↔ k.1 < 128 / W ∧ k.2 < k.1 := by
  obtain ⟨j, i⟩ := k
  simp only [subsquarePairs, List.mem_flatMap, List.mem_map, List.mem_range, Prod.mk.injEq]
  constructor
  · rintro ⟨j', low, i', small, rfl, rfl⟩
    exact ⟨low, small⟩
  · rintro ⟨low, small⟩
    exact ⟨j, low, i, small, rfl, rfl⟩

/-- Exchanges the transposes of two subsquares. -/
def swapPair (W : Nat) (rows : Rows) (k : Nat × Nat) : Rows :=
  transposeSubsquare W (inputSubsquare W rows k.1 k.2) (transposeSubsquare W
    (inputSubsquare W rows k.2 k.1) rows k.1 k.2) k.2 k.1

/-- Transposes a subsquare on the diagonal. -/
def turnSquare (W : Nat) (rows : Rows) (j : Nat) : Rows :=
  transposeSubsquare W (inputSubsquare W rows j j) rows j j

/-- The places of a pair of subsquares. -/
def InPair (W : Nat) (k place : Nat × Nat) : Prop :=
  (place.1 / W = k.2 ∧ place.2 / W = k.1 ∨ place.1 / W = k.1 ∧ place.2 / W = k.2) ∧ place.2 < 128

/-- The places of a subsquare on the diagonal. -/
def OnDiagonal (W j : Nat) (place : Nat × Nat) : Prop :=
  (place.1 / W = j ∧ place.2 / W = j) ∧ place.2 < 128

section Subsquares

variable {W : Nat} (width : W = 16 ∨ W = 32)

include width

/-- An exchange leaves the places of other subsquares. -/
theorem swapPair_frame (rows : Rows) (k place : Nat × Nat) (outside : ¬InPair W k place) :
    look (swapPair W rows k) place = look rows place := by
  by_cases inside : place.2 < 128
  · exact (getLsbD_swapSubsquares width rows inside).trans
      (if_neg fun both => outside ⟨both, inside⟩)
  · exact look_beyond _ _ _ inside

/-- An exchange reads its own two subsquares only. -/
theorem swapPair_own (rows rows' : Rows) (k : Nat × Nat)
    (same : ∀ place, InPair W k place → look rows place = look rows' place)
    (place : Nat × Nat) (touched : InPair W k place) :
    look (swapPair W rows k) place = look (swapPair W rows' k) place := by
  refine (getLsbD_swapSubsquares width rows touched.2).trans
    (Eq.trans ?_ (getLsbD_swapSubsquares width rows' touched.2).symm)
  rw [if_pos touched.1, if_pos touched.1]
  by_cases inside : place.1 < 128
  · exact same (place.2, place.1) ⟨touched.1.symm.imp And.symm And.symm, inside⟩
  · exact look_beyond rows rows' (place.2, place.1) inside

/-- A transposition on the diagonal leaves the places of other subsquares. -/
theorem turnSquare_frame (rows : Rows) (j : Nat) (place : Nat × Nat)
    (outside : ¬OnDiagonal W j place) : look (turnSquare W rows j) place = look rows place := by
  by_cases inside : place.2 < 128
  · exact (getLsbD_transposeSubsquare_input width rows rows j j inside).trans
      (if_neg fun both => outside ⟨both, inside⟩)
  · exact look_beyond _ _ _ inside

/-- It reads its own subsquare only. -/
theorem turnSquare_own (rows rows' : Rows) (j : Nat)
    (same : ∀ place, OnDiagonal W j place → look rows place = look rows' place)
    (place : Nat × Nat) (touched : OnDiagonal W j place) :
    look (turnSquare W rows j) place = look (turnSquare W rows' j) place := by
  refine (getLsbD_transposeSubsquare_input width rows rows j j touched.2).trans
    (Eq.trans ?_ (getLsbD_transposeSubsquare_input width rows' rows' j j touched.2).symm)
  rw [if_pos touched.1, if_pos touched.1]
  by_cases inside : place.1 < 128
  · exact same (place.2, place.1) ⟨touched.1.symm, inside⟩
  · exact look_beyond rows rows' (place.2, place.1) inside

/-- A bit on a diagonal subsquare is turned by the second loop alone. -/
theorem look_diagonal (rows : Rows) {r p : Nat} (row : r < 128) (inside : p < 128)
    (diagonal : r / W = p / W) :
    look ((List.range (128 / W)).foldl (turnSquare W)
      ((subsquarePairs W).foldl (swapPair W) rows)) (r, p) = look rows (p, r) := by
  have member : r / W ∈ List.range (128 / W) := List.mem_range.mpr (by
    rcases width with rfl | rfl <;> omega)
  have touched : OnDiagonal W (r / W) (r, p) := ⟨⟨rfl, diagonal.symm⟩, inside⟩
  rw [foldl_disjoint _ _ _ (turnSquare_frame width) (turnSquare_own width) List.nodup_range
    (fun j _ j' _ place mine theirs => mine.1.1.symm.trans theirs.1.1) _ member touched]
  refine (getLsbD_transposeSubsquare_input width _ _ _ _ inside).trans ?_
  rw [if_pos touched.1]
  refine foldl_outside _ _ _ (swapPair_frame width) (j := (p, r)) (fun k found touched => ?_) rows
  have apart := (mem_subsquarePairs.mp found).2
  have split := touched.1
  simp only [diagonal] at split
  omega

/-- A bit of any other subsquare is moved by the first loop alone. -/
theorem look_offDiagonal (rows : Rows) {r p : Nat} (row : r < 128) (inside : p < 128)
    (apart : r / W ≠ p / W) :
    look ((List.range (128 / W)).foldl (turnSquare W)
      ((subsquarePairs W).foldl (swapPair W) rows)) (r, p) = look rows (p, r) := by
  rw [foldl_outside _ _ _ (turnSquare_frame width) fun j _ touched =>
    apart (touched.1.1.trans touched.1.2.symm)]
  have member : (max (r / W) (p / W), min (r / W) (p / W)) ∈ subsquarePairs W := by
    rw [mem_subsquarePairs]
    rcases width with rfl | rfl <;> omega
  have touched : InPair W (max (r / W) (p / W), min (r / W) (p / W)) (r, p) :=
    ⟨by dsimp only; omega, inside⟩
  have distinct : (subsquarePairs W).Nodup := by
    rcases width with rfl | rfl <;> decide
  rw [foldl_disjoint _ _ _ (swapPair_frame width) (swapPair_own width) distinct
    (fun k found k' found' place mine theirs => by
      have below := (mem_subsquarePairs.mp found).2
      have below' := (mem_subsquarePairs.mp found').2
      have split := mine.1
      have split' := theirs.1
      refine Prod.ext ?_ ?_ <;> omega) rows member touched]
  exact (getLsbD_swapSubsquares width rows inside).trans (if_pos touched.1)

/-- The build that goes by subsquares transposes. -/
theorem getLsbD_transposeSubsquares (rows : Rows) {r p : Nat} (row : r < 128) (inside : p < 128) :
    (transposeSubsquares W rows r).getLsbD p = (rows p).getLsbD r := by
  change look ((List.range (128 / W)).foldl (turnSquare W)
    ((subsquarePairs W).foldl (swapPair W) rows)) (r, p) = look rows (p, r)
  by_cases diagonal : r / W = p / W
  · exact look_diagonal width rows row inside diagonal
  · exact look_offDiagonal width rows row inside diagonal

end Subsquares

/-- Every build of the transposition transposes every square. -/
theorem transpose_transposes (build : Build) (tmp : Rows) : Transposes (transpose build tmp) := by
  intro square r c
  have entry : (rowsOf square c).getLsbD r = (square c).getLsbD r := by
    rw [rowsOf, dif_pos c.isLt]
  cases build with
  | sse => rw [transpose, getLsbD_transposeRows tmp _ r.isLt c.isLt, entry]
  | avx2 => rw [transpose, getLsbD_transposeDoublerows tmp _ r.isLt c.isLt, entry]
  | subsquares wide =>
    have width : (if wide then 32 else 16) = 16 ∨ (if wide then 32 else 16) = 32 := by
      cases wide
      · exact .inl rfl
      · exact .inr rfl
    rw [transpose, getLsbD_transposeSubsquares width _ r.isLt c.isLt, entry]

/-- All builds compute the same transposition, and it is its own inverse. -/
theorem transpose_builds_agree (build build' : Build) (tmp tmp' : Rows) (square : Square) :
    (∀ r c : Fin 128, (transpose build tmp square r).getLsbD c = (square c).getLsbD r) ∧
      transpose build tmp square = transpose build' tmp' square ∧
      transpose build' tmp' (transpose build tmp square) = square := by
  have first := transpose_transposes build tmp
  have second := transpose_transposes build' tmp'
  refine ⟨first square, ?_, ?_⟩
  · ext r c inside
    rw [BitVec.getElem_eq_testBit_toNat, BitVec.getElem_eq_testBit_toNat]
    exact (first square r ⟨c, inside⟩).trans (second square r ⟨c, inside⟩).symm
  · ext r c inside
    rw [BitVec.getElem_eq_testBit_toNat, BitVec.getElem_eq_testBit_toNat]
    exact (second (transpose build tmp square) r ⟨c, inside⟩).trans (first square ⟨c, inside⟩ r)

end SimpleOprf.OtExtension
