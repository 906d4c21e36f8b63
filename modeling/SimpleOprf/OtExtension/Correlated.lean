import SimpleOprf.OtExtension.BitMatrix

/-!
# Correlated OT extension

`OTExtensionWithMatrix::extend_correlated` of a passive sender and a passive
receiver. With one subloop a slice is the whole matrix. The generators and the
transposition of a square are parameters.

After the batch, row `i` of the receiver is row `i` of the sender, offset when
choice bit `i` is set. The base OTs still agree, so that the next call may
start from there.
-/

namespace SimpleOprf.OtExtension

namespace Square

/-- `square128::rsub`. -/
def rsub (square other : Square) : Square := fun i => square i ^^^ other i

/-- `square128::sub` of one row from all rows. -/
def sub (square : Square) (value : BitVec 128) : Square := fun i => square i ^^^ value

/-- `square128::conditional_add` at offset zero. -/
def conditionalAdd (conditions : BitVec 128) (square other : Square) : Square :=
  fun i => if conditions.getLsbD i then square i ^^^ other i else square i

end Square

/-- The sender of the transfers. Its `baseReceiverInput` selected the generators of
`senderOutputMatrices[0]`. -/
structure OtSender (σ : Type) where
  baseReceiverInput : BitVec 128
  senderOutput : Expansion σ
  G : σ

/-- The receiver of the transfers: `receiverOutputMatrix` with the generators
`G_sender[i][0]`, and `t1` with `G_sender[i][1]`. -/
structure OtReceiver (σ : Type) where
  receiverOutput : Expansion σ
  t1 : Expansion σ
  G : σ

/-- Resizes the matrix of an expansion. -/
def Expansion.resizeVertical {σ : Type} (m : Expansion σ) (length : Nat) : Expansion σ :=
  { m with squares := OtExtension.resizeVertical m.squares length }

/-- The number of transfers as a multiple of 128. `nOTs_requested` and `nOTs` are
`int` in the source, so one call asks for fewer than about `2^31` transfers. -/
def rounded (nOTsRequested : Nat) : Nat := (nOTsRequested + 127) / 128 * 128

section Extension

variable {σ : Type} (prng : Prng σ) (transpose : Square → Square)

/-- The last four words, whose transfers are discarded, become random. -/
def randomizeDiscarded (choices : List Bool) (nOTs : Nat) (G : σ) : List Bool × σ :=
  (List.range 4).foldl (fun (choices, G) i =>
    let (word, G) := prng.getWord G
    (setWord choices (nOTs / 64 - i - 1) word, G)) (choices, G)

namespace OtReceiver

/-- Resizes both matrices of the receiver. -/
def resize (r : OtReceiver σ) (nOTs : Nat) : OtReceiver σ :=
  { r with receiverOutput := r.receiverOutput.resizeVertical nOTs, t1 := r.t1.resizeVertical nOTs }

/-- `OTCorrelator::expand` of the receiver: draws every row of both matrices. -/
def expand (r : OtReceiver σ) : OtReceiver σ :=
  (List.finRange 128).foldl (fun r i =>
    { r with receiverOutput := r.receiverOutput.randomize prng i, t1 := r.t1.randomize prng i }) r

/-- `t1` becomes the message to the sender. -/
def correlate (r : OtReceiver σ) (newReceiverInput : List Bool) : OtReceiver σ :=
  let t1 := List.zipWith Square.rsub r.t1.squares r.receiverOutput.squares
  let t1 := t1.mapIdx fun k square => square.sub (portion newReceiverInput k)
  { r with t1 := { r.t1 with squares := t1 } }

/-- The receiver afterwards and its message; `none` throws on a wrong number of
choice bits. Faithful as long as the rounded count fits an `int`. -/
def extendCorrelated (r : OtReceiver σ) (nOTsRequested : Nat) (newReceiverBits : List Bool) :
    Option (OtReceiver σ × Option (List Square)) :=
  if nOTsRequested = 0 then
    some (r, none)
  else if nOTsRequested ≠ newReceiverBits.length then
    none
  else
    let nOTs := rounded nOTsRequested + 2 * 128
    let r := r.resize nOTs
    let (newReceiverInput, G) :=
      randomizeDiscarded prng (resizeZero newReceiverBits nOTs) nOTs r.G
    let r := (r.expand prng).correlate newReceiverInput
    let output := { r.receiverOutput with squares := r.receiverOutput.squares.map transpose }
    some ({ r with receiverOutput := output.resizeVertical (rounded nOTsRequested), G },
      some r.t1.squares)

end OtReceiver

namespace OtSender

/-- Resizes the matrix of the sender. -/
def resize (s : OtSender σ) (nOTs : Nat) : OtSender σ :=
  { s with senderOutput := s.senderOutput.resizeVertical nOTs }

/-- `OTCorrelator::expand` of the sender. -/
def expand (s : OtSender σ) : OtSender σ :=
  (List.finRange 128).foldl (fun s i =>
    { s with senderOutput := s.senderOutput.randomize prng i }) s

/-- `OTCorrelator::correlate` of the sender. -/
def correlate (s : OtSender σ) (u : List Square) : OtSender σ :=
  { s with senderOutput := { s.senderOutput with
      squares := List.zipWith (Square.conditionalAdd s.baseReceiverInput)
        s.senderOutput.squares u } }

/-- The sender afterwards; `u` is what it receives unless nothing is requested. The
count is an `int` here too. -/
def extendCorrelated (s : OtSender σ) (nOTsRequested : Nat) (u : List Square) : OtSender σ :=
  if nOTsRequested = 0 then
    s
  else
    let nOTs := rounded nOTsRequested + 2 * 128
    let s := s.resize nOTs
    let (_, G) := randomizeDiscarded prng (resizeZero [] nOTs) nOTs s.G
    let s := (s.expand prng).correlate u
    let output := { s.senderOutput with squares := s.senderOutput.squares.map transpose }
    { s with senderOutput := output.resizeVertical (rounded nOTsRequested), G }

end OtSender

/-! ## What an extension computes -/

/-- The receiver draws both of its matrices. -/
theorem OtReceiver.expand_eq (r : OtReceiver σ) :
    r.expand prng =
      ⟨r.receiverOutput.expanded prng, r.t1.expanded prng, r.G⟩ := by
  have both : ∀ (rows : List (Fin 128)) (r : OtReceiver σ),
      rows.foldl (fun r i => { r with
        receiverOutput := r.receiverOutput.randomize prng i, t1 := r.t1.randomize prng i }) r =
      ⟨rows.foldl (Expansion.randomize prng) r.receiverOutput,
        rows.foldl (Expansion.randomize prng) r.t1, r.G⟩ := by
    intro rows
    induction rows with
    | nil => exact fun r => rfl
    | cons row rows ih => exact fun r => ih _
  rw [expand, both, Expansion.foldl_finRange, Expansion.foldl_finRange]

/-- The sender draws one. -/
theorem OtSender.expand_eq (s : OtSender σ) :
    s.expand prng = ⟨s.baseReceiverInput, s.senderOutput.expanded prng, s.G⟩ := by
  have fold : ∀ (rows : List (Fin 128)) (s : OtSender σ),
      rows.foldl (fun s i => { s with senderOutput := s.senderOutput.randomize prng i }) s =
      ⟨s.baseReceiverInput, rows.foldl (Expansion.randomize prng) s.senderOutput, s.G⟩ := by
    intro rows
    induction rows with
    | nil => exact fun s => rfl
    | cons row rows ih => exact fun s => ih _
  rw [expand, fold, Expansion.foldl_finRange]

/-- The square of a number that the generators give. -/
def Expansion.square (m : Expansion σ) (k : Nat) : Square := fun row => prng.drawn (m.generators row) k

/-- The squares of a matrix that was made to fit and then expanded. -/
theorem Expansion.getElem?_expanded (m : Expansion σ) {length k : Nat}
    (inside : k < (length + 127) / 128) :
    ((m.resizeVertical length).expanded prng).squares[k]? = some (m.square prng k) := by
  have present : k < (OtExtension.resizeVertical m.squares length).length := by
    rwa [length_resizeVertical]
  simp only [expanded, resizeVertical, List.getElem?_mapIdx, List.getElem?_eq_getElem present,
    Option.map_some]
  rfl

theorem Expansion.length_expanded (m : Expansion σ) (length : Nat) :
    ((m.resizeVertical length).expanded prng).squares.length = (length + 127) / 128 := by
  simp [expanded, resizeVertical, length_resizeVertical]

/-- The generators after a batch. -/
theorem Expansion.generators_expanded (m : Expansion σ) (length : Nat) (row : Fin 128) :
    ((m.resizeVertical length).expanded prng).generators row =
      prng.after (m.generators row) ((length + 127) / 128) := by
  simp [expanded, resizeVertical, length_resizeVertical]

/-- The requested choice bits are not among the discarded ones. -/
theorem getElem?_randomizeDiscarded {bits : List Bool} {i : Nat} {bit : Bool}
    (found : bits[i]? = some bit) (G : σ) :
    (randomizeDiscarded prng (resizeZero bits (rounded bits.length + 2 * 128))
      (rounded bits.length + 2 * 128) G).1[i]? = some bit := by
  have inside := (List.getElem?_eq_some_iff.mp found).1
  have covers : bits.length ≤ rounded bits.length := by unfold rounded; omega
  have enough : bits.length ≤ rounded bits.length + 2 * 128 := by omega
  have resized := getElem?_resizeZero enough found
  have kept : ∀ (indices : List Nat), (∀ j ∈ indices, j < 4) → ∀ (choices : List Bool) (G : σ),
      choices[i]? = some bit →
      (indices.foldl (fun (choices, G) j =>
        let (word, G) := prng.getWord G
        (setWord choices ((rounded bits.length + 2 * 128) / 64 - j - 1) word, G))
          (choices, G)).1[i]? = some bit := by
    intro indices
    induction indices with
    | nil => exact fun _ choices G found => found
    | cons j indices ih =>
      intro small choices G found
      have below : i < 64 * ((rounded bits.length + 2 * 128) / 64 - j - 1) := by
        have first := small j List.mem_cons_self
        unfold rounded at covers ⊢
        omega
      exact ih (fun k member => small k (List.mem_cons_of_mem j member)) _ _
        (getElem?_setWord below found _)
  exact kept _ (fun j member => List.mem_range.mp member) _ G resized

end Extension

/-! ## The correlation -/

section Correlation

variable {σ : Type} {prng : Prng σ} {transpose : Square → Square}

/-- After the transposition a row of the receiver is the sender's, shifted by the
offset where the choice bit of the row is set. -/
theorem transpose_correlated (transposes : Transposes transpose) {base x : BitVec 128}
    {t0 t1 q : Square} (selected : ∀ i, q i = if base.getLsbD i then t1 i else t0 i) (c : Fin 128) :
    transpose t0 c =
      transpose (q.conditionalAdd base ((t1.rsub t0).sub x)) c ^^^
        (if x.getLsbD c then base else 0) := by
  refine BitVec.eq_of_getLsbD_eq fun i inside => ?_
  have entry := fun square => transposes square c ⟨i, inside⟩
  rw [BitVec.getLsbD_xor, entry, entry, Square.conditionalAdd, selected]
  cases offset : base.getLsbD i with
  | false => cases x.getLsbD c <;> simp [offset]
  | true =>
    simp only [if_true, Square.sub, Square.rsub, BitVec.getLsbD_xor]
    cases choice : x.getLsbD c with
    | false => simp
    | true => simp [offset]

/-- The sender's generators are those of the receiver that its offset selects. -/
def BaseOtsAgree (s : OtSender σ) (r : OtReceiver σ) : Prop :=
  ∀ i : Fin 128, s.senderOutput.generators i =
    if s.baseReceiverInput.getLsbD i then r.t1.generators i else r.receiverOutput.generators i

/-- A correlated row of each choice bit. -/
def Correlated (offset : BitVec 128) (choices : List Bool) (received sent : List Square) : Prop :=
  ∀ i choice, choices[i]? = some choice →
    rowAt received i = rowAt sent i ^^^ (if choice then offset else 0)

/-- The number of squares of a batch, with the discarded ones. -/
def batchSquares (nOTsRequested : Nat) : Nat := (rounded nOTsRequested + 2 * 128 + 127) / 128

/-- The rows of the requested transfers after the transposition. -/
theorem rowAt_batch {squares : List Square} {nOTsRequested j : Nat} {square : Square}
    (all : squares.length = batchSquares nOTsRequested) (inside : j < nOTsRequested)
    (found : squares[j / 128]? = some square) :
    rowAt (resizeVertical (squares.map transpose) (rounded nOTsRequested)) j =
      transpose square ⟨j % 128, Nat.mod_lt _ (by decide)⟩ := by
  have covers : nOTsRequested ≤ rounded nOTsRequested := by unfold rounded; omega
  have smaller : (rounded nOTsRequested + 127) / 128 ≤ (squares.map transpose).length := by
    rw [List.length_map, all]
    exact Nat.div_le_div_right (by omega)
  rw [rowAt_resizeVertical smaller (by omega)]
  exact rowAt_of_getElem? (by rw [List.getElem?_map, found, Option.map_some])

/-- What a receiver keeps after a batch, and sends for it. -/
structure OtReceiver.Batch (prng : Prng σ) (transpose : Square → Square) (choices : List Bool)
    (r r' : OtReceiver σ) (u : List Square) (newReceiverInput : List Bool) : Prop where
  first : ∀ i, r'.receiverOutput.generators i =
    prng.after (r.receiverOutput.generators i) (batchSquares choices.length)
  second : ∀ i, r'.t1.generators i =
    prng.after (r.t1.generators i) (batchSquares choices.length)
  input : ∀ (j : Nat) (choice : Bool), choices[j]? = some choice →
    newReceiverInput[j]? = some choice
  length : u.length = batchSquares choices.length
  message : ∀ k, k < batchSquares choices.length → u[k]? =
    some (((r.t1.square prng k).rsub (r.receiverOutput.square prng k)).sub
      (portion newReceiverInput k))
  output : ∀ j, j < choices.length → rowAt r'.receiverOutput.squares j =
    transpose (r.receiverOutput.square prng (j / 128)) ⟨j % 128, Nat.mod_lt _ (by decide)⟩

/-- What a sender keeps after a batch. -/
structure OtSender.Batch (prng : Prng σ) (transpose : Square → Square) (nOTsRequested : Nat)
    (u : List Square) (s s' : OtSender σ) : Prop where
  base : s'.baseReceiverInput = s.baseReceiverInput
  generators : ∀ i, s'.senderOutput.generators i =
    prng.after (s.senderOutput.generators i) (batchSquares nOTsRequested)
  output : ∀ (j : Nat) (square : Square), j < nOTsRequested → u[j / 128]? = some square →
    rowAt s'.senderOutput.squares j =
      transpose ((s.senderOutput.square prng (j / 128)).conditionalAdd s.baseReceiverInput square)
        ⟨j % 128, Nat.mod_lt _ (by decide)⟩

/-- A requested transfer lies in a square of the batch. -/
theorem div_lt_batchSquares {nOTsRequested j : Nat} (inside : j < nOTsRequested) :
    j / 128 < batchSquares nOTsRequested := by
  unfold batchSquares rounded
  omega

variable (prng transpose) in
/-- The receiver of a nonempty batch sends a message and holds the batch. -/
theorem OtReceiver.extendCorrelated_batch (r : OtReceiver σ) {choices : List Bool}
    (nonempty : choices ≠ []) :
    ∃ r' u newReceiverInput,
      r.extendCorrelated prng transpose choices.length choices = some (r', some u) ∧
        Batch prng transpose choices r r' u newReceiverInput := by
  have nonzero : choices.length ≠ 0 := fun zero => nonempty (List.eq_nil_of_length_eq_zero zero)
  refine ⟨_, _, _, by rw [extendCorrelated, if_neg nonzero, if_neg (not_not_intro rfl)],
    ?_, ?_, fun j choice found => getElem?_randomizeDiscarded prng found r.G, ?_, ?_, ?_⟩
  · intro i
    simp only [expand_eq]
    exact Expansion.generators_expanded prng _ _ i
  · intro i
    simp only [expand_eq]
    exact Expansion.generators_expanded prng _ _ i
  · simp only [expand_eq, correlate, resize, List.length_mapIdx, List.length_zipWith,
      Expansion.length_expanded, Nat.min_self]
    rfl
  · intro k inside
    simp only [expand_eq, correlate, resize, List.getElem?_mapIdx, List.getElem?_zipWith,
      Expansion.getElem?_expanded prng _ inside, Option.map_some]
  · intro j inside
    simp only [expand_eq, correlate, resize]
    exact rowAt_batch (Expansion.length_expanded prng _ _) inside
      (Expansion.getElem?_expanded prng _ (div_lt_batchSquares inside))

variable (prng transpose) in
/-- So does a sender that is sent a square for each of its own. -/
theorem OtSender.extendCorrelated_batch (s : OtSender σ) {nOTsRequested : Nat}
    (nonzero : nOTsRequested ≠ 0) {u : List Square} (all : u.length = batchSquares nOTsRequested) :
    Batch prng transpose nOTsRequested u s
      (s.extendCorrelated prng transpose nOTsRequested u) := by
  simp only [extendCorrelated, if_neg nonzero, expand_eq, correlate, resize]
  refine ⟨rfl, fun i => Expansion.generators_expanded prng _ _ i, fun j square inside found => ?_⟩
  refine rowAt_batch ?_ inside ?_
  · rw [List.length_zipWith, Expansion.length_expanded, all]
    exact Nat.min_self _
  · rw [List.getElem?_zipWith, Expansion.getElem?_expanded prng _ (div_lt_batchSquares inside),
      found]

variable (prng) in
/-- One batch of both parties: the outputs are correlated and the generators stay
aligned for the next batch. -/
theorem extendCorrelated_correct (transposes : Transposes transpose) {s : OtSender σ}
    {r : OtReceiver σ} (aligned : BaseOtsAgree s r) {choices : List Bool} (nonempty : choices ≠ []) :
    ∃ r' u, r.extendCorrelated prng transpose choices.length choices = some (r', some u) ∧
      BaseOtsAgree (s.extendCorrelated prng transpose choices.length u) r' ∧
      (s.extendCorrelated prng transpose choices.length u).baseReceiverInput =
        s.baseReceiverInput ∧
      Correlated s.baseReceiverInput choices r'.receiverOutput.squares
        (s.extendCorrelated prng transpose choices.length u).senderOutput.squares := by
  have nonzero : choices.length ≠ 0 := fun zero => nonempty (List.eq_nil_of_length_eq_zero zero)
  obtain ⟨r', u, newReceiverInput, ran, received⟩ :=
    r.extendCorrelated_batch prng transpose nonempty
  have sent := s.extendCorrelated_batch prng transpose nonzero received.length
  refine ⟨r', u, ran, fun i => ?_, sent.base, fun j choice found => ?_⟩
  · rw [sent.generators, sent.base, received.first, received.second, aligned]
    exact apply_ite (prng.after · _) _ _ _
  · have inside := (List.getElem?_eq_some_iff.mp found).1
    have selected : ∀ i, s.senderOutput.square prng (j / 128) i =
        if s.baseReceiverInput.getLsbD i then r.t1.square prng (j / 128) i
        else r.receiverOutput.square prng (j / 128) i := fun i => by
      rw [Expansion.square, aligned]
      exact apply_ite (prng.drawn · _) _ _ _
    rw [received.output j inside,
      sent.output j _ inside (received.message _ (div_lt_batchSquares inside)),
      ← getLsbD_portion (received.input j choice found)]
    exact transpose_correlated transposes selected _

end Correlation

end SimpleOprf.OtExtension
