import Mathlib.Tactic.Ring

/-!
# Formatted input streams

The extraction operators of a C++ input stream in the classic locale, with the
two error bits that decide what later extractions do. `Scans` says that an
extraction takes exactly a given text in front of white space and leaves the
stream good, so a formatted read is verified token by token.
-/

namespace SimpleOprf.Basis

/-- The characters a stream has yet to deliver, and its `eofbit` and `failbit`. -/
structure IStream where
  rest : List Char
  eof : Bool := false
  fail : Bool := false
deriving DecidableEq, Repr

/-- One operation on a stream. -/
abbrev Extract := StateM IStream

/-- `isspace` in the default locale. -/
def isSpace (c : Char) : Bool := c == ' ' || (9 ≤ c.toNat && c.toNat ≤ 13)

/-- Neither `eofbit` nor `failbit` is set. -/
def IStream.good (s : IStream) : Bool := !s.eof && !s.fail

namespace Extract

variable {α β : Type}

/-- The second extraction starts where the first has left the stream. -/
theorem bind_apply (first : Extract α) (next : α → Extract β) (s : IStream) :
    (first >>= next) s = next (first s).1 (first s).2 := rfl

/-- Skip white space. A stream that is not good, or holds nothing else, fails
and the extraction behind the sentry does not take place. -/
def sentry : Extract Bool := fun s =>
  if s.good then
    match s.rest.dropWhile isSpace with
    | [] => (false, { rest := [], eof := true, fail := true })
    | c :: rest => (true, { s with rest := c :: rest })
  else
    (false, { s with fail := true })

/-- Setting `failbit`. -/
def setFail : Extract Unit := fun s => ((), { s with fail := true })

/-- An optional sign; only a minus changes the value. -/
def scanSign : List Char → Bool × List Char
  | '-' :: rest => (true, rest)
  | '+' :: rest => (false, rest)
  | text => (false, text)

/-- A sign and the longest run of digits; the sign is consumed even without one. -/
def scanNumeral : Extract (Bool × List Char) := fun s =>
  let (negative, body) := scanSign s.rest
  let rest := body.dropWhile Char.isDigit
  ((negative, body.takeWhile Char.isDigit), { s with rest, eof := rest.isEmpty })

/-- `>>` into an unsigned integer of `width` bits that holds `old`. A minus sign
negates modulo the width; a value out of range fails and saturates. -/
def unsigned (width old : Nat) : Extract Nat := do
  if ← sentry then
    let (negative, digits) ← scanNumeral
    let value := Nat.ofDigitChars 10 digits 0
    if digits = [] then
      setFail
      return 0
    else if 2 ^ width ≤ value then
      setFail
      return 2 ^ width - 1
    else
      return if negative then (2 ^ width - value) % 2 ^ width else value
  else
    return old

/-- `>>` into an `int` that holds `old`. -/
def int (old : Int) : Extract Int := do
  if ← sentry then
    let (negative, digits) ← scanNumeral
    let value : Int := Nat.ofDigitChars 10 digits 0
    let value := if negative then -value else value
    if digits = [] then
      setFail
      return 0
    else if value < -2 ^ 31 then
      setFail
      return -2 ^ 31
    else if 2 ^ 31 - 1 < value then
      setFail
      return 2 ^ 31 - 1
    else
      return value
  else
    return old

/-- `>>` into a string that holds `old`: everything up to white space. -/
def word (old : List Char) : Extract (List Char) := do
  if ← sentry then fun s =>
    let rest := s.rest.dropWhile fun c => !isSpace c
    (s.rest.takeWhile fun c => !isSpace c, { s with rest, eof := rest.isEmpty })
  else
    return old

/-- `std::getline` and its stream as a condition: the line, or nothing when the
stream has failed. The last line may lack its line feed. -/
def getline : Extract (Option (List Char)) := fun s =>
  if s.good then
    match s.rest.dropWhile (· ≠ '\n') with
    | _ :: rest => (some (s.rest.takeWhile (· ≠ '\n')), { s with rest })
    | [] =>
      if s.rest = [] then (none, { s with eof := true, fail := true })
      else (some s.rest, { s with rest := [], eof := true })
  else
    (none, { s with fail := true })

/-- A line that is read is gone from the stream. -/
theorem getline_shorter {s next : IStream} {line : List Char}
    (got : getline s = (some line, next)) : next.rest.length < s.rest.length := by
  unfold getline at got
  split at got
  · have shorter : (s.rest.dropWhile (· ≠ '\n')).length ≤ s.rest.length :=
      (List.dropWhile_suffix _).length_le
    split at got
    · rename_i feed rest dropped
      rw [dropped, List.length_cons] at shorter
      cases got
      exact shorter
    · split at got
      · cases got
      · rename_i nonempty
        cases got
        exact List.length_pos_iff.mpr nonempty
  · cases got

/-- The lines that a `while (std::getline(in, line))` loop sees. -/
def lines (s : IStream) : List (List Char) :=
  match _got : getline s with
  | (some line, next) => line :: lines next
  | (none, _) => []
termination_by s.rest.length
decreasing_by exact getline_shorter _got

/-- A loop over the lines of a text with a full first line. -/
theorem lines_cons {line rest : List Char} (whole : '\n' ∉ line) :
    lines { rest := line ++ '\n' :: rest } = line :: lines { rest } := by
  have kept : ∀ c ∈ line, decide (c ≠ '\n') = true := by
    intro c member
    exact decide_eq_true fun feed => whole (feed ▸ member)
  have got : getline { rest := line ++ '\n' :: rest } = (some line, { rest }) := by
    simp only [getline, IStream.good, Bool.not_false, Bool.and_self, if_true]
    rw [List.dropWhile_append_of_pos kept, List.takeWhile_append_of_pos kept]
    simp
  rw [lines]
  split
  · rename_i taken next found
    rw [got] at found
    cases found
    rfl
  · rename_i next found
    rw [got] at found
    cases found

theorem lines_nil : lines { rest := [] } = [] := by
  rw [lines]
  split
  · rename_i taken next found
    cases found
  · rfl

/-- Terminated lines are seen as they are. -/
theorem lines_flatMap {whole : List (List Char)} (oneLine : ∀ line ∈ whole, '\n' ∉ line) :
    lines { rest := whole.flatMap fun line => line ++ ['\n'] } = whole := by
  induction whole with
  | nil => exact lines_nil
  | cons line rest ih =>
    have later := ih fun other member => oneLine other (List.mem_cons_of_mem _ member)
    rw [List.flatMap_cons, List.append_assoc, List.singleton_append,
      lines_cons (oneLine line List.mem_cons_self), later]

/-! ## Reading a text token by token -/

/-- The extraction takes exactly `text`, in front of any white space, and the
stream stays good. -/
def Scans (extract : Extract α) (text : List Char) (value : α) : Prop :=
  ∀ space rest, isSpace space = true →
    extract { rest := text ++ space :: rest } = (value, { rest := space :: rest })

/-- The extraction returns `value` when `text` is all that is left. -/
def Finishes (extract : Extract α) (text : List Char) (value : α) : Prop :=
  (extract { rest := text }).1 = value

/-- Two extractions scan their texts with a blank in between. -/
theorem Scans.bind {first : Extract α} {next : α → Extract β} {head tail : List Char}
    {space : Char} {value : α} {result : β} (blank : isSpace space = true)
    (firstScans : first.Scans head value) (nextScans : (next value).Scans (space :: tail) result) :
    (first >>= next).Scans (head ++ space :: tail) result := by
  intro after rest blankAfter
  rw [bind_apply, List.append_assoc, List.cons_append, firstScans _ _ blank]
  exact nextScans after rest blankAfter

/-- The second of them may finish the stream. -/
theorem Scans.bind_finishes {first : Extract α} {next : α → Extract β} {head tail : List Char}
    {space : Char} {value : α} {result : β} (blank : isSpace space = true)
    (firstScans : first.Scans head value)
    (nextFinishes : (next value).Finishes (space :: tail) result) :
    (first >>= next).Finishes (head ++ space :: tail) result := by
  rw [Finishes, bind_apply, firstScans _ _ blank]
  exact nextFinishes

/-- A function of what is found scans the same text. -/
theorem Scans.map {extract : Extract α} {text : List Char} {value : α}
    (scans : extract.Scans text value) (f : α → β) :
    (extract >>= fun found => pure (f found)).Scans text (f value) := by
  intro space rest blank
  rw [bind_apply, scans space rest blank]
  rfl

/-- A function of what is found finishes the same text. -/
theorem Finishes.map {extract : Extract α} {text : List Char} {value : α}
    (finishes : extract.Finishes text value) (f : α → β) :
    (extract >>= fun found => pure (f found)).Finishes text (f value) := by
  rw [Finishes, bind_apply]
  exact congrArg f finishes

/-- The sentry stops in front of the first character that is no white space. -/
theorem sentry_eq {lead rest : List Char} {c : Char} (blank : ∀ c ∈ lead, isSpace c = true)
    (solid : isSpace c = false) :
    sentry { rest := lead ++ c :: rest } = (true, { rest := c :: rest }) := by
  have skipped : (lead ++ c :: rest).dropWhile isSpace = c :: rest := by
    rw [List.dropWhile_append_of_pos blank, List.dropWhile_cons_of_neg (by simp [solid])]
  simp only [sentry, IStream.good, Bool.not_false, Bool.and_self, if_true, skipped]

/-- A digit is neither white space nor a sign. -/
theorem digit_solid {c : Char} (digit : c.isDigit = true) :
    isSpace c = false ∧ c ≠ '-' ∧ c ≠ '+' := by
  have range : 48 ≤ c.toNat ∧ c.toNat ≤ 57 := by
    simp only [Char.isDigit, Bool.and_eq_true, decide_eq_true_eq, ge_iff_le,
      UInt32.le_iff_toNat_le] at digit
    exact digit
  refine ⟨?_, ?_, ?_⟩
  · have blank : c ≠ ' ' := by
      rintro rfl
      exact absurd range (by decide)
    simp only [isSpace, Bool.or_eq_false_iff, beq_eq_false_iff_ne]
    refine ⟨blank, ?_⟩
    simp only [Bool.and_eq_false_iff, decide_eq_false_iff_not]
    omega
  · rintro rfl
    exact absurd range (by decide)
  · rintro rfl
    exact absurd range (by decide)

/-- A blank is no digit. -/
theorem isDigit_of_isSpace {c : Char} (space : isSpace c = true) : c.isDigit = false := by
  by_contra digit
  rw [Bool.not_eq_false] at digit
  rw [(digit_solid digit).1] at space
  cases space

/-- A digit is no sign. -/
theorem scanSign_digit {c : Char} {rest : List Char} (digit : c.isDigit = true) :
    scanSign (c :: rest) = (false, c :: rest) := by
  obtain ⟨-, minus, plus⟩ := digit_solid digit
  unfold scanSign
  split
  · rename_i same
    cases same
    exact absurd rfl minus
  · rename_i same
    cases same
    exact absurd rfl plus
  · rfl

/-- A printed number in front of white space is scanned whole. -/
theorem scanNumeral_toDigits (value : Nat) {space : Char} {rest : List Char}
    (blank : isSpace space = true) :
    scanNumeral { rest := Nat.toDigits 10 value ++ space :: rest } =
      ((false, Nat.toDigits 10 value), { rest := space :: rest }) := by
  have digits : ∀ c ∈ Nat.toDigits 10 value, c.isDigit = true := fun c member =>
    Nat.isDigit_of_mem_toDigits (by omega) (by omega) member
  have stops : ¬ (space.isDigit = true) := by
    simp [isDigit_of_isSpace blank]
  have unsigned : scanSign (Nat.toDigits 10 value ++ space :: rest) =
      (false, Nat.toDigits 10 value ++ space :: rest) := by
    cases shape : Nat.toDigits 10 value with
    | nil => exact absurd shape Nat.toDigits_ne_nil
    | cons c more => exact scanSign_digit (digits c (shape ▸ List.mem_cons_self))
  simp only [scanNumeral, unsigned]
  rw [List.dropWhile_append_of_pos digits, List.takeWhile_append_of_pos digits,
    List.dropWhile_cons_of_neg stops, List.takeWhile_cons_of_neg stops]
  simp

/-- The blanks before a number are skipped. -/
private theorem sentry_number {lead rest : List Char} (value : Nat)
    (blank : ∀ c ∈ lead, isSpace c = true) :
    sentry { rest := lead ++ Nat.toDigits 10 value ++ rest } =
      (true, { rest := Nat.toDigits 10 value ++ rest }) := by
  have digits : ∀ c ∈ Nat.toDigits 10 value, c.isDigit = true := fun c member =>
    Nat.isDigit_of_mem_toDigits (by omega) (by omega) member
  cases shape : Nat.toDigits 10 value with
  | nil => exact absurd shape Nat.toDigits_ne_nil
  | cons c more =>
    have solid := (digit_solid (digits c (shape ▸ List.mem_cons_self))).1
    rw [List.append_assoc, List.cons_append]
    exact sentry_eq blank solid

/-- A printed number that fits is extracted as it was printed. -/
theorem scans_unsigned {width value : Nat} {lead : List Char} (old : Nat)
    (fits : value < 2 ^ width) (blank : ∀ c ∈ lead, isSpace c = true) :
    (unsigned width old).Scans (lead ++ Nat.toDigits 10 value) value := by
  intro space rest blankAfter
  have inside : ¬ 2 ^ width ≤ value := Nat.not_le.mpr fits
  unfold unsigned
  simp only [bind_apply, sentry_number value blank, if_true, scanNumeral_toDigits value blankAfter,
    Nat.ofDigitChars_ten_toDigits, Nat.toDigits_ne_nil, inside, if_false]
  rfl

/-- A printed `int` is read back. -/
theorem scans_int {old : Int} {value : Nat} {lead : List Char} (fits : value < 2 ^ 31)
    (blank : ∀ c ∈ lead, isSpace c = true) :
    (int old).Scans (lead ++ Nat.toDigits 10 value) value := by
  intro space rest blankAfter
  have above : ¬ (value : Int) < -2 ^ 31 := by omega
  have below : ¬ 2 ^ 31 - 1 < (value : Int) := by omega
  unfold int
  simp only [bind_apply, sentry_number value blank, if_true, scanNumeral_toDigits value blankAfter,
    Nat.ofDigitChars_ten_toDigits, Nat.toDigits_ne_nil, Bool.false_eq_true, above, below, if_false]
  rfl

/-- The last word of a text, up to its end. -/
theorem finishes_word {old lead token : List Char} (blank : ∀ c ∈ lead, isSpace c = true)
    (nonempty : token ≠ []) (solid : ∀ c ∈ token, isSpace c = false) :
    (word old).Finishes (lead ++ token) token := by
  cases token with
  | nil => exact absurd rfl nonempty
  | cons c more =>
    have entered : sentry { rest := lead ++ c :: more } = (true, { rest := c :: more }) :=
      sentry_eq blank (solid c List.mem_cons_self)
    have kept : ∀ d ∈ c :: more, (!isSpace d) = true := fun d member => by
      simp [solid d member]
    have taken := @List.takeWhile_append_of_pos _ _ _ [] kept
    unfold word Finishes
    simp only [bind_apply, entered, if_true]
    simpa using taken

end Extract

end SimpleOprf.Basis
