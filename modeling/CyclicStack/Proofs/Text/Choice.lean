import CyclicStack.Proofs.Text.Floating

/-!
# Numerals by ordered choice

The grammars of numerals can be read by trying alternatives in their order.  A reader
takes what it can use from the front of a text.  Where it refuses a text, the next
alternative is tried on the same text, and a number that is out of range is refused like
a text that is no number.  After the letter of an exponent there is no way back: a
reader that breaks off there leaves no alternative.  A numeral is read in the end if
nothing is left of it.

`Text.unsigned?`, `Text.signed?` and `Text.double?` look at whole texts instead, and
give the same values on all texts.  Where a text is not read to its end by an
alternative, no later one reads it to its end either, so the first characters decide.
-/

namespace CyclicStack

namespace Text

/-- What a reader makes of a text. -/
inductive Reading (α : Type) where
  | read (value : α) (rest : List Char)
  /-- An alternative may be tried. -/
  | refused
  /-- No alternative is tried. -/
  | broken
deriving DecidableEq, Repr

abbrev Reader (α : Type) := List Char → Reading α

namespace Reader

variable {α β : Type}

/-- Goes on behind what the first reader has taken. -/
def andThen (r : Reader α) (next : α → Reader β) : Reader β := fun s =>
  match r s with
  | .read a rest => next a rest
  | .refused => .refused
  | .broken => .broken

/-- Takes nothing. -/
def done (a : α) : Reader α := fun s =>
  .read a s

/-- Tries the second reader where the first one refuses. -/
def orElse (r r' : Reader α) : Reader α := fun s =>
  match r s with
  | .refused => r' s
  | reading => reading

/-- Takes nothing where a reader refuses. -/
def optional (r : Reader α) : Reader (Option α) :=
  (r.andThen fun a => done (some a)).orElse (done none)

/-- Breaks off where a reader refuses. -/
def commit (r : Reader α) : Reader α := fun s =>
  match r s with
  | .refused => .broken
  | reading => reading

/-- Refuses a text if its value is unusable. -/
def convert (r : Reader α) (f : α → Option β) : Reader β :=
  r.andThen fun a s =>
    match f a with
    | some b => .read b s
    | none => .refused

/-- The text that a reader takes, in place of its value. -/
def taken (r : Reader α) : Reader (List Char) := fun s =>
  (r.andThen fun _ rest => .read (s.take (s.length - rest.length)) rest) s

/-- The value of a text of which nothing is left. -/
def whole? (r : Reader α) (s : List Char) : Option α :=
  match r s with
  | .read a [] => some a
  | _ => none

/-! ## Readers of characters -/

def charIf (p : Char → Bool) : Reader Char
  | [] => .refused
  | c :: rest => if p c then .read c rest else .refused

/-- A name, each letter of it small or capital. -/
def name (letters : List Char) : Reader Unit := fun s =>
  if (s.take letters.length).map Char.toLower = letters then
    .read () (s.drop letters.length)
  else .refused

/-- All characters of a kind at the front of a text. -/
def run (p : Char → Bool) : Reader (List Char) := fun s =>
  .read (s.takeWhile p) (s.dropWhile p)

/-- All characters of a kind at the front of a text, of which there must be one. -/
def run1 (p : Char → Bool) : Reader (List Char) :=
  (run p).convert fun chars => if chars = [] then none else some chars

/-! ## Integers -/

def isDigitOf (base : Nat) (c : Char) : Bool :=
  (digit? base c).isSome

/-- The word of a number below `2 ^ 64`. -/
def wordOf? (n : Nat) : Option Word :=
  if n < UInt64.size then some (UInt64.ofNat n) else none

def word? (base : Nat) (digits : List Char) : Option Word :=
  (digits? base digits).bind wordOf?

def hexadecimal : Reader Word :=
  (name ['0', 'x']).andThen fun _ => (run1 (isDigitOf 16)).convert (word? 16)

def octal : Reader Word :=
  (charIf (· == '0')).andThen fun _ => (run1 (isDigitOf 8)).convert (word? 8)

def decimal : Reader Word :=
  let digits := (charIf fun c => isDigitOf 10 c && c != '0').andThen fun _ =>
    run (isDigitOf 10)
  (digits.taken.convert (word? 10)).orElse ((charIf (· == '0')).andThen fun _ => done 0)

def magnitude : Reader Word :=
  hexadecimal.orElse (octal.orElse decimal)

def sign : Reader (Option Char) :=
  (charIf fun c => c == '+' || c == '-').optional

/-- An integer below `2 ^ 64` that may have a plus in front. -/
def unsigned : Reader Word :=
  (charIf (· == '+')).optional.andThen fun _ => magnitude

/-- An integer from `-2 ^ 63` up to `2 ^ 63 - 1` that may have a sign in front. -/
def signed : Reader Int :=
  sign.andThen fun sign =>
    magnitude.convert fun w =>
      let v : Int := if sign == some '-' then -w.toNat else w.toNat
      if -0x8000000000000000 ≤ v ∧ v < 0x8000000000000000 then some v else none

/-! ## Floating-point numbers -/

def withSign (negative : Bool) (w : Word) : Word :=
  if negative then w ^^^ Word.signBit else w

def specialName (negative : Bool) : Reader Word :=
  let value (letters : List Char) (w : Word) : Reader Word :=
    (name letters).andThen fun _ => done (withSign negative w)
  (value ['i', 'n', 'f', 'i', 'n', 'i', 't', 'y'] Word.infinity).orElse
    ((value ['i', 'n', 'f'] Word.infinity).orElse (value ['n', 'a', 'n'] Word.nan))

def special : Reader Word :=
  sign.andThen fun sign => specialName (sign == some '-')

def point : Reader Char :=
  charIf (· == '.')

/-- Digits on at least one side of a point, or digits without a point. -/
def mantissa : Reader Unit :=
  let digits := run1 (isDigitOf 10)
  let fraction := (point.andThen fun _ => digits.optional).optional
  (digits.andThen fun _ => fraction.andThen fun _ => done ()).orElse
    (point.andThen fun _ => digits.andThen fun _ => done ())

/-- An exponent.  Once its letter is read, its digits must follow. -/
def exponent : Reader Unit :=
  (charIf fun c => c == 'e' || c == 'E').andThen fun _ =>
    sign.andThen fun _ => (run1 (isDigitOf 10)).commit.andThen fun _ => done ()

/-- The shape of a decimal that may have a sign in front. -/
def shape : Reader Unit :=
  sign.andThen fun _ => mantissa.andThen fun _ =>
    exponent.optional.andThen fun _ => done ()

/-- The word of the nearest double of a decimal that may have a sign in front. -/
def nearest? (s : List Char) : Option Word :=
  (decimal? (splitSign s).2).map fun (m, e) =>
    withSign (splitSign s).1 (Word.ofDecimal m e)

def double : Reader Word :=
  special.orElse (shape.taken.convert nearest?)

/-! ## One reading -/

section

variable {r r' : Reader α} {next : α → Reader β} {s rest : List Char} {a : α}

theorem andThen_of_read (h : r s = .read a rest) :
    r.andThen next s = next a rest := by
  simp only [andThen, h]

theorem andThen_of_refused (h : r s = .refused) :
    r.andThen next s = .refused := by
  simp only [andThen, h]

theorem orElse_of_refused (h : r s = .refused) :
    r.orElse r' s = r' s := by
  simp only [orElse, h]

theorem orElse_of_ne_refused (h : r s ≠ .refused) :
    r.orElse r' s = r s := by
  unfold orElse
  split
  · next hrefused => exact absurd hrefused h
  · rfl

theorem optional_of_read (h : r s = .read a rest) :
    r.optional s = .read (some a) rest := by
  simp only [optional, orElse, andThen, h, done]

theorem optional_of_refused (h : r s = .refused) :
    r.optional s = .read none s := by
  simp only [optional, orElse, andThen, h, done]

theorem commit_ne_refused (r : Reader α) (s : List Char) :
    r.commit s ≠ .refused := by
  unfold commit
  split
  · simp
  · assumption

/-! ## Whole texts -/

theorem whole?_eq_none_of_refused (h : r s = .refused) :
    r.whole? s = none := by
  simp only [whole?, h]

theorem whole?_andThen (h : r s = .read a rest) :
    (r.andThen next).whole? s = (next a).whole? rest := by
  simp only [whole?, andThen_of_read h]

theorem whole?_orElse (h : r s = .refused) :
    (r.orElse r').whole? s = r'.whole? s := by
  simp only [whole?, orElse_of_refused h]

/-- An alternative matters only if it leaves nothing. -/
theorem whole?_orElse_of_none (h : r'.whole? s = none) :
    (r.orElse r').whole? s = r.whole? s := by
  by_cases hrefused : r s = .refused
  · rw [whole?_orElse hrefused, h, whole?_eq_none_of_refused hrefused]
  · simp only [whole?, orElse_of_ne_refused hrefused]

theorem whole?_orElse_of_some (h : r.whole? s = some a) :
    (r.orElse r').whole? s = some a := by
  have hread : r s ≠ .refused := by
    intro hrefused
    rw [whole?_eq_none_of_refused hrefused] at h
    cases h
  rw [← h]
  simp only [whole?, orElse_of_ne_refused hread]

theorem whole?_convert (f : α → Option β) :
    (r.convert f).whole? s = (r.whole? s).bind f := by
  unfold whole? convert andThen
  cases r s with
  | refused | broken => rfl
  | read a rest =>
      cases hvalue : f a <;> cases rest <;> simp [hvalue]

theorem whole?_taken :
    r.taken.whole? s = (r.whole? s).map fun _ => s := by
  unfold whole? taken andThen
  cases r s with
  | refused | broken => rfl
  | read a rest => cases rest <;> simp

theorem whole?_andThen_done (b : β) :
    (r.andThen fun _ => done b).whole? s = (r.whole? s).map fun _ => b := by
  unfold whole? andThen done
  cases r s with
  | refused | broken => rfl
  | read a rest => cases rest <;> rfl

theorem whole?_optional (h : r s ≠ .refused) :
    r.optional.whole? s = (r.whole? s).map some := by
  unfold whole? optional orElse andThen done
  cases hread : r s with
  | refused => exact absurd hread h
  | broken => rfl
  | read a rest => cases rest <;> rfl

theorem whole?_commit :
    r.commit.whole? s = r.whole? s := by
  unfold whole? commit
  cases r s <;> rfl

end

theorem whole?_run (p : Char → Bool) (s : List Char) :
    (run p).whole? s = if s.all p then some s else none := by
  unfold whole? run
  split_ifs with hall
  · rw [List.all_eq_true] at hall
    rw [List.takeWhile_eq_self_iff.mpr hall, List.dropWhile_eq_nil_iff.mpr hall]
  · rw [List.all_eq_true, ← List.dropWhile_eq_nil_iff] at hall
    split
    · next hread =>
      exact absurd (Reading.read.inj hread).2 hall
    · rfl

theorem whole?_run1 (p : Char → Bool) (s : List Char) :
    (run1 p).whole? s = if s ≠ [] ∧ s.all p then some s else none := by
  rw [run1, whole?_convert, whole?_run]
  cases hall : s.all p <;> by_cases hs : s = [] <;> simp [hs]

/-! ## Digits -/

theorem isSome_digitsFrom? (base acc : Nat) (s : List Char) :
    (digitsFrom? base acc s).isSome = s.all (isDigitOf base) := by
  induction s generalizing acc with
  | nil => rfl
  | cons c rest ih =>
      rw [digitsFrom?, List.all_cons, isDigitOf]
      cases digit? base c with
      | none => rfl
      | some d => simpa using ih _

theorem isSome_digits?_iff (base : Nat) (s : List Char) :
    (digits? base s).isSome ↔ s ≠ [] ∧ s.all (isDigitOf base) := by
  cases s with
  | nil => simp [digits?]
  | cons c rest => simp [digits?, isSome_digitsFrom?]

/-- Digits that are all of a text have the value of the text, and otherwise the text has
none. -/
theorem whole?_digits (base : Nat) (s : List Char) :
    ((run1 (isDigitOf base)).convert (word? base)).whole? s = word? base s := by
  rw [whole?_convert, whole?_run1]
  split_ifs with h
  · rfl
  · rw [← isSome_digits?_iff, Option.not_isSome_iff_eq_none] at h
    rw [word?, h]
    rfl

/-! ## Integers as whole texts -/

theorem charIf_of_head? {p : Char → Bool} {s : List Char}
    (h : ∀ c ∈ s.head?, p c = false) :
    charIf p s = .refused := by
  cases s with
  | nil => rfl
  | cons c rest => simp [charIf, h c rfl]

theorem charIf_of_ne {c : Char} {s : List Char} (h : ∀ rest, s ≠ c :: rest) :
    charIf (· == c) s = .refused := by
  refine charIf_of_head? fun first hfirst => beq_eq_false_iff_ne.mpr ?_
  rintro rfl
  obtain ⟨rest, hrest⟩ := List.head?_eq_some_iff.mp hfirst
  exact h rest hrest

theorem hexadecimal_of_x {x : Char} (hx : x = 'x' ∨ x = 'X') (rest : List Char) :
    hexadecimal ('0' :: x :: rest) = (run1 (isDigitOf 16)).convert (word? 16) rest := by
  rcases hx with rfl | rfl <;> rfl

theorem hexadecimal_of_no_x {s : List Char}
    (h : ∀ x rest, x = 'x' ∨ x = 'X' → s ≠ '0' :: x :: rest) :
    hexadecimal s = .refused := by
  refine andThen_of_refused (if_neg ?_)
  intro hletters
  match s with
  | [] | [_] => simp at hletters
  | c :: x :: rest =>
      obtain ⟨hc, hx⟩ : c.toLower = '0' ∧ x.toLower = 'x' := by simpa using hletters
      rw [toLower_eq_iff (by decide)] at hx
      have hupper : ¬c.isUpper := by
        have halpha : c.isAlpha = false := by
          rw [← Char.isLower_toLower_eq_isAlpha, hc]
          rfl
        rw [Char.isAlpha, Bool.or_eq_false_iff] at halpha
        simp [halpha.1]
      rw [Char.toLower_eq_of_not_isUpper hupper] at hc
      exact h x rest hx (by rw [hc])

theorem whole?_decimal_zero {rest : List Char} (hrest : rest ≠ []) :
    decimal.whole? ('0' :: rest) = none := by
  obtain ⟨c, more, rfl⟩ := List.exists_cons_of_ne_nil hrest
  rfl

/-- Digits of which the first is not zero are digits. -/
theorem whole?_decimal {s : List Char} (h : s.head? ≠ some '0') :
    decimal.whole? s = word? 10 s := by
  cases s with
  | nil => rfl
  | cons c rest =>
      have hc : (c == '0') = false := by simpa using h
      have hzero : (charIf (· == '0')).andThen (fun _ => done (0 : Word))
          (c :: rest) = .refused :=
        andThen_of_refused (charIf_of_head? (by simpa using h))
      rw [decimal, whole?_orElse_of_none (whole?_eq_none_of_refused hzero),
        whole?_convert, whole?_taken]
      have hnone : ¬((c :: rest).all (isDigitOf 10)) → word? 10 (c :: rest) = none := by
        intro hall
        have hdigits : ¬(digits? 10 (c :: rest)).isSome := fun h =>
          hall ((isSome_digits?_iff 10 _).mp h).2
        rw [word?, Option.not_isSome_iff_eq_none.mp hdigits]
        rfl
      cases hdigit : isDigitOf 10 c with
      | false =>
          have hfirst : (charIf fun c => isDigitOf 10 c && c != '0') (c :: rest) =
              .refused := by
            simp [charIf, hdigit]
          rw [whole?_eq_none_of_refused (andThen_of_refused hfirst),
            hnone (by simp [hdigit])]
          rfl
      | true =>
          have hfirst : (charIf fun c => isDigitOf 10 c && c != '0') (c :: rest) =
              .read c rest := by
            simp [charIf, hdigit, hc, bne]
          rw [whole?_andThen hfirst, whole?_run]
          split_ifs with hall
          · rfl
          · rw [hnone (by simpa [hdigit] using hall)]
            rfl

theorem whole?_octal (rest : List Char) :
    octal.whole? ('0' :: rest) = word? 8 rest :=
  whole?_digits 8 rest

theorem whole?_magnitude (s : List Char) :
    magnitude.whole? s = (magnitude? s).bind wordOf? := by
  have hhex : ∀ (x : Char) (rest : List Char), x = 'x' ∨ x = 'X' →
      magnitude.whole? ('0' :: x :: rest) = (digits? 16 rest).bind wordOf? := by
    intro x rest hx
    have hoctal : octal ('0' :: x :: rest) = .refused := by
      rcases hx with rfl | rfl <;> rfl
    have hother : (octal.orElse decimal).whole? ('0' :: x :: rest) = none := by
      rw [whole?_orElse hoctal, whole?_decimal_zero (List.cons_ne_nil x rest)]
    rw [magnitude, whole?_orElse_of_none hother, whole?, hexadecimal_of_x hx]
    exact whole?_digits 16 rest
  unfold magnitude?
  split
  · rfl
  · exact hhex 'x' _ (.inl rfl)
  · exact hhex 'X' _ (.inr rfl)
  · next rest hzero hlower hupper =>
    have hrest : rest ≠ [] := by
      rintro rfl
      exact hzero rfl
    have hmark : ∀ x more, x = 'x' ∨ x = 'X' → '0' :: rest ≠ '0' :: x :: more := by
      rintro x more (rfl | rfl) heq
      · exact hlower more (List.cons.inj heq).2
      · exact hupper more (List.cons.inj heq).2
    rw [magnitude, whole?_orElse (hexadecimal_of_no_x hmark),
      whole?_orElse_of_none (whole?_decimal_zero hrest), whole?_octal]
    rfl
  · next hfirst =>
    have hhead : s.head? ≠ some '0' := by
      intro hhead
      obtain ⟨rest, hrest⟩ := List.head?_eq_some_iff.mp hhead
      exact hfirst rest hrest
    have hoctal : octal s = .refused := andThen_of_refused (charIf_of_ne hfirst)
    rw [magnitude, whole?_orElse (hexadecimal_of_no_x fun x rest _ => hfirst _),
      whole?_orElse hoctal, whole?_decimal hhead]
    rfl

theorem whole?_unsigned (s : List Char) :
    unsigned.whole? s = unsigned? s := by
  unfold unsigned unsigned?
  split
  · exact whole?_magnitude _
  · next hplus =>
    rw [whole?_andThen (optional_of_refused (charIf_of_ne hplus)), whole?_magnitude]
    rfl

/-- The sign of a text is taken from it, and nothing if it has none. -/
theorem sign_eq (s : List Char) :
    ∃ c, sign s = .read c (splitSign s).2 ∧ (c == some '-') = (splitSign s).1 := by
  unfold splitSign
  split
  · exact ⟨_, rfl, rfl⟩
  · exact ⟨_, rfl, rfl⟩
  · next hplus hminus =>
    have hfirst : (charIf fun c => c == '+' || c == '-') s = .refused := by
      refine charIf_of_head? fun c hc => ?_
      obtain ⟨rest, hrest⟩ := List.head?_eq_some_iff.mp hc
      rw [Bool.or_eq_false_iff, beq_eq_false_iff_ne, beq_eq_false_iff_ne]
      constructor
      · rintro rfl
        exact hplus rest hrest
      · rintro rfl
        exact hminus rest hrest
    exact ⟨none, optional_of_refused hfirst, rfl⟩

/-- A magnitude of more than 64 bits is out of the range of signed numbers as well. -/
theorem whole?_signed (s : List Char) :
    signed.whole? s = signed? s := by
  obtain ⟨c, hsign, hminus⟩ := sign_eq s
  rw [signed, whole?_andThen hsign, whole?_convert, whole?_magnitude, signed?, hminus]
  dsimp only
  cases magnitude? (splitSign s).2 with
  | none => rfl
  | some m =>
      by_cases hm : m < UInt64.size
      · rw [Option.bind_some, Option.bind_some, wordOf?, if_pos hm, Option.bind_some,
          UInt64.toNat_ofNat_of_lt' hm]
      · have hlarge : 18446744073709551616 ≤ m := not_lt.mp hm
        rw [Option.bind_some, Option.bind_some, wordOf?, if_neg hm,
          if_neg (by split_ifs <;> omega)]
        rfl

/-! ## Floating-point numbers as whole texts -/

theorem whole?_name (letters s : List Char) (w : Word) :
    ((name letters).andThen fun _ => done w).whole? s =
      if s.map Char.toLower = letters then some w else none := by
  by_cases hs : s.map Char.toLower = letters
  · have hlength : s.length = letters.length := by rw [← hs, List.length_map]
    simp [whole?, andThen, name, done, ← hlength, hs]
  · rw [if_neg hs]
    by_cases hfront : (s.take letters.length).map Char.toLower = letters
    · have hmore : s.drop letters.length ≠ [] := by
        intro hdrop
        rw [List.drop_eq_nil_iff] at hdrop
        rw [List.take_of_length_le hdrop] at hfront
        exact hs hfront
      obtain ⟨c, rest, hrest⟩ := List.exists_cons_of_ne_nil hmore
      simp [whole?, andThen, name, done, hfront, hrest]
    · exact whole?_eq_none_of_refused (andThen_of_refused (if_neg hfront))

theorem name_of_head? {l : Char} {letters s : List Char}
    (h : ∀ c ∈ s.head?, c.toLower ≠ l) :
    name (l :: letters) s = .refused := by
  cases s with
  | nil => rfl
  | cons c rest => simp [name, h c rfl]

theorem whole?_specialName (negative : Bool) (s : List Char) :
    (specialName negative).whole? s =
      if s.map Char.toLower = ['i', 'n', 'f'] ∨
          s.map Char.toLower = ['i', 'n', 'f', 'i', 'n', 'i', 't', 'y'] then
        some (withSign negative Word.infinity)
      else if s.map Char.toLower = ['n', 'a', 'n'] then
        some (withSign negative Word.nan)
      else none := by
  rw [specialName]
  dsimp only
  by_cases hinfinity : s.map Char.toLower = ['i', 'n', 'f', 'i', 'n', 'i', 't', 'y']
  · rw [if_pos (.inr hinfinity)]
    exact whole?_orElse_of_some ((whole?_name _ s _).trans (if_pos hinfinity))
  by_cases hinf : s.map Char.toLower = ['i', 'n', 'f']
  · -- The longer name is tried first, but the text is too short for it.
    have hshort : s.length = 3 := by
      rw [← List.length_map Char.toLower, hinf]
      rfl
    have hname : name ['i', 'n', 'f', 'i', 'n', 'i', 't', 'y'] s = .refused := by
      refine if_neg ?_
      rw [List.take_of_length_le (by simp [hshort]), hinf]
      decide
    rw [if_pos (.inl hinf), whole?_orElse (andThen_of_refused hname)]
    exact whole?_orElse_of_some ((whole?_name _ s _).trans (if_pos hinf))
  rw [if_neg (not_or.mpr ⟨hinf, hinfinity⟩)]
  by_cases hnan : s.map Char.toLower = ['n', 'a', 'n']
  · have hhead : ∀ c ∈ s.head?, c.toLower ≠ 'i' := by
      intro c hc
      obtain ⟨rest, rfl⟩ := List.head?_eq_some_iff.mp hc
      rw [(List.cons.inj hnan).1]
      decide
    rw [if_pos hnan, whole?_orElse (andThen_of_refused (name_of_head? hhead)),
      whole?_orElse (andThen_of_refused (name_of_head? hhead)), whole?_name,
      if_pos hnan]
  · rw [if_neg hnan, whole?_orElse_of_none, whole?_name, if_neg hinfinity]
    rw [whole?_orElse_of_none, whole?_name, if_neg hinf]
    rw [whole?_name, if_neg hnan]

theorem isDigitOf_ten :
    isDigitOf 10 = Char.isDigit := by
  funext c
  rw [Bool.eq_iff_iff, isDigitOf, Option.isSome_iff_exists]
  constructor
  · rintro ⟨d, hd⟩
    exact ((digit?_eq_some_iff (by norm_num)).mp hd).isDigit
  · intro hc
    rw [Char.isDigit, Bool.and_eq_true, decide_eq_true_eq, decide_eq_true_eq] at hc
    have hrange : 48 ≤ c.toNat ∧ c.toNat ≤ 57 := hc
    refine ⟨c.toNat - 48, (digit?_eq_some_iff (by norm_num)).mpr ⟨by omega, .inl ?_⟩⟩
    apply Char.toNat_inj.mp
    rw [Nat.toNat_digitChar_of_lt_ten (by omega)]
    omega

theorem run1_of_ne {p : Char → Bool} {s : List Char} (h : s.takeWhile p ≠ []) :
    run1 p s = .read (s.takeWhile p) (s.dropWhile p) := by
  simp [run1, convert, andThen, run, h]

theorem run1_of_eq {p : Char → Bool} {s : List Char} (h : s.takeWhile p = []) :
    run1 p s = .refused := by
  simp [run1, convert, andThen, run, h]

theorem dropWhile_eq_self {p : Char → Bool} {s : List Char} (h : s.takeWhile p = []) :
    s.dropWhile p = s := by
  have hsplit := List.takeWhile_append_dropWhile (p := p) (l := s)
  rwa [h, List.nil_append] at hsplit

theorem optional_run1 (p : Char → Bool) (s : List Char) :
    ∃ found, (run1 p).optional s = .read found (s.dropWhile p) := by
  by_cases h : s.takeWhile p = []
  · exact ⟨none, by rw [optional_of_refused (run1_of_eq h), dropWhile_eq_self h]⟩
  · exact ⟨_, optional_of_read (run1_of_ne h)⟩

/-- Digits in front are a mantissa together with a point and the digits behind it. -/
theorem mantissa_of_digits {s rest : List Char}
    {found : Option (Option (List Char))} (h : s.takeWhile Char.isDigit ≠ [])
    (hfraction : (point.andThen fun _ => (run1 Char.isDigit).optional).optional
      (s.dropWhile Char.isDigit) = .read found rest) :
    mantissa s = .read () rest := by
  have hread : ((run1 Char.isDigit).andThen fun _ =>
      (point.andThen fun _ => (run1 Char.isDigit).optional).optional.andThen
        fun _ => done ()) s = .read () rest := by
    rw [andThen_of_read (run1_of_ne h), andThen_of_read hfraction]
    rfl
  rw [mantissa, isDigitOf_ten, orElse_of_ne_refused (by rw [hread]; simp), hread]

theorem mantissa_of_point {s after : List Char}
    (h : s.dropWhile Char.isDigit = '.' :: after) :
    mantissa s =
      if s.takeWhile Char.isDigit ++ after.takeWhile Char.isDigit = [] then .refused
      else .read () (after.dropWhile Char.isDigit) := by
  by_cases hwhole : s.takeWhile Char.isDigit = []
  · obtain rfl : s = '.' :: after := (dropWhile_eq_self hwhole).symm.trans h
    rw [mantissa, isDigitOf_ten,
      orElse_of_refused (andThen_of_refused (run1_of_eq hwhole)), hwhole,
      List.nil_append]
    change ((run1 Char.isDigit).andThen fun _ => done ()) after = _
    split_ifs with hfraction
    · exact andThen_of_refused (run1_of_eq hfraction)
    · exact andThen_of_read (run1_of_ne hfraction)
  · obtain ⟨found, hfraction⟩ := optional_run1 Char.isDigit after
    have hpoint : (point.andThen fun _ => (run1 Char.isDigit).optional)
        ('.' :: after) = .read found (after.dropWhile Char.isDigit) := hfraction
    rw [if_neg (by simp [hwhole])]
    apply mantissa_of_digits hwhole
    rw [h, optional_of_read hpoint]

theorem mantissa_of_no_point {s : List Char}
    (h : ∀ after, s.dropWhile Char.isDigit ≠ '.' :: after) :
    mantissa s =
      if s.takeWhile Char.isDigit = [] then .refused
      else .read () (s.dropWhile Char.isDigit) := by
  have hpoint : point (s.dropWhile Char.isDigit) = .refused := charIf_of_ne h
  split_ifs with hwhole
  · rw [dropWhile_eq_self hwhole] at hpoint
    rw [mantissa, isDigitOf_ten,
      orElse_of_refused (andThen_of_refused (run1_of_eq hwhole))]
    exact andThen_of_refused hpoint
  · exact mantissa_of_digits hwhole (optional_of_refused (andThen_of_refused hpoint))

/-- A text that starts like an exponent is one as a whole or is not read at all. -/
theorem isSome_whole?_exponent (s : List Char) :
    (exponent.optional.whole? s).isSome = (exponent? s).isSome := by
  cases s with
  | nil => rfl
  | cons c rest =>
      by_cases hc : c = 'e' ∨ c = 'E'
      · obtain ⟨found, hsign, -⟩ := sign_eq rest
        have hletter : (charIf fun c => c == 'e' || c == 'E') (c :: rest) =
            .read c rest := by
          rcases hc with rfl | rfl <;> rfl
        have hexponent : exponent (c :: rest) =
            ((run1 (isDigitOf 10)).commit.andThen fun _ => done ())
              (splitSign rest).2 := by
          rw [exponent, andThen_of_read hletter, andThen_of_read hsign]
        have hread : exponent (c :: rest) ≠ .refused := by
          rw [hexponent]
          cases hdigits : (run1 (isDigitOf 10)).commit (splitSign rest).2 with
          | refused => exact absurd hdigits (commit_ne_refused _ _)
          | broken | read => simp [andThen, hdigits, done]
        have hwhole : exponent.whole? (c :: rest) =
            ((run1 (isDigitOf 10)).whole? (splitSign rest).2).map fun _ => () := by
          rw [whole?, hexponent, ← whole?_commit, ← whole?_andThen_done]
          rfl
        rw [whole?_optional hread, hwhole, exponent?_cons hc, Option.isSome_map,
          Option.isSome_map, Option.isSome_map, whole?_run1, Bool.eq_iff_iff,
          isSome_digits?_iff]
        split_ifs with hall
        · exact iff_of_true rfl hall
        · exact iff_of_false Bool.false_ne_true hall
      · have hletter : (charIf fun c => c == 'e' || c == 'E') (c :: rest) = .refused :=
          charIf_of_head? (by simpa [not_or] using hc)
        have hrefused : exponent.optional (c :: rest) = .read none (c :: rest) :=
          optional_of_refused (andThen_of_refused hletter)
        simp [exponent?, hc, whole?, hrefused]

example : exponent ['e'] = .broken ∧ double ['1', 'e'] = .broken := by
  decide

theorem isSome_whole?_mantissa {s chars rest : List Char}
    (h : mantissa s = if chars = [] then .refused else .read () rest)
    (hchars : ∀ c ∈ chars, c.isDigit = true) :
    ((mantissa.andThen fun _ =>
        exponent.optional.andThen fun _ => done ()).whole? s).isSome ↔
      (digits? 10 chars).isSome ∧ (exponent? rest).isSome := by
  have hdigits : (digits? 10 chars).isSome ↔ chars ≠ [] := by
    rw [isSome_digits?_iff, isDigitOf_ten, List.all_eq_true]
    exact and_iff_left hchars
  rw [hdigits]
  split_ifs at h with hempty
  · rw [whole?_eq_none_of_refused (andThen_of_refused h)]
    simp [hempty]
  · rw [whole?_andThen h, whole?_andThen_done, Option.isSome_map,
      isSome_whole?_exponent]
    exact (and_iff_right hempty).symm

theorem isDigit_of_mem_takeWhile {s : List Char} :
    ∀ c ∈ s.takeWhile Char.isDigit, c.isDigit = true :=
  fun _ => List.mem_takeWhile_imp

theorem isSome_whole?_shape (s : List Char) :
    (shape.whole? s).isSome ↔ (decimal? (splitSign s).2).isSome := by
  obtain ⟨found, hsign, -⟩ := sign_eq s
  rw [shape, whole?_andThen hsign]
  generalize (splitSign s).2 = body
  by_cases hpoint : ∃ after, body.dropWhile Char.isDigit = '.' :: after
  · obtain ⟨after, hafter⟩ := hpoint
    rw [isSome_whole?_mantissa (mantissa_of_point hafter)
      (List.forall_mem_append.mpr ⟨isDigit_of_mem_takeWhile, isDigit_of_mem_takeWhile⟩)]
    simp only [Option.isSome_iff_exists, Prod.exists, decimal?_of_point hafter]
    constructor
    · rintro ⟨⟨m, hm⟩, x, hx⟩
      exact ⟨m, _, hm, x, hx, rfl⟩
    · rintro ⟨m, _, hm, x, hx, -⟩
      exact ⟨⟨m, hm⟩, x, hx⟩
  · rw [isSome_whole?_mantissa (mantissa_of_no_point (not_exists.mp hpoint))
      isDigit_of_mem_takeWhile]
    simp only [Option.isSome_iff_exists, Prod.exists,
      decimal?_of_no_point (not_exists.mp hpoint), exists_and_left, exists_and_right]

theorem whole?_nearest (s : List Char) :
    (shape.taken.convert nearest?).whole? s = nearest? s := by
  rw [whole?_convert, whole?_taken]
  cases hshape : shape.whole? s with
  | some _ => rfl
  | none =>
      have hdecimal : ¬(decimal? (splitSign s).2).isSome := by
        rw [← isSome_whole?_shape, hshape]
        exact Bool.false_ne_true
      rw [nearest?, Option.not_isSome_iff_eq_none.mp hdecimal]
      rfl

/-- No special value is spelled like a decimal. -/
theorem specialName_of_decimal {s : List Char} {m : Nat} {e : Int} (h : Decimal s m e)
    (negative : Bool) :
    specialName negative s = .refused := by
  have hhead : ∀ l : Char, l = 'i' ∨ l = 'n' → ∀ c ∈ s.head?, c.toLower ≠ l := by
    intro l hl c hc hlower
    obtain ⟨c', rest, rfl, hfirst⟩ := h.head
    obtain rfl := Option.some.inj hc
    rw [toLower_eq_iff (by rcases hl with rfl | rfl <;> rfl)] at hlower
    rcases hl with rfl | rfl <;> rcases hlower with rfl | rfl <;>
      exact absurd hfirst (by decide)
  rw [specialName]
  dsimp only
  rw [orElse_of_refused (andThen_of_refused (name_of_head? (hhead 'i' (.inl rfl)))),
    orElse_of_refused (andThen_of_refused (name_of_head? (hhead 'i' (.inl rfl))))]
  exact andThen_of_refused (name_of_head? (hhead 'n' (.inr rfl)))

/-- A text is read as a double if it is a special value, and as a decimal otherwise. -/
theorem whole?_double (s : List Char) :
    double.whole? s = double? s := by
  obtain ⟨c, hsign, hminus⟩ := sign_eq s
  have hdouble : double? s =
      (unsignedDouble? (splitSign s).2).map (withSign (splitSign s).1) := rfl
  rw [hdouble, double]
  cases hdecimal : decimal? (splitSign s).2 with
  | none =>
      have hnearest : (shape.taken.convert nearest?).whole? s = none := by
        rw [whole?_nearest, nearest?, hdecimal]
        rfl
      rw [whole?_orElse_of_none hnearest, special, whole?_andThen hsign, hminus,
        whole?_specialName, unsignedDouble?, hdecimal]
      dsimp only
      split_ifs <;> rfl
  | some value =>
      obtain ⟨m, e⟩ := value
      have hnumber := decimal?_eq_some_iff.mp hdecimal
      have hspecial : special s = .refused := by
        rw [special, andThen_of_read hsign, specialName_of_decimal hnumber]
      have hword := unsignedDouble?_eq_some_iff.mpr
        (.number hnumber (Word.isNearestDouble_ofDecimal m e))
      rw [whole?_orElse hspecial, whole?_nearest, nearest?, hdecimal, hword]
      rfl

end Reader

end Text

end CyclicStack
