import CyclicStack.Proofs.Number.Double
import CyclicStack.Proofs.Text.Numeral

/-!
# The grammar of floating-point numbers

A floating-point number is a decimal or the name of a special value, with a sign in
front or without one.  A decimal has digits on at least one side of its point, or digits
without a point, and may end with an exponent.  The reader accepts the words of this
grammar and no others, and gives the nearest double of a decimal.  What the initial
value of a variable does not give as an integer is read by the same grammar.

The reader cuts a decimal where its digits end.  Neither a point nor the letter of an
exponent is a digit, so the cuts are where the grammar has them; the rest is a case
split over the first characters.
-/

namespace CyclicStack

namespace Text

/-- The text is the name, each letter of it small or capital. -/
def AnyCase (name text : List Char) : Prop :=
  List.Forall₂ (fun l c => c = l ∨ c = l.toUpper) name text

/-- How the exponent of a decimal is written, if there is one. -/
inductive Exponent : List Char → Int → Prop
  | none : Exponent [] 0
  | bare {c : Char} {digits : List Char} {n : Nat} (hc : c = 'e' ∨
      c = 'E') (hne : digits ≠ [])
      (h : Digits 10 digits n) : Exponent (c :: digits) n
  | plus {c : Char} {digits : List Char} {n : Nat} (hc : c = 'e' ∨
      c = 'E') (hne : digits ≠ [])
      (h : Digits 10 digits n) : Exponent (c :: '+' :: digits) n
  | minus {c : Char} {digits : List Char} {n : Nat} (hc : c = 'e' ∨
      c = 'E') (hne : digits ≠ [])
      (h : Digits 10 digits n) : Exponent (c :: '-' :: digits) (-n)

/-- How a decimal without a sign is written.  Its value is the number times the power of
ten: each digit after the point takes one from the exponent. -/
inductive Decimal : List Char → Nat → Int → Prop
  | whole {whole tail : List Char} {m : Nat} {e : Int} (hne : whole ≠ [])
      (h : Digits 10 whole m)
      (he : Exponent tail e) : Decimal (whole ++ tail) m e
  | point {whole fraction tail : List Char} {m : Nat} {e : Int} (hne : whole ≠ [])
      (h : Digits 10 (whole ++ fraction) m) (he : Exponent tail e) :
      Decimal (whole ++ '.' :: fraction ++ tail) m (e - fraction.length)
  | fraction {fraction tail : List Char} {m : Nat} {e : Int} (hne : fraction ≠ [])
      (h : Digits 10 fraction m) (he : Exponent tail e) :
      Decimal ('.' :: fraction ++ tail) m (e - fraction.length)

/-- How a floating-point number without a sign is written, and the word of it.  That of
a decimal is the nearest double. -/
inductive UnsignedFloating : List Char → Word → Prop
  | inf {text : List Char} (h : AnyCase ['i', 'n', 'f'] text) :
      UnsignedFloating text Word.infinity
  | infinity {text : List Char}
      (h : AnyCase ['i', 'n', 'f', 'i', 'n', 'i', 't', 'y'] text) :
      UnsignedFloating text Word.infinity
  | nan {text : List Char} (h : AnyCase ['n', 'a', 'n'] text) :
      UnsignedFloating text Word.nan
  | number {text : List Char} {m : Nat} {e : Int} {w : Word} (h : Decimal text m e)
      (hw : Word.IsNearestDouble (m * 10 ^ e) w) : UnsignedFloating text w

/-- A floating-point number that may have a sign in front.  A minus sets the sign
bit. -/
inductive Floating : List Char → Word → Prop
  | bare {body : List Char} {w : Word} (h : UnsignedFloating body w) : Floating body w
  | plus {body : List Char} {w : Word} (h : UnsignedFloating body w) :
      Floating ('+' :: body) w
  | minus {body : List Char} {w : Word} (h : UnsignedFloating body w) :
      Floating ('-' :: body) (w ^^^ Word.signBit)

/-! ## Special values -/

theorem toLower_eq_iff {l c : Char} (hl : l.isLower) :
    c.toLower = l ↔ c = l ∨ c = l.toUpper := by
  have hupper : ¬l.isUpper := by simp [Char.not_isUpper_of_isLower hl]
  constructor
  · rintro rfl
    by_cases hc : c.isUpper
    · right
      rw [Char.toUpper_toLower_eq_toUpper,
        Char.toUpper_eq_of_not_isLower (by simp [Char.not_isLower_of_isUpper hc])]
    · exact .inl (Char.toLower_eq_of_not_isUpper hc).symm
  · rintro (rfl | rfl)
    · exact Char.toLower_eq_of_not_isUpper hupper
    · rw [Char.toLower_toUpper_eq_toLower, Char.toLower_eq_of_not_isUpper hupper]

theorem map_toLower_eq_iff {name : List Char} (hname : name.all Char.isLower = true)
    (text : List Char) :
    text.map Char.toLower = name ↔ AnyCase name text := by
  induction name generalizing text with
  | nil => simp [AnyCase]
  | cons l name ih =>
      rw [List.all_cons, Bool.and_eq_true] at hname
      cases text with
      | nil => simp [AnyCase]
      | cons c text =>
          rw [List.map_cons, List.cons.injEq, toLower_eq_iff hname.1, ih hname.2]
          simp [AnyCase]

/-! ## Decimals -/

theorem IsDigit.isDigit {c : Char} {d : Nat} (h : IsDigit 10 c d) :
    c.isDigit = true := by
  obtain ⟨hd, rfl | rfl⟩ := h
  · simpa [Nat.isDigit_digitChar] using hd
  · interval_cases d <;> rfl

theorem Digits.isDigit {n : Nat} {chars : List Char} (h : Digits 10 chars n) :
    ∀ c ∈ chars, c.isDigit = true := by
  obtain ⟨ds, hds, -⟩ := h
  induction hds with
  | nil => simp
  | cons hd _ ih => exact List.forall_mem_cons.mpr ⟨hd.isDigit, ih⟩

theorem splitSign_cases (s : List Char) :
    (∃ rest, s = '+' :: rest) ∨ (∃ rest, s = '-' :: rest) ∨ splitSign s =
    (false, s) := by
  unfold splitSign
  split
  · next rest => exact .inl ⟨rest, rfl⟩
  · next rest => exact .inr (.inl ⟨rest, rfl⟩)
  · exact .inr (.inr rfl)

/-- Digits do not start with a sign. -/
theorem splitSign_of_digits {n : Nat} {digits : List Char} (h : Digits 10 digits n) :
    splitSign digits = (false, digits) := by
  unfold splitSign
  split
  · exact absurd (h.isDigit '+' List.mem_cons_self) (by decide)
  · exact absurd (h.isDigit '-' List.mem_cons_self) (by decide)
  · rfl

theorem exponent?_cons {c : Char} (hc : c = 'e' ∨ c = 'E') (rest : List Char) :
    exponent? (c :: rest) =
      (digits? 10 (splitSign rest).2).map fun n : Nat =>
        if (splitSign rest).1 then -(n : Int) else (n : Int) := by
  rw [exponent?, if_pos hc]
  obtain ⟨negative, digits⟩ := splitSign rest
  dsimp only
  cases digits? 10 digits <;> rfl

theorem exponent?_eq_some_iff {tail : List Char} {e : Int} :
    exponent? tail = some e ↔ Exponent tail e := by
  constructor
  · intro h
    cases tail with
    | nil =>
        obtain rfl := Option.some.inj h
        exact .none
    | cons c rest =>
        by_cases hc : c = 'e' ∨ c = 'E'
        · rw [exponent?_cons hc] at h
          obtain ⟨n, hn, rfl⟩ := Option.map_eq_some_iff.mp h
          obtain ⟨hne, hdigits⟩ := (digits?_eq_some_iff (by norm_num)).mp hn
          rcases splitSign_cases rest with ⟨digits, rfl⟩ | ⟨digits, rfl⟩ | hbare
          · exact .plus hc hne hdigits
          · exact .minus hc hne hdigits
          · rw [hbare] at hne hdigits ⊢
            exact .bare hc hne hdigits
        · rw [exponent?, if_neg hc] at h
          cases h
  · intro h
    cases h with
    | none => rfl
    | bare hc hne h =>
        have hread := (digits?_eq_some_iff (by norm_num)).mpr ⟨hne, h⟩
        rw [exponent?_cons hc, splitSign_of_digits h, hread]
        rfl
    | plus hc hne h =>
        have hread := (digits?_eq_some_iff (by norm_num)).mpr ⟨hne, h⟩
        rw [exponent?_cons hc, splitSign, hread]
        rfl
    | minus hc hne h =>
        have hread := (digits?_eq_some_iff (by norm_num)).mpr ⟨hne, h⟩
        rw [exponent?_cons hc, splitSign, hread]
        rfl

/-- What follows the digits of a decimal starts neither with a digit nor with a
point. -/
theorem Exponent.head {c : Char} {rest : List Char} {e : Int}
    (h : Exponent (c :: rest) e) :
    c = 'e' ∨ c = 'E' := by
  cases h <;> assumption

theorem Exponent.head?_isDigit {tail : List Char} {e : Int} (h : Exponent tail e) :
    ∀ c ∈ tail.head?, c.isDigit = false := by
  intro c hc
  obtain ⟨rest, rfl⟩ := List.head?_eq_some_iff.mp hc
  rcases h.head with rfl | rfl
  · rfl
  · rfl

section

variable {digits tail : List Char} (hdigits : ∀ c ∈ digits, c.isDigit = true)
  (htail : ∀ c ∈ tail.head?, c.isDigit = false)
include hdigits htail

theorem takeWhile_digits :
    (digits ++ tail).takeWhile Char.isDigit = digits := by
  rw [List.takeWhile_append_of_pos hdigits]
  cases tail with
  | nil => simp
  | cons c rest => simp [htail c rfl]

theorem dropWhile_digits :
    (digits ++ tail).dropWhile Char.isDigit = tail := by
  rw [List.dropWhile_append_of_pos hdigits]
  cases tail with
  | nil => simp
  | cons c rest => simp [htail c rfl]

end

/-- A decimal with a point after its first digits. -/
theorem decimal?_of_point {s after : List Char} {m : Nat} {e : Int}
    (h : s.dropWhile Char.isDigit = '.' :: after) :
    decimal? s = some (m, e) ↔
      digits? 10 (s.takeWhile Char.isDigit ++ after.takeWhile Char.isDigit) = some m ∧
        ∃ x, exponent? (after.dropWhile Char.isDigit) = some x ∧
          x - (after.takeWhile Char.isDigit).length = e := by
  simp only [decimal?, h]
  split
  · next m' x hm hx => simp [hm, hx]
  · next hnone =>
    refine iff_of_false (by simp) ?_
    rintro ⟨hm, x, hx, -⟩
    exact hnone m x hm hx

/-- A decimal without a point after its first digits. -/
theorem decimal?_of_no_point {s : List Char} {m : Nat} {e : Int}
    (h : ∀ after, s.dropWhile Char.isDigit ≠ '.' :: after) :
    decimal? s = some (m, e) ↔
      digits? 10 (s.takeWhile Char.isDigit) = some m ∧
        exponent? (s.dropWhile Char.isDigit) = some e := by
  simp only [decimal?, List.append_nil, List.length_nil, Nat.cast_zero, sub_zero]
  split
  · next m' x hm hx => simp [hm, hx]
  · next hnone =>
    refine iff_of_false (by simp) ?_
    rintro ⟨hm, hx⟩
    exact hnone m e hm hx

theorem decimal?_whole {whole tail : List Char} {m : Nat} {e : Int} (hne : whole ≠ [])
    (h : Digits 10 whole m) (he : Exponent tail e) :
    decimal? (whole ++ tail) = some (m, e) := by
  have htake := takeWhile_digits h.isDigit he.head?_isDigit
  have hdrop := dropWhile_digits h.isDigit he.head?_isDigit
  have hpoint : ∀ after, (whole ++ tail).dropWhile Char.isDigit ≠ '.' :: after := by
    rw [hdrop]
    rintro after rfl
    simpa using he.head
  rw [decimal?_of_no_point hpoint, htake, hdrop]
  exact ⟨(digits?_eq_some_iff (by norm_num)).mpr ⟨hne, h⟩, exponent?_eq_some_iff.mpr he⟩

theorem decimal?_point (whole : List Char) {fraction tail : List Char} {m : Nat}
    {e : Int} (hne : whole ++ fraction ≠ []) (h : Digits 10 (whole ++ fraction) m)
    (he : Exponent tail e) :
    decimal? (whole ++ '.' :: fraction ++ tail) = some (m, e - fraction.length) := by
  obtain ⟨hwhole, hfraction⟩ := List.forall_mem_append.mp h.isDigit
  have hstop : ∀ c ∈ ('.' :: (fraction ++ tail)).head?, c.isDigit = false := by simp
  have htake := takeWhile_digits hwhole hstop
  have hdrop := dropWhile_digits hwhole hstop
  rw [List.append_assoc, List.cons_append, decimal?_of_point hdrop, htake,
    takeWhile_digits hfraction he.head?_isDigit,
    dropWhile_digits hfraction he.head?_isDigit]
  exact ⟨(digits?_eq_some_iff (by norm_num)).mpr ⟨hne, h⟩, e,
    exponent?_eq_some_iff.mpr he, rfl⟩

theorem decimal?_eq_some_iff {s : List Char} {m : Nat} {e : Int} :
    decimal? s = some (m, e) ↔ Decimal s m e := by
  constructor
  · intro h
    have hsplit := List.takeWhile_append_dropWhile (p := Char.isDigit) (l := s)
    by_cases hpoint : ∃ after, s.dropWhile Char.isDigit = '.' :: after
    · obtain ⟨after, hafter⟩ := hpoint
      have hsplit' := List.takeWhile_append_dropWhile (p := Char.isDigit) (l := after)
      obtain ⟨hm, x, hx, rfl⟩ := (decimal?_of_point hafter).mp h
      obtain ⟨hne, hdigits⟩ := (digits?_eq_some_iff (by norm_num)).mp hm
      have hexponent := exponent?_eq_some_iff.mp hx
      rw [hafter] at hsplit
      generalize s.takeWhile Char.isDigit = whole at *
      generalize after.takeWhile Char.isDigit = fraction at *
      generalize after.dropWhile Char.isDigit = tail at *
      obtain rfl : s = whole ++ '.' :: fraction ++ tail := by simp [← hsplit, ← hsplit']
      by_cases hwhole : whole = []
      · subst hwhole
        exact .fraction hne hdigits hexponent
      · exact .point hwhole hdigits hexponent
    · obtain ⟨hm, hx⟩ := (decimal?_of_no_point (not_exists.mp hpoint)).mp h
      obtain ⟨hne, hdigits⟩ := (digits?_eq_some_iff (by norm_num)).mp hm
      rw [← hsplit]
      exact .whole hne hdigits (exponent?_eq_some_iff.mp hx)
  · intro h
    cases h with
    | whole hne h he => exact decimal?_whole hne h he
    | point hne h he => exact decimal?_point _ (by simp [hne]) h he
    | fraction hne h he => exact decimal?_point [] hne h he

/-- A decimal starts with a digit or with a point. -/
theorem Decimal.head {s : List Char} {m : Nat} {e : Int} (h : Decimal s m e) :
    ∃ c rest, s = c :: rest ∧ (c.isDigit = true ∨ c = '.') := by
  cases h with
  | whole hne h _ =>
      obtain ⟨c, rest, rfl⟩ := List.exists_cons_of_ne_nil hne
      exact ⟨c, _, rfl, .inl (h.isDigit c List.mem_cons_self)⟩
  | point hne h _ =>
      obtain ⟨c, rest, rfl⟩ := List.exists_cons_of_ne_nil hne
      exact ⟨c, _, rfl, .inl (h.isDigit c List.mem_cons_self)⟩
  | fraction _ _ _ => exact ⟨'.', _, rfl, .inr rfl⟩

/-! ## Floating-point numbers -/

theorem anyCase_refl (name : List Char) :
    AnyCase name name :=
  List.forall₂_same.mpr fun _ _ => .inl rfl

theorem AnyCase.head {l : Char} {name text : List Char} (h : AnyCase (l :: name) text) :
    ∃ c rest, text = c :: rest ∧ (c = l ∨ c = l.toUpper) := by
  obtain ⟨c, rest, hc, -, rfl⟩ := List.forall₂_cons_left_iff.mp h
  exact ⟨c, rest, rfl, hc⟩

/-- No name of a special value is a decimal, nor does one name start like the other. -/
theorem Decimal.not_anyCase {s : List Char} {m : Nat} {e : Int} (h : Decimal s m e)
    {l : Char} (hl : l = 'i' ∨ l = 'n') (name : List Char) :
    ¬AnyCase (l :: name) s := by
  intro hname
  obtain ⟨c, rest, rfl, hfirst⟩ := h.head
  obtain ⟨c', rest', heq, hletter⟩ := hname.head
  obtain ⟨rfl, -⟩ := List.cons.inj heq
  rcases hl with rfl | rfl <;> rcases hletter with rfl | rfl <;>
    exact absurd hfirst (by decide)

theorem AnyCase.not_anyCase {s name name' : List Char} (h : AnyCase ('n' :: name) s) :
    ¬AnyCase ('i' :: name') s := by
  intro hname
  obtain ⟨c, rest, rfl, hfirst⟩ := h.head
  obtain ⟨c', rest', heq, hletter⟩ := hname.head
  obtain ⟨rfl, -⟩ := List.cons.inj heq
  rcases hletter with rfl | rfl <;> exact absurd hfirst (by decide)

theorem unsignedDouble?_eq_some_iff {s : List Char} {w : Word} :
    unsignedDouble? s = some w ↔ UnsignedFloating s w := by
  have hinf := map_toLower_eq_iff (show ['i', 'n', 'f'].all Char.isLower =
    true by decide) s
  have hinfinity := map_toLower_eq_iff
    (show ['i', 'n', 'f', 'i', 'n', 'i', 't', 'y'].all Char.isLower = true by decide) s
  have hnan := map_toLower_eq_iff (show ['n', 'a', 'n'].all Char.isLower =
    true by decide) s
  unfold unsignedDouble?
  dsimp only
  constructor
  · intro h
    split_ifs at h with hspecial hnotNumber
    · obtain rfl := Option.some.inj h
      rcases hspecial with hspecial | hspecial
      · exact .inf (hinf.mp hspecial)
      · exact .infinity (hinfinity.mp hspecial)
    · obtain rfl := Option.some.inj h
      exact .nan (hnan.mp hnotNumber)
    · obtain ⟨⟨m, e⟩, hdecimal, rfl⟩ := Option.map_eq_some_iff.mp h
      exact .number (decimal?_eq_some_iff.mp hdecimal)
        (Word.isNearestDouble_ofDecimal m e)
  · intro h
    cases h with
    | inf h => rw [if_pos (.inl (hinf.mpr h))]
    | infinity h => rw [if_pos (.inr (hinfinity.mpr h))]
    | nan h =>
        have hi := not_or.mpr ⟨hinf.not.mpr h.not_anyCase,
          hinfinity.not.mpr h.not_anyCase⟩
        rw [if_neg hi, if_pos (hnan.mpr h)]
    | @number m e w h hw =>
        have hletters := h.not_anyCase (.inl rfl)
        have hi := not_or.mpr ⟨hinf.not.mpr (hletters _),
          hinfinity.not.mpr (hletters _)⟩
        have hn := hnan.not.mpr (h.not_anyCase (.inr rfl) _)
        rw [if_neg hi, if_neg hn, decimal?_eq_some_iff.mpr h,
          hw.unique (Word.isNearestDouble_ofDecimal m e)]
        rfl

theorem UnsignedFloating.splitSign {body : List Char} {w : Word}
    (h : UnsignedFloating body w) :
    splitSign body = (false, body) := by
  have hletters : ∀ {l : Char} {name : List Char}, l = 'i' ∨ l = 'n' →
      AnyCase (l :: name) body →
        ∀ c ∈ body.head?, c ≠ '+' ∧ c ≠ '-' := by
    intro l name hl hname c hc
    obtain ⟨c', rest, rfl, hletter⟩ := hname.head
    obtain rfl := Option.some.inj hc
    rcases hl with rfl | rfl <;> rcases hletter with rfl | rfl <;> decide
  have hhead : ∀ c ∈ body.head?, c ≠ '+' ∧ c ≠ '-' := by
    cases h with
    | inf h => exact hletters (.inl rfl) h
    | infinity h => exact hletters (.inl rfl) h
    | nan h => exact hletters (.inr rfl) h
    | number h _ =>
        intro c hc
        obtain ⟨c', rest, rfl, hfirst⟩ := h.head
        obtain rfl := Option.some.inj hc
        constructor <;> rintro rfl <;> exact absurd hfirst (by decide)
  rcases splitSign_cases body with ⟨rest, rfl⟩ | ⟨rest, rfl⟩ | hbare
  · exact absurd rfl (hhead _ rfl).1
  · exact absurd rfl (hhead _ rfl).2
  · exact hbare

theorem double?_eq (s : List Char) :
    double? s = (unsignedDouble? (splitSign s).2).map fun w =>
      if (splitSign s).1 then w ^^^ Word.signBit else w := rfl

theorem double?_eq_some_iff {s : List Char} {w : Word} :
    double? s = some w ↔ Floating s w := by
  rw [double?_eq]
  constructor
  · intro h
    obtain ⟨v, hv, rfl⟩ := Option.map_eq_some_iff.mp h
    have hbody := unsignedDouble?_eq_some_iff.mp hv
    rcases splitSign_cases s with ⟨body, rfl⟩ | ⟨body, rfl⟩ | hbare
    · exact .plus hbody
    · exact .minus hbody
    · rw [hbare] at hbody ⊢
      exact .bare hbody
  · intro h
    cases h with
    | bare h => rw [h.splitSign, unsignedDouble?_eq_some_iff.mpr h]; rfl
    | plus h => rw [splitSign, unsignedDouble?_eq_some_iff.mpr h]; rfl
    | minus h => rw [splitSign, unsignedDouble?_eq_some_iff.mpr h]; rfl

theorem double?_eq_none_iff {s : List Char} :
    double? s = none ↔ ∀ w, ¬Floating s w := by
  simp only [Option.eq_none_iff_forall_ne_some, ne_eq, double?_eq_some_iff]

/-! ## Initial values -/

/-- What is no integer is read as a floating-point number. -/
theorem variableValue?_of_no_integer {s : List Char}
    (hsigned : s.head? = some '-' → signed? s = none)
    (hunsigned : s.head? ≠ some '-' → unsigned? s = none) :
    variableValue? s = double? s := by
  unfold variableValue?
  split
  · rw [hsigned rfl, Option.map_none, Option.none_or]
  · next hminus =>
    have hhead : s.head? ≠ some '-' := by
      intro hhead
      obtain ⟨rest, hrest⟩ := List.head?_eq_some_iff.mp hhead
      exact hminus rest hrest
    rw [hunsigned hhead, Option.none_or]

/-- The reader of floating-point numbers accepts the words of the grammar, each decimal
as its nearest double, and refuses everything else.  A plus in front of a number changes
nothing, and a minus the sign bit alone.  What is no integer is read as a floating-point
number, and is refused only if it is none. -/
theorem floating_numbers_follow_their_grammar (s : List Char) :
    (∀ w, double? s = some w ↔ Floating s w) ∧
    (double? s = none ↔ ∀ w, ¬Floating s w) ∧
    (∀ body w, UnsignedFloating body w →
      double? body = some w ∧ double? ('+' :: body) = some w ∧
        double? ('-' :: body) = some (w ^^^ Word.signBit)) ∧
    ((s.head? = some '-' → signed? s = none) →
      (s.head? ≠ some '-' → unsigned? s = none) →
      variableValue? s = double? s ∧
        (variableValue? s = none ↔ ∀ w, ¬Floating s w)) := by
  refine ⟨fun w => double?_eq_some_iff, double?_eq_none_iff, ?_, ?_⟩
  · intro body w h
    exact ⟨double?_eq_some_iff.mpr (.bare h), double?_eq_some_iff.mpr (.plus h),
      double?_eq_some_iff.mpr (.minus h)⟩
  · intro hsigned hunsigned
    rw [variableValue?_of_no_integer hsigned hunsigned]
    exact ⟨rfl, double?_eq_none_iff⟩

/-- The integer is out of range, so the text becomes a double. -/
theorem floating_numbers_follow_their_grammar_overflow :
    let s := "-18446744073709551616".toList
    signed? s = none ∧ Floating s 0xc3f0000000000000 ∧
      variableValue? s = some 0xc3f0000000000000 := by
  intro s
  obtain ⟨hread, -, -, hvariable⟩ := floating_numbers_follow_their_grammar s
  have hsigned : signed? s = none := by decide
  have hdouble : double? s = some 0xc3f0000000000000 := by decide
  have hhead : s.head? = some '-' := by decide
  obtain ⟨hvalue, -⟩ := hvariable (fun _ => hsigned) fun hother => absurd hhead hother
  exact ⟨hsigned, (hread _).mp hdouble, hvalue.trans hdouble⟩

end Text

end CyclicStack
