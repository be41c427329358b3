import CyclicStack.Proofs.Number.Rounding
import CyclicStack.Proofs.Text.Floating
import CyclicStack.Proofs.Text.Printing

/-!
# General notation

A floating-point word is printed with six significant digits, in plain notation or with
an exponent.  The text denotes the decimal that the number of the word rounds to, and it
is a word of the grammar of floating-point numbers, whatever the word.

The digits of a fraction lose their trailing zeros.  A zero at the end of a fraction is
worth nothing, so the text denotes the same number as all the digits.
-/

namespace CyclicStack

namespace Text

/-- A number written without an exponent: a whole number, or one with a point and
further digits of which the last is not zero. -/
inductive Trimmed : List Char → ℚ → Prop
  | whole (n : Nat) : Trimmed (Nat.toDigits 10 n) n
  | point (n : Nat) {fraction : List Char} {m : Nat} (hne : fraction ≠ [])
      (h : Digits 10 fraction m)
      (hlast : fraction.getLast hne ≠ '0') :
      Trimmed (Nat.toDigits 10 n ++ '.' :: fraction) (n + m / 10 ^ fraction.length)

/-- The general notation of a positive decimal: plain if its exponent is at least -4 and
below 6, otherwise with the exponent, its sign and at least two digits of it. -/
inductive InGeneral (d : ℚ) : List Char → Prop
  | plain {text : List Char} (hlow : -4 ≤ Int.log 10 d) (hhigh : Int.log 10 d < 6)
      (h : Trimmed text d) : InGeneral d text
  | scientific {mantissa exponent : List Char} (hout : Int.log 10 d < -4 ∨
      6 ≤ Int.log 10 d)
      (h : Trimmed mantissa (d / 10 ^ Int.log 10 d)) (hlength : 2 ≤ exponent.length)
      (hexponent : Digits 10 exponent (Int.log 10 d).natAbs) :
      InGeneral d (mantissa ++
        'e' :: (if Int.log 10 d < 0 then '-' else '+') :: exponent)

/-- The number that a decimal denotes. -/
inductive Denotes : List Char → ℚ → Prop
  | bare {body : List Char} {m : Nat} {e : Int} (h : Decimal body m e) :
      Denotes body (m * 10 ^ e)
  | minus {body : List Char} {m : Nat} {e : Int} (h : Decimal body m e) :
      Denotes ('-' :: body) (-(m * 10 ^ e))

/-! ## Digits in a row -/

theorem Digits.append {base m n : Nat} {xs ys : List Char} (hx : Digits base xs m)
    (hy : Digits base ys n) :
    Digits base (xs ++ ys) (m * base ^ ys.length + n) := by
  obtain ⟨ds, hds, rfl⟩ := hx
  obtain ⟨ds', hds', rfl⟩ := hy
  refine ⟨ds ++ ds', List.rel_append hds hds', ?_⟩
  rw [List.reverse_append, Nat.ofDigits_append, List.length_reverse, hds'.length_eq]
  ring

theorem Digits.unique {n n' : Nat} {chars : List Char} (h : Digits 10 chars n)
    (h' : Digits 10 chars n') :
    n = n' := by
  have hread : ∀ {k}, Digits 10 chars k → digitsFrom? 10 0 chars = some k := by
    intro k hk
    simpa [digitsFrom?_eq_some_iff, Digits] using hk
  exact Option.some.inj ((hread h).symm.trans (hread h'))

theorem Digits.exists_left {base n : Nat} {xs ys : List Char}
    (h : Digits base (xs ++ ys) n) :
    ∃ m, Digits base xs m := by
  obtain ⟨ds, hds, -⟩ := h
  have htake := List.forall₂_take xs.length hds
  rw [List.take_left] at htake
  exact ⟨_, _, htake, rfl⟩

theorem digits_zeros (k : Nat) :
    Digits 10 (List.replicate k '0') 0 := by
  induction k with
  | zero => exact ⟨[], .nil, rfl⟩
  | succ k ih =>
      have hzero : Digits 10 ['0'] 0 := ⟨[0], .cons ⟨by norm_num, .inl rfl⟩ .nil, rfl⟩
      simpa [List.replicate_succ] using hzero.append ih

theorem digits_padded (width n : Nat) :
    Digits 10 (General.padded width n) n := by
  simpa [General.padded] using (digits_zeros _).append (digits_toDigits (by norm_num) n)

theorem length_padded (width n : Nat) :
    (General.padded width n).length = max width (Nat.toDigits 10 n).length := by
  simp [General.padded]
  omega

/-! ## Fractions -/

/-- Trailing zeros of a fraction are worth nothing. -/
theorem Digits.trim {n : Nat} {chars : List Char} (h : Digits 10 chars n) :
    ∃ m, Digits 10 (chars.rdropWhile (· == '0')) m ∧
      (n / 10 ^ chars.length : ℚ) = m / 10 ^ (chars.rdropWhile (· == '0')).length := by
  have hsplit := List.rdropWhile_append_rtakeWhile (p := (· == '0')) (l := chars)
  have hzeros : chars.rtakeWhile (· == '0') =
      List.replicate (chars.rtakeWhile (· == '0')).length '0' :=
    List.eq_replicate_of_mem fun c hc => by simpa using List.mem_rtakeWhile_imp hc
  rw [hzeros] at hsplit
  generalize chars.rdropWhile (· == '0') = fraction at *
  generalize (chars.rtakeWhile (· == '0')).length = k at *
  subst hsplit
  obtain ⟨m, hm⟩ := h.exists_left
  obtain rfl := h.unique (hm.append (digits_zeros k))
  refine ⟨m, hm, ?_⟩
  rw [List.length_append, List.length_replicate, pow_add, Nat.add_zero, Nat.cast_mul]
  push_cast
  exact mul_div_mul_right _ _ (by positivity)

theorem length_padded_of_lt {width n : Nat} (hwidth : width ≠ 0) (h : n < 10 ^ width) :
    (General.padded width n).length = width := by
  rw [length_padded, max_eq_left]
  exact (Nat.length_toDigits_le_iff (by norm_num) (Nat.pos_of_ne_zero hwidth)).mpr h

theorem trimmed_plain (units decimals : Nat) :
    Trimmed (General.plain units decimals) (units / 10 ^ decimals) := by
  have hplain : General.plain units decimals =
      if decimals = 0 ∨
          ((General.padded decimals (units % 10 ^ decimals)).rdropWhile
            (· == '0')).isEmpty then
        Nat.toDigits 10 (units / 10 ^ decimals)
      else Nat.toDigits 10 (units / 10 ^ decimals) ++
        '.' :: (General.padded decimals (units % 10 ^ decimals)).rdropWhile
          (· == '0') := rfl
  have hpos : 0 < 10 ^ decimals := by positivity
  have hsplit := div_eq_div_add_mod units hpos
  push_cast at hsplit
  rw [hplain]
  by_cases hdecimals : decimals = 0
  · subst hdecimals
    simpa using Trimmed.whole units
  · have hlength := length_padded_of_lt hdecimals (Nat.mod_lt units hpos)
    obtain ⟨m, hm, hvalue⟩ := (digits_padded decimals (units % 10 ^ decimals)).trim
    rw [hlength] at hvalue
    have hlast := List.rdropWhile_last_not (· == '0')
      (General.padded decimals (units % 10 ^ decimals))
    rw [hsplit, hvalue]
    generalize (General.padded decimals (units % 10 ^ decimals)).rdropWhile (· == '0') =
      fraction at *
    by_cases hempty : fraction = []
    · subst hempty
      obtain rfl := hm.unique ⟨[], .nil, rfl⟩
      simpa [hdecimals] using Trimmed.whole (units / 10 ^ decimals)
    · rw [if_neg (by simp [hdecimals, hempty])]
      exact .point _ hempty hm (by simpa using hlast hempty)

/-! ## Notations are decimals -/

theorem Trimmed.decimal {text tail : List Char} {d : ℚ} {e : Int} (h : Trimmed text d)
    (he : Exponent tail e) :
    ∃ m k, Decimal (text ++ tail) m k ∧ d * 10 ^ e = m * 10 ^ k := by
  cases h with
  | whole n =>
      exact ⟨n, e, .whole Nat.toDigits_ne_nil (digits_toDigits (by norm_num) n) he, rfl⟩
  | @point n fraction m hne h hlast =>
      refine ⟨_, _, .point Nat.toDigits_ne_nil
        ((digits_toDigits (by norm_num) n).append h) he, ?_⟩
      rw [zpow_sub₀ (by norm_num), zpow_natCast]
      push_cast
      field_simp

theorem exponent_natAbs {digits : List Char} {e : Int} (hne : digits ≠ [])
    (h : Digits 10 digits e.natAbs) :
    Exponent ('e' :: (if e < 0 then '-' else '+') :: digits) e := by
  split_ifs with hneg
  · have hminus := Exponent.minus (.inl rfl) hne h
    rwa [show -(e.natAbs : Int) = e by omega] at hminus
  · have hplus := Exponent.plus (.inl rfl) hne h
    rwa [show (e.natAbs : Int) = e by omega] at hplus

theorem InGeneral.decimal {text : List Char} {d : ℚ} (h : InGeneral d text) :
    ∃ m k, Decimal text m k ∧ d = m * 10 ^ k := by
  cases h with
  | plain hlow hhigh h => simpa using h.decimal .none
  | @scientific mantissa exponent hout h hlength hexponent =>
      have hne : exponent ≠ [] := List.ne_nil_of_length_pos (by omega)
      obtain ⟨m, k, hdecimal, hvalue⟩ := h.decimal (exponent_natAbs hne hexponent)
      rw [div_mul_cancel₀ _ (by positivity)] at hvalue
      exact ⟨m, k, hdecimal, hvalue⟩

/-- A sign in front of the text stands for the sign of the number. -/
theorem InGeneral.denotes {text : List Char} {d x : ℚ} (h : InGeneral d text)
    (hx : x ≠ 0) :
    Denotes ((if x < 0 then ['-'] else []) ++ text) (SignType.sign x * d) := by
  obtain ⟨m, k, hdecimal, rfl⟩ := h.decimal
  rcases hx.lt_or_gt with hneg | hpos
  · rw [if_pos hneg, sign_neg hneg, SignType.coe_neg_one, neg_one_mul]
    exact .minus hdecimal
  · rw [if_neg hpos.not_gt, sign_pos hpos, SignType.coe_one, one_mul]
    exact .bare hdecimal

end Text

namespace General

open Text

/-! ## Positive numbers -/

theorem inGeneral_of_exponent {digits : Nat} {e : Int} {d : ℚ}
    (hd : d = digits * 10 ^ (e - 5)) (hlog : Int.log 10 d = e) (hout : e < -4 ∨ 6 ≤ e) :
    InGeneral d (plain digits 5 ++ 'e' :: (if e < 0 then '-' else '+') ::
      padded 2 e.natAbs) := by
  subst hlog
  refine .scientific hout ?_ (by simp [length_padded]) (digits_padded 2 _)
  have hvalue : d / 10 ^ Int.log 10 d = digits / 10 ^ 5 := by
    nth_rewrite 1 [hd]
    rw [zpow_sub₀ (by norm_num)]
    field_simp
  rw [hvalue]
  exact trimmed_plain digits 5

section

variable {x : Ratio} (hnum : 0 < x.num) (hden : 0 < x.den)
include hnum hden

/-- In plain notation, the second rounding denotes the decimal of the first one. -/
theorem fixed_div_eq (he : (scientific x).2 < 6) :
    (fixed x (5 - (scientific x).2).toNat / 10 ^ (5 - (scientific x).2).toNat : ℚ) =
      (scientific x).1 * 10 ^ ((scientific x).2 - 5) := by
  rw [fixed_eq hnum hden he, ← zpow_natCast, Int.toNat_of_nonneg (by omega),
    ← neg_sub, zpow_neg, div_inv_eq_mul]

theorem inGeneral_positive :
    InGeneral ((scientific x).1 * 10 ^ ((scientific x).2 - 5)) (positive x) := by
  have hlog := log_scientific hnum hden
  have hpositive : positive x =
      if (scientific x).2 < -4 ∨ 6 ≤ (scientific x).2 then
        plain (scientific x).1 5 ++
          'e' :: (if (scientific x).2 < 0 then '-' else '+') ::
            padded 2 (scientific x).2.natAbs
      else plain (fixed x (5 - (scientific x).2).toNat) (5 - (scientific x).2).toNat :=
        rfl
  rw [hpositive]
  by_cases hout : (scientific x).2 < -4 ∨ 6 ≤ (scientific x).2
  · rw [if_pos hout]
    exact inGeneral_of_exponent rfl hlog hout
  · have hrange : -4 ≤ (scientific x).2 ∧ (scientific x).2 < 6 := by omega
    rw [if_neg hout]
    refine .plain (by rw [hlog]; exact hrange.1) (by rw [hlog]; exact hrange.2) ?_
    rw [← fixed_div_eq hnum hden hrange.2]
    exact trimmed_plain _ _

end

/-! ## All patterns -/

theorem den_magnitude_pos {f : BinaryFormat} {pattern : Nat} {x : Ratio}
    (h : f.magnitude pattern = .finite x) :
    0 < x.den := by
  unfold BinaryFormat.magnitude at h
  dsimp only at h
  split_ifs at h
  · obtain rfl := Magnitude.finite.inj h
    exact Ratio.den_ofScaled_pos _ (by norm_num) _
  · obtain rfl := Magnitude.finite.inj h
    exact Ratio.den_ofScaled_pos _ (by norm_num) _

/-- The text of a pattern without its sign is a floating-point number, whatever the
pattern. -/
theorem exists_unsignedFloating (f : BinaryFormat) (pattern : Nat) :
    ∃ w, UnsignedFloating (ofMagnitude (f.magnitude pattern)) w := by
  cases h : f.magnitude pattern with
  | notANumber => exact ⟨_, .nan (anyCase_refl _)⟩
  | infinite => exact ⟨_, .inf (anyCase_refl _)⟩
  | finite x =>
      have hden := den_magnitude_pos h
      rw [ofMagnitude]
      split_ifs with hzero
      · exact ⟨_, .number (.whole (List.cons_ne_nil _ _) (digits_zeros 1) .none)
          (Word.isNearestDouble_ofDecimal _ _)⟩
      · obtain ⟨m, k, hdecimal, -⟩ :=
          (inGeneral_positive (Nat.pos_of_ne_zero hzero) hden).decimal
        exact ⟨_, .number hdecimal (Word.isNearestDouble_ofDecimal m k)⟩

theorem exists_floating (f : BinaryFormat) (pattern : Nat) :
    ∃ w, Floating (ofPattern f pattern) w := by
  obtain ⟨w, hw⟩ := exists_unsignedFloating f pattern
  unfold ofPattern
  dsimp only
  split_ifs
  · exact ⟨_, .minus hw⟩
  · exact ⟨_, .bare hw⟩

theorem head?_ofPattern (f : BinaryFormat) (pattern : Nat) :
    (ofPattern f pattern).head? = some '-' ↔ f.isNegative pattern = true := by
  obtain ⟨w, hw⟩ := exists_unsignedFloating f pattern
  unfold ofPattern
  dsimp only
  split_ifs with hnegative
  · simp [hnegative]
  · refine iff_of_false (fun hminus => ?_) hnegative
    obtain ⟨rest, hrest⟩ := List.head?_eq_some_iff.mp hminus
    have hsign := hw.splitSign
    rw [hrest] at hsign
    cases hsign

end General

/-! ## Words -/

namespace Word

theorem magnitude_of_value? {w : Word} {x : ℚ} (h : w.value? = some x) :
    ∃ r : Ratio, BinaryFormat.double.magnitude w.toNat = .finite r ∧ 0 < r.den ∧
      x = w.sign * r.toRat := by
  have hmagnitude : BinaryFormat.double.magnitude w.toNat =
      if w.toNat / 2 ^ 52 % 2 ^ 11 = 2047 then
        if w.toNat % 2 ^ 52 = 0 then .infinite else .notANumber
      else if w.toNat / 2 ^ 52 % 2 ^ 11 = 0 then
        .finite (.ofScaled (w.toNat % 2 ^ 52) 2 (-1074))
      else .finite
        (.ofScaled (2 ^ 52 + w.toNat % 2 ^ 52) 2
          (-1074 + (w.toNat / 2 ^ 52 % 2 ^ 11 : Nat) - 1)) := rfl
  unfold value? doubleValue at h
  dsimp only at h
  rw [hmagnitude]
  generalize w.toNat / 2 ^ 52 % 2 ^ 11 = exponent at *
  generalize w.toNat % 2 ^ 52 = fraction at *
  split_ifs at h ⊢ with hspecial hzero
  · refine ⟨_, rfl, Ratio.den_ofScaled_pos _ two_ne_zero _, ?_⟩
    rw [← Option.some.inj h, Ratio.toRat_ofScaled _ two_ne_zero, Nat.cast_ofNat]
  · refine ⟨_, rfl, Ratio.den_ofScaled_pos _ two_ne_zero _, ?_⟩
    rw [← Option.some.inj h, Ratio.toRat_ofScaled _ two_ne_zero, Nat.cast_ofNat,
      show -1074 + (exponent : Int) - 1 = exponent - 1075 by ring]
    push_cast
    rfl

theorem toList_generalDouble (w : Word) :
    w.generalDouble.toList = General.ofPattern .double w.toNat := by
  rw [generalDouble, String.toList_ofList]

theorem toList_generalDouble_of_value? {w : Word} {x : ℚ} (h : w.value? = some x)
    (hx : x ≠ 0) :
    ∃ r : Ratio, BinaryFormat.double.magnitude w.toNat = .finite r ∧
      0 < r.num ∧ 0 < r.den ∧
      |x| = r.toRat ∧
      w.generalDouble.toList = (if x < 0 then ['-'] else []) ++ General.positive r := by
  obtain ⟨r, hmagnitude, hden, rfl⟩ := magnitude_of_value? h
  have hnum : r.num ≠ 0 := by
    intro hzero
    simp [Ratio.toRat, hzero] at hx
  have hpos := Ratio.toRat_pos (Nat.pos_of_ne_zero hnum) hden
  have htext : w.generalDouble.toList =
      if w.toNat.testBit 63 then '-' :: General.ofMagnitude (.finite r)
      else General.ofMagnitude (.finite r) := by
    rw [toList_generalDouble, ← hmagnitude]
    rfl
  rw [General.ofMagnitude, if_neg hnum] at htext
  refine ⟨r, hmagnitude, Nat.pos_of_ne_zero hnum, hden, ?_⟩
  by_cases hbit : w.toNat.testBit 63 = true
  · simp [htext, sign, hbit, abs_of_pos hpos, hpos]
  · simp [htext, sign, hbit, abs_of_pos hpos, hpos.le]

end Word

theorem abs_sign_mul {x d : ℚ} (hx : x ≠ 0) (hd : 0 ≤ d) :
    |SignType.sign x * d| = d := by
  rcases hx.lt_or_gt with hneg | hpos
  · rw [sign_neg hneg, SignType.coe_neg_one, neg_one_mul, abs_neg, abs_of_nonneg hd]
  · rw [sign_pos hpos, SignType.coe_one, one_mul, abs_of_nonneg hd]

theorem RoundsTo.signed {digits : Nat} {x d : ℚ} (hx : x ≠ 0)
    (h : RoundsTo digits |x| d) :
    RoundsTo digits x (SignType.sign x * d) := by
  obtain ⟨n, hnear, rfl⟩ := h
  rw [abs_abs] at hnear ⊢
  exact ⟨n, hnear, by rw [sign_pos (abs_pos.mpr hx), SignType.coe_one, one_mul]⟩

open Text

/-- The text of a word in general notation.  If the word stands for a number other than
zero, the text denotes that number rounded to six significant digits, plainly or with an
exponent as the rounded number asks for, and the two roundings of plain notation agree.
The text of every word is a floating-point number that starts with a minus if and only
if the sign bit is set. -/
theorem general_notation_has_six_digits (w : Word) :
    (∀ x, w.value? = some x → x ≠ 0 → ∃ (d : ℚ) (body : List Char),
      RoundsTo 6 x d ∧ Denotes w.generalDouble.toList d ∧
      w.generalDouble.toList = (if x < 0 then ['-'] else []) ++ body ∧
        InGeneral |d| body ∧
      ∃ (r : Ratio) (digits : Nat) (e : Int),
        BinaryFormat.double.magnitude w.toNat = .finite r ∧
          General.scientific r = (digits, e) ∧
        e = Int.log 10 |d| ∧ |d| = digits * 10 ^ (e - 5) ∧
        (-4 ≤ e → e < 6 → |d| = General.fixed r (5 - e).toNat / 10 ^ (5 - e).toNat)) ∧
    (double? w.generalDouble.toList).isSome = true ∧
    (w.generalDouble.toList.head? = some '-' ↔ w.toNat.testBit 63 = true) := by
  refine ⟨?_, ?_, ?_⟩
  · intro x hvalue hx
    obtain ⟨r, hmagnitude, hnum, hden, habs, htext⟩ :=
      Word.toList_generalDouble_of_value? hvalue hx
    have hgeneral := General.inGeneral_positive hnum hden
    have hrounds := General.roundsTo_scientific hnum hden
    have habs' := abs_sign_mul
      (d := (General.scientific r).1 * 10 ^ ((General.scientific r).2 - 5)) hx
      (by positivity)
    rw [← habs] at hrounds
    refine ⟨_, General.positive r, hrounds.signed hx, ?_, htext, ?_, r, _, _,
      hmagnitude, rfl, ?_⟩
    · rw [htext]
      exact hgeneral.denotes hx
    · rw [habs']
      exact hgeneral
    · rw [habs']
      exact ⟨(General.log_scientific hnum hden).symm, rfl,
        fun _ he => (General.fixed_div_eq hnum hden he).symm⟩
  · obtain ⟨v, hv⟩ := General.exists_floating .double w.toNat
    rw [Word.toList_generalDouble, double?_eq_some_iff.mpr hv]
    rfl
  · rw [Word.toList_generalDouble]
    exact General.head?_ofPattern .double w.toNat

/-- The number is a little below ten, and rounding to six digits carries. -/
theorem general_notation_has_six_digits_carry :
    let w : Word := 0xc023ffff79c842fa
    let x : ℚ := -2814748641206653 / 281474976710656
    w.value? = some x ∧ x ≠ 0 ∧ w.generalDouble = "-10" ∧
      ∃ d, RoundsTo 6 x d ∧ Denotes "-10".toList d := by
  intro w x
  have hvalue : w.value? = some x := by
    have hword : w.toNat = 13845191152191947514 := rfl
    have hbit : Nat.testBit 13845191152191947514 63 = true := by decide
    simp only [Word.value?, Word.sign, doubleValue, hword, hbit]
    norm_num [x]
  have hx : x ≠ 0 := by norm_num [x]
  have htext : w.generalDouble = "-10" := by decide
  obtain ⟨d, _, hrounds, hdenotes, _⟩ :=
    (general_notation_has_six_digits w).1 x hvalue hx
  rw [htext] at hdenotes
  exact ⟨hvalue, hx, htext, d, hrounds, hdenotes⟩

end CyclicStack
