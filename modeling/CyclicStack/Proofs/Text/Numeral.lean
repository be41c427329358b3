import Mathlib
import CyclicStack.Text.Numeral

/-!
# The grammar of integers

An integer is a magnitude with a sign in front, or without one.  A magnitude is
hexadecimal after `0x`, octal after any other `0`, decimal if it starts with another
digit, or the single digit `0`.  The readers accept the words of this grammar that are
in range and no others, and the value they give is the one that the digits have by their
place.

The reader of digits adds them up from the left, so its value is stated for digits that
follow others.  Everything else is a case split over the first characters.
-/

namespace CyclicStack

namespace Text

/-- The character stands for the digit in a base up to sixteen.  Letters count in either
case. -/
def IsDigit (base : Nat) (c : Char) (d : Nat) : Prop :=
  d < base ∧ (c = d.digitChar ∨ c = d.digitChar.toUpper)

/-- The characters are digits, and the number has these digits, the most significant one
first. -/
def Digits (base : Nat) (chars : List Char) (n : Nat) : Prop :=
  ∃ ds, List.Forall₂ (IsDigit base) chars ds ∧ n = Nat.ofDigits base ds.reverse

/-- How an integer is written without its sign. -/
inductive Magnitude : List Char → Nat → Prop
  | zero : Magnitude ['0'] 0
  | hexadecimal {x : Char} {chars : List Char} {n : Nat} (hx : x = 'x' ∨ x = 'X')
      (hne : chars ≠ []) (h : Digits 16 chars n) : Magnitude ('0' :: x :: chars) n
  | octal {chars : List Char} {n : Nat} (hne : chars ≠ []) (h : Digits 8 chars n) :
      Magnitude ('0' :: chars) n
  | decimal {c : Char} {chars : List Char} {n : Nat} (hc : c ≠ '0')
      (h : Digits 10 (c :: chars) n) :
      Magnitude (c :: chars) n

/-- A magnitude that may have a plus in front. -/
inductive Unsigned : List Char → Nat → Prop
  | bare {body : List Char} {m : Nat} (h : Magnitude body m) : Unsigned body m
  | plus {body : List Char} {m : Nat} (h : Magnitude body m) : Unsigned ('+' :: body) m

/-- A magnitude that may have a plus or a minus in front. -/
inductive Signed : List Char → Int → Prop
  | bare {body : List Char} {m : Nat} (h : Magnitude body m) : Signed body m
  | plus {body : List Char} {m : Nat} (h : Magnitude body m) : Signed ('+' :: body) m
  | minus {body : List Char} {m : Nat} (h : Magnitude body m) :
      Signed ('-' :: body) (-m)

/-! ## Digits -/

theorem digit?_digitChar :
    ∀ d < 16, digit? 16 d.digitChar = some d ∧
      digit? 16 d.digitChar.toUpper = some d := by
  decide

theorem digit?_eq_filter (base : Nat) (hbase : base ≤ 16) (c : Char) :
    digit? base c = (digit? 16 c).filter (· < base) := by
  simp only [digit?, Option.filter_filter]
  congr 1
  funext d
  simp only [← Bool.decide_and, decide_eq_decide]
  omega

theorem digitChar_letter {d : Nat} (hle : 10 ≤ d) (hlt : d < 16) :
    d.digitChar.toNat = d + 87 ∧ d.digitChar.toUpper.toNat = d + 55 := by
  interval_cases d <;> decide

theorem isDigit_of_digit? {c : Char} {d : Nat} (h : digit? 16 c = some d) :
    IsDigit 16 c d := by
  obtain ⟨hvalue, hd⟩ := Option.filter_eq_some_iff.mp h
  have hlt : d < 16 := of_decide_eq_true hd
  refine ⟨hlt, ?_⟩
  split_ifs at hvalue with hnumber hlower hupper
  · have hc : 48 ≤ c.toNat ∧ c.toNat ≤ 57 := hnumber
    have hvalue : c.toNat - 48 = d := Option.some.inj hvalue
    left
    apply Char.toNat_inj.mp
    rw [Nat.toNat_digitChar_of_lt_ten (by omega)]
    omega
  · have hc : 97 ≤ c.toNat ∧ c.toNat ≤ 102 := hlower
    have hvalue : c.toNat - 97 + 10 = d := Option.some.inj hvalue
    left
    apply Char.toNat_inj.mp
    rw [(digitChar_letter (by omega) hlt).1]
    omega
  · have hc : 65 ≤ c.toNat ∧ c.toNat ≤ 70 := hupper
    have hvalue : c.toNat - 65 + 10 = d := Option.some.inj hvalue
    right
    apply Char.toNat_inj.mp
    rw [(digitChar_letter (by omega) hlt).2]
    omega

theorem digit?_eq_some_iff {base : Nat} (hbase : base ≤ 16) {c : Char} {d : Nat} :
    digit? base c = some d ↔ IsDigit base c d := by
  rw [digit?_eq_filter base hbase, Option.filter_eq_some_iff, decide_eq_true_iff]
  constructor
  · rintro ⟨h, hd⟩
    exact ⟨hd, (isDigit_of_digit? h).2⟩
  · rintro ⟨hd, rfl | rfl⟩
    · exact ⟨(digit?_digitChar d (by omega)).1, hd⟩
    · exact ⟨(digit?_digitChar d (by omega)).2, hd⟩

theorem ofDigits_reverse_cons (base d : Nat) (ds : List Nat) :
    Nat.ofDigits base (d :: ds).reverse =
      d * base ^ ds.length + Nat.ofDigits base ds.reverse := by
  rw [List.reverse_cons, Nat.ofDigits_append, Nat.ofDigits_singleton,
    List.length_reverse]
  ring

/-- Digits that follow digits of value `acc` move these up by one place each. -/
theorem digitsFrom?_eq_some_iff {base : Nat} (hbase : base ≤ 16) {acc n : Nat}
    {chars : List Char} :
    digitsFrom? base acc chars = some n ↔
      ∃ ds, List.Forall₂ (IsDigit base) chars ds ∧
        n = acc * base ^ ds.length + Nat.ofDigits base ds.reverse := by
  induction chars generalizing acc with
  | nil => simp [digitsFrom?, eq_comm]
  | cons c rest ih =>
      simp only [List.forall₂_cons_left_iff]
      rw [digitsFrom?]
      constructor
      · intro h
        split at h
        · next d hd =>
          obtain ⟨ds, hds, rfl⟩ := ih.mp h
          refine ⟨d :: ds, ⟨d, ds, (digit?_eq_some_iff hbase).mp hd, hds, rfl⟩, ?_⟩
          rw [ofDigits_reverse_cons, List.length_cons]
          ring
        · cases h
      · rintro ⟨_, ⟨d, ds, hd, hds, rfl⟩, rfl⟩
        simp only [(digit?_eq_some_iff hbase).mpr hd]
        refine ih.mpr ⟨ds, hds, ?_⟩
        rw [ofDigits_reverse_cons, List.length_cons]
        ring

theorem digits?_eq_some_iff {base : Nat} (hbase : base ≤ 16) {chars : List Char}
    {n : Nat} :
    digits? base chars = some n ↔ chars ≠ [] ∧ Digits base chars n := by
  cases chars with
  | nil => simp [digits?]
  | cons c rest => simp [digits?, Digits, digitsFrom?_eq_some_iff hbase]

theorem Digits.exists_isDigit {base n : Nat} {c : Char} {rest : List Char}
    (h : Digits base (c :: rest) n) :
    ∃ d, IsDigit base c d := by
  obtain ⟨_, hds, -⟩ := h
  obtain ⟨d, _, hd, -⟩ := List.forall₂_cons_left_iff.mp hds
  exact ⟨d, hd⟩

/-! ## Magnitudes -/

/-- An octal number is not taken for a hexadecimal one, since no `x` is a digit. -/
theorem magnitude?_of_octal {chars : List Char} {n : Nat} (hne : chars ≠ [])
    (h : Digits 8 chars n) :
    magnitude? ('0' :: chars) = some n := by
  have hread : digits? 8 chars = some n :=
    (digits?_eq_some_iff (by norm_num)).mpr ⟨hne, h⟩
  obtain ⟨c, rest, rfl⟩ := List.exists_cons_of_ne_nil hne
  obtain ⟨d, hd⟩ := h.exists_isDigit
  have hc : digit? 8 c = some d := (digit?_eq_some_iff (by norm_num)).mpr hd
  have hlower : c ≠ 'x' := by
    rintro rfl
    exact absurd hc (by simp [digit?])
  have hupper : c ≠ 'X' := by
    rintro rfl
    exact absurd hc (by simp [digit?])
  rw [← hread]
  simp [magnitude?, hlower, hupper]

theorem magnitude?_eq_some_iff {body : List Char} {m : Nat} :
    magnitude? body = some m ↔ Magnitude body m := by
  constructor
  · intro h
    unfold magnitude? at h
    split at h
    · obtain rfl := Option.some.inj h
      exact .zero
    · obtain ⟨hne, hdigits⟩ := (digits?_eq_some_iff (by norm_num)).mp h
      exact .hexadecimal (.inl rfl) hne hdigits
    · obtain ⟨hne, hdigits⟩ := (digits?_eq_some_iff (by norm_num)).mp h
      exact .hexadecimal (.inr rfl) hne hdigits
    · obtain ⟨hne, hdigits⟩ := (digits?_eq_some_iff (by norm_num)).mp h
      exact .octal hne hdigits
    · next hfirst =>
      obtain ⟨hne, hdigits⟩ := (digits?_eq_some_iff (by norm_num)).mp h
      obtain ⟨c, rest, rfl⟩ := List.exists_cons_of_ne_nil hne
      refine .decimal ?_ hdigits
      rintro rfl
      exact hfirst rest rfl
  · intro h
    cases h with
    | zero => rfl
    | hexadecimal hx hne h =>
        have hread := (digits?_eq_some_iff (by norm_num)).mpr ⟨hne, h⟩
        rcases hx with rfl | rfl
        · exact hread
        · exact hread
    | octal hne h => exact magnitude?_of_octal hne h
    | @decimal c chars n hc h =>
        rw [← (digits?_eq_some_iff (by norm_num)).mpr ⟨List.cons_ne_nil c chars, h⟩]
        simp [magnitude?, hc]

theorem Magnitude.exists_isDigit {c : Char} {rest : List Char} {m : Nat}
    (h : Magnitude (c :: rest) m) :
    ∃ d, IsDigit 10 c d := by
  have hzero : IsDigit 10 '0' 0 := ⟨by norm_num, .inl rfl⟩
  cases h with
  | decimal _ h => exact h.exists_isDigit
  | _ => exact ⟨0, hzero⟩

/-- No sign is a digit, so the sign in front of a magnitude can be told apart. -/
theorem not_magnitude_of_sign {c : Char} (hc : c = '+' ∨ c = '-') (rest : List Char)
    (m : Nat) :
    ¬Magnitude (c :: rest) m := by
  intro h
  obtain ⟨d, hd⟩ := h.exists_isDigit
  have hread := (digit?_eq_some_iff (by norm_num)).mpr hd
  rcases hc with rfl | rfl
  · exact absurd hread (by simp [digit?])
  · exact absurd hread (by simp [digit?])

/-! ## Integers -/

theorem unsigned?_of_unsigned {s : List Char} {m : Nat} (h : Unsigned s m) :
    unsigned? s = if m < 2 ^ 64 then some (UInt64.ofNat m) else none := by
  cases h with
  | plus h => simp [unsigned?, magnitude?_eq_some_iff.mpr h]
  | bare h =>
      unfold unsigned?
      split
      · exact absurd h (not_magnitude_of_sign (.inl rfl) _ m)
      · simp [magnitude?_eq_some_iff.mpr h]

theorem exists_unsigned_of_unsigned? {s : List Char} {w : Word}
    (h : unsigned? s = some w) :
    ∃ m, Unsigned s m := by
  obtain ⟨m, hm, -⟩ := Option.bind_eq_some_iff.mp h
  refine ⟨m, ?_⟩
  split at hm
  · exact .plus (magnitude?_eq_some_iff.mp hm)
  · exact .bare (magnitude?_eq_some_iff.mp hm)

theorem unsigned?_eq_some_iff {s : List Char} {w : Word} :
    unsigned? s = some w ↔ Unsigned s w.toNat := by
  constructor
  · intro h
    obtain ⟨m, hm⟩ := exists_unsigned_of_unsigned? h
    rw [unsigned?_of_unsigned hm] at h
    split_ifs at h with hlt
    obtain rfl := Option.some.inj h
    rwa [UInt64.toNat_ofNat_of_lt' hlt]
  · intro h
    rw [unsigned?_of_unsigned h, if_pos w.toNat_lt, UInt64.ofNat_toNat]

theorem splitSign_of_magnitude {body : List Char} {m : Nat} (h : Magnitude body m) :
    splitSign body = (false, body) := by
  unfold splitSign
  split
  · exact absurd h (not_magnitude_of_sign (.inl rfl) _ m)
  · exact absurd h (not_magnitude_of_sign (.inr rfl) _ m)
  · rfl

theorem signed?_of_signed {s : List Char} {v : Int} (h : Signed s v) :
    signed? s = if -2 ^ 63 ≤ v ∧ v < 2 ^ 63 then some v else none := by
  cases h with
  | plus h => simp [signed?, splitSign, magnitude?_eq_some_iff.mpr h]
  | minus h => simp [signed?, splitSign, magnitude?_eq_some_iff.mpr h]
  | bare h =>
      simp [signed?, splitSign_of_magnitude h, magnitude?_eq_some_iff.mpr h]

theorem exists_signed_of_signed? {s : List Char} {v : Int} (h : signed? s = some v) :
    ∃ u, Signed s u := by
  obtain ⟨m, hm, -⟩ := Option.bind_eq_some_iff.mp h
  split at hm
  · exact ⟨m, .plus (magnitude?_eq_some_iff.mp hm)⟩
  · exact ⟨-m, .minus (magnitude?_eq_some_iff.mp hm)⟩
  · exact ⟨m, .bare (magnitude?_eq_some_iff.mp hm)⟩

theorem signed?_eq_some_iff {s : List Char} {v : Int} :
    signed? s = some v ↔ Signed s v ∧ -2 ^ 63 ≤ v ∧ v < 2 ^ 63 := by
  constructor
  · intro h
    obtain ⟨u, hu⟩ := exists_signed_of_signed? h
    rw [signed?_of_signed hu] at h
    split_ifs at h with hrange
    obtain rfl := Option.some.inj h
    exact ⟨hu, hrange⟩
  · rintro ⟨hv, hrange⟩
    rw [signed?_of_signed hv, if_pos hrange]

/-- The readers of integers accept the words of the grammar whose value is in range,
with that value, and refuse everything else. -/
theorem integers_follow_their_grammar (s : List Char) :
    (∀ v : Nat, (unsigned? s).map UInt64.toNat = some v ↔ Unsigned s v ∧ v < 2 ^ 64) ∧
    (unsigned? s = none ↔ ∀ v, Unsigned s v → 2 ^ 64 ≤ v) ∧
    (∀ v : Int, signed? s = some v ↔ Signed s v ∧ -2 ^ 63 ≤ v ∧ v ≤ 2 ^ 63 - 1) ∧
    (signed? s = none ↔ ∀ v, Signed s v → v < -2 ^ 63 ∨ 2 ^ 63 - 1 < v) := by
  refine ⟨fun v => ?_, ?_, fun v => ?_, ?_⟩
  · constructor
    · intro h
      obtain ⟨w, hw, rfl⟩ := Option.map_eq_some_iff.mp h
      exact ⟨unsigned?_eq_some_iff.mp hw, w.toNat_lt⟩
    · rintro ⟨hv, hlt⟩
      rw [unsigned?_of_unsigned hv, if_pos hlt, Option.map_some,
        UInt64.toNat_ofNat_of_lt' hlt]
  · constructor
    · intro h v hv
      by_contra hlt
      rw [unsigned?_of_unsigned hv, if_pos (not_le.mp hlt)] at h
      cases h
    · intro h
      rw [Option.eq_none_iff_forall_ne_some]
      intro w hw
      exact (h _ (unsigned?_eq_some_iff.mp hw)).not_gt w.toNat_lt
  · rw [signed?_eq_some_iff, Int.le_sub_one_iff]
  · constructor
    · intro h v hv
      by_contra hrange
      rw [signed?_of_signed hv, if_pos (by omega)] at h
      cases h
    · intro h
      rw [Option.eq_none_iff_forall_ne_some]
      intro v hv
      obtain ⟨hsigned, hrange⟩ := signed?_eq_some_iff.mp hv
      have hout := h v hsigned
      omega

end Text

end CyclicStack
