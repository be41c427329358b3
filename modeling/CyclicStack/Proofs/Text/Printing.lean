import CyclicStack.Host
import CyclicStack.Instruction
import CyclicStack.Proofs.Text.Numeral
import CyclicStack.Proofs.Text.Spelling

/-!
# Printed integers read back

A machine prints words in decimal, with or without a sign, and the text of an
instruction shows a constant in hexadecimal.  Each of these texts is a word of the
grammar of integers, so the readers of program text give back the word that was printed.

A decimal would be taken for an octal number if it started with a zero.  Only zero
itself does.
-/

namespace CyclicStack

namespace Word

/-- The two's complement reading by the place of a word in its range. -/
theorem toSigned_eq (w : Word) :
    toSigned w = if w.toNat < 2 ^ 63 then (w.toNat : Int) else w.toNat - 2 ^ 64 := by
  have hcond : toSigned w =
      if 2 * w.toNat < 2 ^ 64 then (w.toNat : Int) else w.toNat - (2 ^ 64 : Nat) :=
    BitVec.toInt_eq_toNat_cond w.toBitVec
  rw [hcond]
  split_ifs <;> omega

theorem toSigned_of_not_neg {w : Word} (h : ¬toSigned w < 0) :
    toSigned w = w.toNat := by
  have hlt := w.toNat_lt
  rw [toSigned_eq] at h ⊢
  split_ifs at h ⊢ <;> omega

theorem toSigned_range (w : Word) :
    -2 ^ 63 ≤ toSigned w ∧ toSigned w < 2 ^ 63 := by
  have hlt := w.toNat_lt
  rw [toSigned_eq]
  split_ifs <;> omega

theorem ofSigned_toSigned (w : Word) :
    ofSigned (toSigned w) = w := by
  have hmod : (toSigned w % 2 ^ 64).toNat = w.toNat := by
    have hlt := w.toNat_lt
    rw [toSigned_eq]
    split_ifs <;> omega
  rw [ofSigned, UInt64.ofInt, hmod, UInt64.ofNat_toNat]

end Word

namespace Host

/-- The sink prints a word as the line, on every host whose writer takes one more
line. -/
def Prints (sink : Sink) (w : Word) (line : String) : Prop :=
  ∀ h : Host, h.refusal h.lines.size = none →
    write sink w h = .ok () { h with lines := h.lines.push line }

theorem prints_stdout (w : Word) :
    Prints .stdout w w.decimal := by
  intro h hgranted
  simp [write, writeLine, hgranted]

theorem prints_stdouts (w : Word) :
    Prints .stdouts w w.signedDecimal := by
  intro h hgranted
  simp [write, writeLine, hgranted]

end Host

namespace Text

/-! ## Digits of a number -/

theorem Digits.concat {base n d : Nat} {chars : List Char} {c : Char}
    (h : Digits base chars n) (hd : IsDigit base c d) :
    Digits base (chars ++ [c]) (base * n + d) := by
  obtain ⟨ds, hds, rfl⟩ := h
  refine ⟨ds ++ [d], List.rel_append hds (.cons hd .nil), ?_⟩
  simp [Nat.ofDigits_cons, Nat.add_comm]

theorem digits_toDigits {base : Nat} (hbase : 1 < base) (n : Nat) :
    Digits base (Nat.toDigits base n) n := by
  induction n using Nat.strong_induction_on with
  | _ n ih =>
      by_cases hn : n < base
      · rw [Nat.toDigits_of_lt_base hn]
        exact ⟨[n], .cons ⟨hn, .inl rfl⟩ .nil, by simp⟩
      · have hle : base ≤ n := not_lt.mp hn
        have hdiv : n / base < n := Nat.div_lt_self (by omega) hbase
        have hlast : IsDigit base (n % base).digitChar (n % base) :=
          ⟨Nat.mod_lt n (by omega), .inl rfl⟩
        rw [Nat.toDigits_of_base_le hbase hle]
        simpa only [Nat.div_add_mod] using (ih _ hdiv).concat hlast

theorem head?_toDigits_ne_zero {base n : Nat} (hbase : 1 < base) (hn : 0 < n) :
    (Nat.toDigits base n).head? ≠ some '0' := by
  induction n using Nat.strong_induction_on with
  | _ n ih =>
      by_cases hlt : n < base
      · simpa [Nat.toDigits_of_lt_base hlt] using hn.ne'
      · have hle : base ≤ n := not_lt.mp hlt
        have hdiv : 0 < n / base := Nat.div_pos hle (by omega)
        rw [Nat.toDigits_of_base_le hbase hle,
          List.head?_append_of_ne_nil _ Nat.toDigits_ne_nil]
        exact ih _ (Nat.div_lt_self hn hbase) hdiv

theorem magnitude_decimal (n : Nat) :
    Magnitude (Nat.toDigits 10 n) n := by
  rcases Nat.eq_zero_or_pos n with rfl | hn
  · exact .zero
  · have hdigits := digits_toDigits (show 1 < 10 by norm_num) n
    have hfirst := head?_toDigits_ne_zero (show 1 < 10 by norm_num) hn
    obtain ⟨c, rest, hcons⟩ :=
      List.exists_cons_of_ne_nil (Nat.toDigits_ne_nil (n := n) (b := 10))
    rw [hcons] at hdigits hfirst ⊢
    exact .decimal (by simpa using hfirst) hdigits

/-! ## Texts that read back -/

theorem unsigned_decimal (w : Word) :
    Unsigned w.decimal.toList w.toNat := by
  rw [Word.decimal, String.toList_ofList]
  exact .bare (magnitude_decimal w.toNat)

theorem toList_hex (w : Word) :
    w.hex.toList = '0' :: 'x' :: Nat.toDigits 16 w.toNat := by
  simp [Word.hex]

theorem unsigned_hex (w : Word) :
    Unsigned w.hex.toList w.toNat := by
  rw [toList_hex]
  exact .bare (.hexadecimal (.inl rfl) Nat.toDigits_ne_nil
    (digits_toDigits (by norm_num) w.toNat))

theorem toList_signedDecimal (w : Word) :
    w.signedDecimal.toList =
      if w.toSigned < 0 then '-' :: Nat.toDigits 10 w.toSigned.natAbs
      else w.decimal.toList := by
  simp only [Word.signedDecimal, Word.decimal]
  split_ifs with hneg
  · simp
  · rw [Word.toSigned_of_not_neg hneg, Int.natAbs_natCast]

theorem signed?_signedDecimal (w : Word) :
    signed? w.signedDecimal.toList = some w.toSigned := by
  refine signed?_eq_some_iff.mpr ⟨?_, w.toSigned_range⟩
  rw [toList_signedDecimal]
  split_ifs with hneg
  · have hminus := Signed.minus (magnitude_decimal w.toSigned.natAbs)
    rwa [show -(w.toSigned.natAbs : Int) = w.toSigned by omega] at hminus
  · rw [Word.toSigned_of_not_neg hneg, Word.decimal, String.toList_ofList]
    exact .bare (magnitude_decimal w.toNat)

theorem variableValue?_of_unsigned {s : List Char} {w : Word} (h : Unsigned s w.toNat) :
    variableValue? s = some w := by
  have hread := unsigned?_eq_some_iff.mpr h
  unfold variableValue?
  split
  · cases h with
    | bare h => exact absurd h (not_magnitude_of_sign (.inr rfl) _ _)
  · rw [hread, Option.some_or]

theorem variableValue?_signedDecimal (w : Word) :
    variableValue? w.signedDecimal.toList = some w := by
  have hread := signed?_signedDecimal w
  rw [toList_signedDecimal] at hread ⊢
  split_ifs at hread ⊢
  · simp only [variableValue?, hread, Option.map_some, Word.ofSigned_toSigned,
      Option.some_or]
  · exact variableValue?_of_unsigned (unsigned_decimal w)

/-! ## The operand of a constant -/

theorem isWordChar_of_isDigit {d : Nat} {c : Char} (h : IsDigit 16 c d) :
    IsWordChar c := by
  obtain ⟨hd, rfl | rfl⟩ := h
  · interval_cases d <;> exact ⟨rfl, by decide⟩
  · interval_cases d <;> exact ⟨rfl, by decide⟩

theorem Digits.isWordChar {n : Nat} {chars : List Char} (h : Digits 16 chars n) :
    ∀ c ∈ chars, IsWordChar c := by
  obtain ⟨ds, hds, -⟩ := h
  induction hds with
  | nil => simp
  | cons hd _ ih => exact List.forall_mem_cons.mpr ⟨isWordChar_of_isDigit hd, ih⟩

theorem isWord_hex (w : Word) :
    IsWord w.hex.toList := by
  have hdigits := (digits_toDigits (show 1 < 16 by norm_num) w.toNat).isWordChar
  rw [toList_hex]
  exact ⟨List.cons_ne_nil _ _,
    List.forall_mem_cons.mpr ⟨⟨rfl, by decide⟩,
      List.forall_mem_cons.mpr ⟨⟨rfl, by decide⟩, hdigits⟩⟩⟩

theorem ofChars_hex (w : Word) :
    Token.ofChars w.hex.toList = .word w.hex := by
  have hheader : Header.ofText? w.hex = none := by
    rw [Option.eq_none_iff_forall_ne_some]
    intro header h
    have hfirst := congrArg (·.toList.head?) (Header.text_of_ofText? h)
    rw [toList_hex] at hfirst
    cases header <;> simp [Header.text] at hfirst
  unfold Token.ofChars
  split
  · next hdollar =>
    rw [toList_hex] at hdollar
    simp at hdollar
  · simp [hheader]

/-- The text of a constant has two words, and the second one is the operand. -/
theorem tokenize_pushConst (w : Word) :
    tokenize (Instruction.pushConst w).text.toList = .ok [.word "PUSH",
      .word w.hex] := by
  have hpush : IsWord "PUSH".toList := ⟨by decide, by simp [IsWordChar, isBlank]⟩
  have htext : (Instruction.pushConst w).text = "PUSH " ++ w.hex := rfl
  have hwords := List.forall_mem_cons.mpr ⟨hpush,
    List.forall_mem_singleton.mpr (isWord_hex w)⟩
  have hline : (Instruction.pushConst w).text.toList =
      [' '].intercalate ["PUSH".toList, w.hex.toList] := by
    simp [htext, List.intercalate_cons_cons]
  rw [hline, (spells_spaced hwords).tokenize, List.map_cons, List.map_singleton,
    ofChars_hex]
  rfl

/-- A word that is printed reads back: the decimal as an unsigned number, the decimal
with a sign as the two's complement reading, both as the initial value of a variable,
and the operand in the text of a constant as an unsigned number. -/
theorem printed_integers_read_back (w : Word) :
    (∃ line, Host.Prints .stdout w line ∧ unsigned? line.toList = some w ∧
      variableValue? line.toList = some w) ∧
    (∃ line, Host.Prints .stdouts w line ∧
      signed? line.toList =
        some (if w.toNat < 2 ^ 63 then (w.toNat : Int) else w.toNat - 2 ^ 64) ∧
      variableValue? line.toList = some w) ∧
    ∃ operand,
      tokenize (Instruction.pushConst w).text.toList = .ok [.word "PUSH",
        .word operand] ∧
      unsigned? operand.toList = some w := by
  refine ⟨⟨w.decimal, Host.prints_stdout w, ?_, ?_⟩,
    ⟨w.signedDecimal, Host.prints_stdouts w, ?_, ?_⟩, ⟨w.hex, tokenize_pushConst w, ?_⟩⟩
  · exact unsigned?_eq_some_iff.mpr (unsigned_decimal w)
  · exact variableValue?_of_unsigned (unsigned_decimal w)
  · rw [signed?_signedDecimal, Word.toSigned_eq]
  · exact variableValue?_signedDecimal w
  · exact unsigned?_eq_some_iff.mpr (unsigned_hex w)

end Text

end CyclicStack
