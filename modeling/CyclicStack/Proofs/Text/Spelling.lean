import Mathlib
import CyclicStack.Text.Token

/-!
# How words are spelled on a line

A line spells its words in order.  Around the words stand separators, as many as one
likes and of any kind, and a comment may follow; between two words there is at least one
separator.  The tokenizer accepts exactly the lines that spell something, and its tokens
are the words.

A token is printed as the word that it was read from, so the words of a line, printed
with single spaces between them, are read as the same tokens again.
-/

namespace CyclicStack

namespace Text

/-- The characters of a word. -/
def IsWordChar (c : Char) : Prop :=
  isBlank c = false ∧ c ≠ '#'

def IsWord (word : List Char) : Prop :=
  word ≠ [] ∧ ∀ c ∈ word, IsWordChar c

/-- Whether a word can end in front of the rest of a line. -/
def EndsWord (rest : List Char) : Prop :=
  ∀ c, rest.head? = some c → isSeparator c ∨ c = '#'

/-- The line spells the words. -/
inductive Spells : List (List Char) → List Char → Prop
  | nil : Spells [] []
  | comment {text : List Char} (h : '\n' ∉ text) : Spells [] ('#' :: text)
  | separator {words : List (List Char)} {c : Char} {rest : List Char}
      (hc : isSeparator c)
      (h : Spells words rest) : Spells words (c :: rest)
  | word {word : List Char} {words : List (List Char)} {rest : List Char}
      (hword : IsWord word)
      (hend : EndsWord rest) (h : Spells words rest) :
        Spells (word :: words) (word ++ rest)

/-! ## Kinds of characters -/

theorem isBlank_of_isSeparator {c : Char} (h : isSeparator c) :
    isBlank c := by
  simp only [isSeparator, isBlank, Bool.or_eq_true, Bool.and_eq_true, beq_iff_eq,
    decide_eq_true_eq] at h ⊢
  omega

theorem ne_hash_of_isSeparator {c : Char} (h : isSeparator c) :
    c ≠ '#' := by
  rintro rfl
  exact absurd h (by decide)

theorem IsWordChar.not_isSeparator {c : Char} (h : IsWordChar c) :
    ¬isSeparator c := by
  intro hc
  exact Bool.false_ne_true (h.1.symm.trans (isBlank_of_isSeparator hc))

theorem ne_newline_of_isWordChar {c : Char} (h : IsWordChar c) :
    c ≠ '\n' := by
  rintro rfl
  exact absurd h.1 (by decide)

/-! ## Reading what is spelled -/

theorem scan_separator {pending rest : List Char} {c : Char} (hc : isSeparator c) :
    scan pending (c :: rest) = (pendingToken pending ++ ·) <$> scan [] rest := by
  rw [scan, if_neg (ne_hash_of_isSeparator hc), if_pos hc]
  cases scan [] rest <;> rfl

theorem scan_wordChar {pending rest : List Char} {c : Char} (hc : IsWordChar c) :
    scan pending (c :: rest) = scan (c :: pending) rest := by
  rw [scan, if_neg hc.2, if_neg hc.not_isSeparator, if_neg (by simp [hc.1])]

theorem scan_word {word : List Char} (hword : ∀ c ∈ word, IsWordChar c)
    (pending rest : List Char) :
    scan pending (word ++ rest) = scan (word.reverse ++ pending) rest := by
  induction word generalizing pending with
  | nil => simp
  | cons c word ih =>
      rw [List.cons_append, scan_wordChar (hword c List.mem_cons_self),
        ih fun d hd => hword d (List.mem_cons_of_mem c hd)]
      simp

/-- A word that is being read is complete where it can end. -/
theorem scan_of_endsWord {rest : List Char} (hend : EndsWord rest)
    (pending : List Char) :
    scan pending rest = (pendingToken pending ++ ·) <$> scan [] rest := by
  cases rest with
  | nil => simp [scan, pendingToken, Functor.map, Except.map]
  | cons c rest =>
      rcases hend c rfl with hc | rfl
      · rw [scan_separator hc, scan_separator hc]
        cases scan [] rest <;> simp [pendingToken, Functor.map, Except.map]
      · simp only [scan, if_true]
        split_ifs <;> simp [pendingToken, Functor.map, Except.map]

theorem pendingToken_reverse {word : List Char} (hword : word ≠ []) :
    pendingToken word.reverse = [Token.ofChars word] := by
  rw [pendingToken, List.reverse_reverse]
  simpa using hword

theorem Spells.tokenize {words : List (List Char)} {raw : List Char}
    (h : Spells words raw) :
    tokenize raw = .ok (words.map Token.ofChars) := by
  unfold Text.tokenize
  induction h with
  | nil => rfl
  | comment h => simp [scan, h, pendingToken]
  | separator hc _ ih =>
      rw [scan_separator hc, ih]
      rfl
  | word hword hend _ ih =>
      rw [scan_word hword.2, scan_of_endsWord hend, ih, List.append_nil,
        pendingToken_reverse hword.1]
      rfl

/-- A word that is being read, in front of what the rest of the line spells. -/
theorem Spells.pending {words : List (List Char)} {rest pending : List Char}
    (h : Spells words rest) (hend : EndsWord rest)
    (hpending : ∀ c ∈ pending, IsWordChar c) :
    ∃ words', Spells words' (pending.reverse ++ rest) ∧
      words'.map Token.ofChars = pendingToken pending ++ words.map Token.ofChars := by
  by_cases hempty : pending = []
  · subst hempty
    exact ⟨words, h, rfl⟩
  · have hword : IsWord pending.reverse := by
      refine ⟨by simpa using hempty, fun c hc => hpending c (List.mem_reverse.mp hc)⟩
    have hread := pendingToken_reverse hword.1
    rw [List.reverse_reverse] at hread
    refine ⟨pending.reverse :: words, .word hword hend h, ?_⟩
    rw [hread]
    rfl

theorem exists_spells_of_scan {pending raw : List Char} {tokens : List Token}
    (hpending : ∀ c ∈ pending, IsWordChar c) (h : scan pending raw = .ok tokens) :
    ∃ words, Spells words (pending.reverse ++ raw) ∧
      tokens = words.map Token.ofChars := by
  induction raw generalizing pending tokens with
  | nil =>
      obtain ⟨words, hwords, htokens⟩ :=
        Spells.nil.pending (by simp [EndsWord]) hpending
      refine ⟨words, hwords, ?_⟩
      simpa [scan, htokens] using h.symm
  | cons c rest ih =>
      by_cases hhash : c = '#'
      · subst hhash
        rw [scan, if_pos rfl] at h
        split_ifs at h with hfeed
        obtain ⟨words, hwords, htokens⟩ :=
          (Spells.comment hfeed).pending (by simp [EndsWord]) hpending
        exact ⟨words, hwords, by simpa [htokens] using h.symm⟩
      · by_cases hc : isSeparator c
        · rw [scan_separator hc] at h
          cases hrest : scan [] rest with
          | error blank => simp [hrest, Functor.map, Except.map] at h
          | ok tokens' =>
              obtain ⟨words', hwords', rfl⟩ := ih (by simp) hrest
              obtain ⟨words, hwords, htokens⟩ :=
                (Spells.separator hc hwords').pending (by simp [EndsWord, hc]) hpending
              refine ⟨words, by simpa using hwords, ?_⟩
              simpa [hrest, Functor.map, Except.map, htokens] using h.symm
        · rw [scan, if_neg hhash, if_neg hc] at h
          split_ifs at h with hblank
          have hchar : IsWordChar c := ⟨Bool.eq_false_iff.mpr hblank, hhash⟩
          have hnext : ∀ d ∈ c :: pending, IsWordChar d :=
            List.forall_mem_cons.mpr ⟨hchar, hpending⟩
          simpa using ih hnext h

/-- The tokenizer reads the words that a line spells. -/
theorem tokenize_eq_ok_iff {raw : List Char} {tokens : List Token} :
    tokenize raw = .ok tokens ↔ ∃ words, Spells words raw ∧
      tokens = words.map Token.ofChars := by
  constructor
  · intro h
    simpa using exists_spells_of_scan (List.forall_mem_nil _) h
  · rintro ⟨words, hwords, rfl⟩
    exact hwords.tokenize

theorem Spells.isWord {words : List (List Char)} {raw : List Char}
    (h : Spells words raw) :
    ∀ word ∈ words, IsWord word := by
  induction h with
  | nil | comment => simp
  | separator _ _ ih => exact ih
  | word hword _ _ ih => exact List.forall_mem_cons.mpr ⟨hword, ih⟩

/-- A separator at the end of a line changes nothing, not even at the end of a
comment. -/
theorem Spells.append_separator {words : List (List Char)} {raw : List Char}
    (h : Spells words raw) {c : Char} (hc : isSeparator c) :
    Spells words (raw ++ [c]) := by
  induction h with
  | nil => exact .separator hc .nil
  | comment h =>
      have hne : c ≠ '\n' := by
        rintro rfl
        exact absurd hc (by decide)
      exact .comment (by simpa [h] using hne.symm)
  | separator hd _ ih => exact .separator hd ih
  | @word word words rest hword hend _ ih =>
      rw [List.append_assoc]
      refine .word hword ?_ ih
      cases rest with
      | nil => simp [EndsWord, hc]
      | cons d rest => simpa [EndsWord] using hend

/-! ## Printing -/

theorem Header.text_of_ofText? {text : String} {header : Header}
    (h : Header.ofText? text = some header) :
    header.text = text := by
  simpa using List.find?_some h

/-- A token is printed as it was read. -/
@[simp] theorem Token.toList_text_ofChars (word : List Char) :
    (Token.ofChars word).text.toList = word := by
  unfold ofChars
  split
  · simp [text]
  · dsimp only
    split
    · next hheader => simp [text, Header.text_of_ofText? hheader]
    · simp [text]

theorem spells_spaced {words : List (List Char)} (h : ∀ word ∈ words, IsWord word) :
    Spells words ([' '].intercalate words) := by
  induction words with
  | nil => exact .nil
  | cons word rest ih =>
      obtain ⟨hword, hrest⟩ := List.forall_mem_cons.mp h
      cases rest with
      | nil => simpa using Spells.word hword (by simp [EndsWord]) .nil
      | cons next rest =>
          rw [List.intercalate_cons_cons, List.append_assoc]
          refine .word hword ?_ (.separator (by decide) (ih hrest))
          simp [EndsWord, isSeparator]

theorem toList_text_words (words : List (List Char)) :
    (String.intercalate " " ((words.map Token.ofChars).map Token.text)).toList =
      [' '].intercalate words := by
  simp [String.toList_intercalate, Function.comp_def]

end Text

end CyclicStack
