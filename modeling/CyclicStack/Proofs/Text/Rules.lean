import Mathlib
import CyclicStack.Proofs.Text.Spelling

/-!
# Lexical rules

The tokens of a line are given by rules, each of which matches some texts.  At every
place the rule that matches most characters wins, and of two rules that match equally
many the one for a header.  What it has matched is a token or is skipped, and the next
place is behind it.  Where no rule matches anything, the line is unreadable.

The tokenizer knows no rules: it collects characters until a word must end.  It gives
what the rules give on every line, and the rules give something on every line.
-/

namespace CyclicStack

namespace Text

/-- A blank that does not separate. -/
def isStray (c : Char) : Bool :=
  isBlank c && !isSeparator c

/-- The kind of token that a run of characters is. -/
def Classifies (run : List Char) : Token → Prop
  | .header h => run = h.text.toList
  | .label name => run = '$' :: name.toList
  | .word text =>
    run = text.toList ∧ run.head? ≠ some '$' ∧ ∀ h : Header, run ≠ h.text.toList

inductive Rule where
  | separators
  | comment
  | header (header : Header)
  | label
  | word

namespace Rule

/-- Whether a rule matches a text. -/
def Matches : Rule → List Char → Prop
  | .separators, lexeme => lexeme ≠ [] ∧ ∀ c ∈ lexeme, isSeparator c
  | .comment, lexeme => ∃ text, lexeme = '#' :: text ∧ '\n' ∉ text
  | .header h, lexeme => lexeme = h.text.toList
  | .label, lexeme => ∃ name, lexeme = '$' :: name ∧ ∀ c ∈ name, IsWordChar c
  | .word, lexeme => IsWord lexeme ∧ lexeme.head? ≠ some '$'

/-- The token that a rule makes of what it has matched, unless it skips it. -/
def token? : Rule → List Char → Option Token
  | .separators, _ => none
  | .comment, _ => none
  | .header h, _ => some (.header h)
  | .label, lexeme => some (.label (String.ofList lexeme.tail))
  | .word, lexeme => some (.word (String.ofList lexeme))

def IsHeader (rule : Rule) : Prop :=
  ∃ h, rule = .header h

end Rule

/-- The rule wins with `lexeme` where the line goes on with `lexeme` and `rest`. -/
structure Wins (rule : Rule) (lexeme rest : List Char) : Prop where
  fits : rule.Matches lexeme
  longest : ∀ (rule' : Rule) (lexeme' : List Char), rule'.Matches lexeme' →
    lexeme' <+: lexeme ++ rest → lexeme'.length ≤ lexeme.length
  preferred : ∀ rule' : Rule, rule'.Matches lexeme → rule'.IsHeader → rule.IsHeader

/-- The rules read a line, and give its tokens or the character at which no rule
matches. -/
inductive Lexes : List Char → Except Char (List Token) → Prop
  | done : Lexes [] (.ok [])
  | next {rule : Rule} {lexeme rest : List Char} {outcome : Except Char (List Token)}
      (hwins : Wins rule lexeme rest) (h : Lexes rest outcome) :
      Lexes (lexeme ++ rest) (((rule.token? lexeme).toList ++ ·) <$> outcome)
  | stuck {c : Char} {rest : List Char}
      (h : ∀ (rule : Rule) (lexeme : List Char), rule.Matches lexeme →
        ¬lexeme <+: c :: rest) :
      Lexes (c :: rest) (.error c)

/-! ## Kinds of characters -/

theorem ne_hash_of_isStray {c : Char} (h : isStray c) :
    c ≠ '#' := by
  rintro rfl
  exact absurd h (by decide)

theorem kinds_of_char (c : Char) :
    c = '#' ∨ isSeparator c ∨ isStray c ∨ IsWordChar c := by
  by_cases hhash : c = '#'
  · exact .inl hhash
  · by_cases hseparator : isSeparator c
    · exact .inr (.inl hseparator)
    · by_cases hblank : isBlank c
      · exact .inr (.inr (.inl (by simp [isStray, hblank, hseparator])))
      · exact .inr (.inr (.inr ⟨Bool.eq_false_iff.mpr hblank, hhash⟩))

/-! ## What the rules match -/

theorem isWord_headerText (h : Header) :
    IsWord h.text.toList := by
  have hall : h.text.toList.all fun c => !isBlank c && c != '#' := by
    cases h <;> decide
  refine ⟨by cases h <;> decide, fun c hc => ?_⟩
  simpa [IsWordChar] using List.all_eq_true.mp hall c hc

theorem Header.ofText?_eq_some_iff {text : String} {header : Header} :
    Header.ofText? text = some header ↔ header.text = text := by
  refine ⟨Header.text_of_ofText?, ?_⟩
  rintro rfl
  cases header <;> decide

theorem Token.ofChars_of_head?_ne {run : List Char} (h : run.head? ≠ some '$') :
    Token.ofChars run =
      (Header.ofText? (String.ofList run)).elim (.word (String.ofList run)) .header := by
  unfold Token.ofChars
  split
  · exact absurd rfl h
  · dsimp only
    cases Header.ofText? (String.ofList run) <;> rfl

theorem head?_headerText (header : Header) :
    header.text.toList.head? ≠ some '$' := by
  cases header <;> decide

theorem classifies_ofChars (run : List Char) :
    Classifies run (Token.ofChars run) := by
  by_cases hdollar : run.head? = some '$'
  · obtain ⟨name, rfl⟩ := List.head?_eq_some_iff.mp hdollar
    simp [Token.ofChars, Classifies]
  · rw [Token.ofChars_of_head?_ne hdollar]
    cases hheader : Header.ofText? (String.ofList run) with
    | some header =>
        have htext := Header.text_of_ofText? hheader
        simp [Classifies, htext]
    | none =>
        refine ⟨String.toList_ofList.symm, hdollar, fun header hrun => ?_⟩
        have hsome : Header.ofText? (String.ofList run) = some header :=
          Header.ofText?_eq_some_iff.mpr (by rw [hrun, String.ofList_toList])
        simp [hheader] at hsome

theorem Classifies.ofChars_eq {run : List Char} {token : Token}
    (h : Classifies run token) :
    Token.ofChars run = token := by
  cases token with
  | header header =>
      obtain rfl := h
      have hsome : Header.ofText? header.text = some header :=
        Header.ofText?_eq_some_iff.mpr rfl
      rw [Token.ofChars_of_head?_ne (head?_headerText header),
        String.ofList_toList, hsome, Option.elim_some]
  | label name =>
      obtain rfl := h
      rw [Token.ofChars, String.ofList_toList]
  | word text =>
      obtain ⟨rfl, hdollar, hheader⟩ := h
      have hnone : Header.ofText? text = none := by
        refine Option.eq_none_iff_forall_ne_some.mpr fun header hsome =>
          hheader header ?_
        rw [Header.text_of_ofText? hsome]
      rw [Token.ofChars_of_head?_ne hdollar, String.ofList_toList, hnone,
        Option.elim_none]

theorem isWord_of_token? {rule : Rule} {lexeme : List Char} {token : Token}
    (hfits : rule.Matches lexeme) (htoken : rule.token? lexeme = some token) :
    IsWord lexeme := by
  cases rule with
  | separators => cases htoken
  | comment => cases htoken
  | header h =>
      obtain rfl := hfits
      exact isWord_headerText h
  | label =>
      obtain ⟨name, rfl, hname⟩ := hfits
      exact ⟨List.cons_ne_nil _ _,
        List.forall_mem_cons.mpr ⟨by unfold IsWordChar; decide, hname⟩⟩
  | word => exact hfits.1

theorem ne_nil_of_matches {rule : Rule} {lexeme : List Char} (h : rule.Matches lexeme) :
    lexeme ≠ [] := by
  cases rule with
  | separators => exact h.1
  | comment =>
      obtain ⟨text, rfl, -⟩ := h
      exact List.cons_ne_nil _ _
  | header | label | word => exact (isWord_of_token? h rfl).1

/-- Every word is matched by some rule. -/
theorem exists_matches_of_isWord {lexeme : List Char} (h : IsWord lexeme) :
    ∃ rule : Rule, rule.Matches lexeme := by
  by_cases hdollar : lexeme.head? = some '$'
  · obtain ⟨name, rfl⟩ := List.head?_eq_some_iff.mp hdollar
    exact ⟨.label, name, rfl, (List.forall_mem_cons.mp h.2).2⟩
  · exact ⟨.word, h, hdollar⟩

/-! ## One step -/

theorem Wins.not_isWordChar {rule : Rule} {lexeme rest : List Char}
    (h : Wins rule lexeme rest) (hword : IsWord lexeme) {c : Char}
    (hc : rest.head? = some c) :
    ¬IsWordChar c := by
  intro hchar
  obtain ⟨rest, rfl⟩ := List.head?_eq_some_iff.mp hc
  have hlonger : IsWord (lexeme ++ [c]) := by
    refine ⟨by simp, fun d hd => ?_⟩
    rcases List.mem_append.mp hd with hd | hd
    · exact hword.2 d hd
    · rwa [List.mem_singleton.mp hd]
  obtain ⟨rule', hrule'⟩ := exists_matches_of_isWord hlonger
  have hle := h.longest rule' (lexeme ++ [c]) hrule' ⟨rest, by simp⟩
  simp at hle

/-- The rule for words wins only where no header is, so the rules classify what they
match. -/
theorem Wins.classifies {rule : Rule} {lexeme rest : List Char}
    (h : Wins rule lexeme rest) {token : Token}
    (htoken : rule.token? lexeme = some token) :
    Classifies lexeme token := by
  have hfits := h.fits
  cases rule with
  | separators => cases htoken
  | comment => cases htoken
  | header header =>
      obtain rfl := Option.some.inj htoken
      exact hfits
  | label =>
      obtain ⟨name, rfl, -⟩ := hfits
      obtain rfl := Option.some.inj htoken
      simp [Classifies]
  | word =>
      obtain rfl := Option.some.inj htoken
      refine ⟨String.toList_ofList.symm, hfits.2, fun header hheader => ?_⟩
      obtain ⟨_, hrule⟩ := h.preferred (.header header) hheader ⟨header, rfl⟩
      cases hrule

theorem scan_stray {c : Char} (hc : isStray c) (pending rest : List Char) :
    scan pending (c :: rest) = .error c := by
  obtain ⟨hblank, hseparator⟩ : isBlank c ∧ ¬isSeparator c := by
    simpa [isStray] using hc
  rw [scan, if_neg (ne_hash_of_isStray hc), if_neg hseparator, if_pos hblank]

/-- A word that is being read is complete in front of a character of no word. -/
theorem scan_of_not_isWordChar {rest : List Char}
    (h : ∀ c, rest.head? = some c → ¬IsWordChar c) (pending : List Char) :
    scan pending rest = (pendingToken pending ++ ·) <$> scan [] rest := by
  rcases rest with _ | ⟨c, rest⟩
  · exact scan_of_endsWord (by simp [EndsWord]) pending
  · rcases kinds_of_char c with rfl | hc | hc | hc
    · exact scan_of_endsWord (by simp [EndsWord]) pending
    · exact scan_of_endsWord (by simp [EndsWord, hc]) pending
    · rw [scan_stray hc, scan_stray hc]
      rfl
    · exact absurd hc (h c rfl)

theorem scan_separators {separators : List Char} (h : ∀ c ∈ separators, isSeparator c)
    (rest : List Char) :
    scan [] (separators ++ rest) = scan [] rest := by
  induction separators with
  | nil => rfl
  | cons c separators ih =>
      obtain ⟨hc, hseparators⟩ := List.forall_mem_cons.mp h
      rw [List.cons_append, scan_separator hc, ih hseparators]
      exact id_map' _

/-- A comment goes up to the end of the line or to a line feed. -/
theorem Wins.scan_comment {lexeme rest : List Char} (h : Wins .comment lexeme rest) :
    scan [] (lexeme ++ rest) = scan [] rest := by
  obtain ⟨text, rfl, htext⟩ := h.fits
  cases rest with
  | nil => simp [scan, htext, pendingToken]
  | cons c rest =>
      have hfeed : c = '\n' := by
        by_contra hne
        have hlonger : Rule.comment.Matches ('#' :: (text ++ [c])) :=
          ⟨text ++ [c], rfl, by simpa [htext] using Ne.symm hne⟩
        have hle := h.longest _ _ hlonger ⟨rest, by simp⟩
        simp at hle
      subst hfeed
      rw [scan_stray (by decide)]
      simp [scan]

theorem Wins.scan_eq {rule : Rule} {lexeme rest : List Char}
    (h : Wins rule lexeme rest) :
    scan [] (lexeme ++ rest) = ((rule.token? lexeme).toList ++ ·) <$> scan [] rest := by
  cases htoken : rule.token? lexeme with
  | some token =>
      have hword := isWord_of_token? h.fits htoken
      rw [scan_word hword.2, List.append_nil, scan_of_not_isWordChar fun c =>
        h.not_isWordChar hword, pendingToken_reverse hword.1,
        (h.classifies htoken).ofChars_eq]
      rfl
  | none =>
      have hskips : scan [] (lexeme ++ rest) = scan [] rest := by
        cases rule with
        | separators => exact scan_separators h.fits.2 rest
        | comment => exact h.scan_comment
        | header | label | word => cases htoken
      rw [hskips]
      exact (id_map' _).symm

/-! ## Whole lines -/

theorem isStray_of_stuck {c : Char} {rest : List Char}
    (h : ∀ (rule : Rule) (lexeme : List Char), rule.Matches lexeme →
      ¬lexeme <+: c :: rest) :
    isStray c := by
  have hsingle : ∀ rule : Rule, ¬rule.Matches [c] :=
    fun rule hrule => h rule [c] hrule ⟨rest, rfl⟩
  rcases kinds_of_char c with rfl | hc | hc | hc
  · exact absurd ⟨[], rfl, List.not_mem_nil⟩ (hsingle .comment)
  · exact absurd ⟨List.cons_ne_nil c [], by simpa using hc⟩ (hsingle .separators)
  · exact hc
  · have hword : IsWord [c] := ⟨List.cons_ne_nil c [], by simpa using hc⟩
    obtain ⟨rule, hrule⟩ := exists_matches_of_isWord hword
    exact absurd hrule (hsingle rule)

theorem Lexes.tokenize_eq {line : List Char} {outcome : Except Char (List Token)}
    (h : Lexes line outcome) :
    tokenize line = outcome := by
  unfold tokenize
  induction h with
  | done => rfl
  | next hwins _ ih => rw [hwins.scan_eq, ih]
  | stuck h => exact scan_stray (isStray_of_stuck h) _ _

theorem exists_longest {rule : Rule} {lexeme line : List Char}
    (hfits : rule.Matches lexeme) (hline : lexeme <+: line) :
    ∃ (rule : Rule) (lexeme : List Char), rule.Matches lexeme ∧ lexeme <+: line ∧
      ∀ (rule' : Rule) (lexeme' : List Char), rule'.Matches lexeme' → lexeme' <+: line →
        lexeme'.length ≤ lexeme.length := by
  -- A match that is not longest leaves less of the line to a longer one.
  induction hleft : line.length - lexeme.length using Nat.strong_induction_on
    generalizing rule lexeme with
  | _ left ih =>
      by_cases hlonger : ∃ (rule' : Rule) (lexeme' : List Char), rule'.Matches lexeme' ∧
          lexeme' <+: line ∧ lexeme.length < lexeme'.length
      · obtain ⟨rule', lexeme', hfits', hline', hlt⟩ := hlonger
        have hle := hline'.length_le
        exact ih (line.length - lexeme'.length) (by omega) hfits' hline' rfl
      · refine ⟨rule, lexeme, hfits, hline, fun rule' lexeme' hfits' hline' => ?_⟩
        exact Nat.not_lt.mp fun hlt => hlonger ⟨rule', lexeme', hfits', hline', hlt⟩

/-- Where some rule matches, some rule wins. -/
theorem exists_wins {rule : Rule} {lexeme line : List Char}
    (hfits : rule.Matches lexeme) (hline : lexeme <+: line) :
    ∃ (rule : Rule) (lexeme rest : List Char), line = lexeme ++ rest ∧
      Wins rule lexeme rest := by
  obtain ⟨rule, lexeme, hfits, ⟨rest, rfl⟩, hlongest⟩ := exists_longest hfits hline
  by_cases hheader : ∃ header, (Rule.header header).Matches lexeme
  · obtain ⟨header, hheader⟩ := hheader
    exact ⟨.header header, lexeme, rest, rfl, hheader, hlongest, fun _ _ _ =>
      ⟨header, rfl⟩⟩
  · refine ⟨rule, lexeme, rest, rfl, hfits, hlongest, ?_⟩
    rintro _ hfits' ⟨header, rfl⟩
    exact absurd ⟨header, hfits'⟩ hheader

theorem exists_lexes (line : List Char) :
    ∃ outcome, Lexes line outcome := by
  induction hlength : line.length using Nat.strong_induction_on generalizing line with
  | _ length ih =>
      by_cases hmatch : ∃ (rule : Rule) (lexeme : List Char), rule.Matches lexeme ∧
        lexeme <+: line
      · obtain ⟨rule, lexeme, hfits, hline⟩ := hmatch
        obtain ⟨rule, lexeme, rest, rfl, hwins⟩ := exists_wins hfits hline
        have hpos := List.length_pos_of_ne_nil (ne_nil_of_matches hwins.fits)
        rw [List.length_append] at hlength
        obtain ⟨outcome, houtcome⟩ := ih rest.length (by omega) rest rfl
        exact ⟨_, .next hwins houtcome⟩
      · rcases line with _ | ⟨c, rest⟩
        · exact ⟨_, .done⟩
        · exact ⟨_, .stuck fun rule lexeme hfits hline =>
            hmatch ⟨rule, lexeme, hfits, hline⟩⟩

/-- The tokenizer reads every line by the rules. -/
theorem lexes_iff {line : List Char} {outcome : Except Char (List Token)} :
    Lexes line outcome ↔ tokenize line = outcome := by
  refine ⟨Lexes.tokenize_eq, fun h => ?_⟩
  obtain ⟨outcome', houtcome'⟩ := exists_lexes line
  rwa [← h, houtcome'.tokenize_eq]

end Text

end CyclicStack
