import Mathlib
import CyclicStack.Proofs.Text.Rules

/-!
# Runs of characters

The body of a line is what stands before its first `#`.  Cut at the separators, it falls
into runs, and each run is a token, unless the body has a blank in it that does not
separate.

A run is given together with the characters before it, so that equal runs at different
places are told apart and the order of the runs can be said.
-/

namespace CyclicStack

namespace Text

/-- The part of a line before its comment. -/
def body (line : List Char) : List Char :=
  line.takeWhile (· != '#')

/-- Behind the characters `before` the text has a run without separators, which goes as
far as it can on both sides. -/
structure IsMaximalRun (text before run : List Char) : Prop where
  ne_nil : run ≠ []
  unseparated : ∀ c ∈ run, ¬isSeparator c
  starts : ∀ c, before.getLast? = some c → isSeparator c
  stops : ∃ after, text = before ++ run ++ after ∧
    ∀ c, after.head? = some c → isSeparator c

/-- The maximal runs of a text in their order, each behind the characters before it. -/
structure AreMaximalRuns (text : List Char) (runs : List (List Char × List Char)) :
    Prop where
  mem_iff : ∀ before run, (before, run) ∈ runs ↔ IsMaximalRun text before run
  ordered : runs.Pairwise fun a b => a.1.length < b.1.length

/-! ## The body of a line -/

theorem body_cons_of_ne {c : Char} (hc : c ≠ '#') (rest : List Char) :
    body (c :: rest) = c :: body rest := by
  simp [body, hc]

theorem body_hash (rest : List Char) :
    body ('#' :: rest) = [] := rfl

theorem body_word_append {word : List Char} (hword : ∀ c ∈ word, IsWordChar c)
    (rest : List Char) :
    body (word ++ rest) = word ++ body rest := by
  refine List.takeWhile_append_of_pos fun c hc => ?_
  simpa using (hword c hc).2

theorem isSeparator_of_head?_body {rest : List Char} (hend : EndsWord rest) {c : Char}
    (hc : (body rest).head? = some c) :
    isSeparator c := by
  rcases rest with _ | ⟨d, rest⟩
  · simp [body] at hc
  · rcases hend d rfl with hd | rfl
    · rw [body_cons_of_ne (ne_hash_of_isSeparator hd)] at hc
      rwa [← Option.some.inj hc]
    · simp [body_hash] at hc

/-! ## Blanks that do not separate -/

theorem scan_eq_error_iff {line : List Char} (hline : '\n' ∉ line) {pending : List Char}
    {c : Char} :
    scan pending line = .error c ↔ (body line).find? isStray = some c := by
  induction line generalizing pending with
  | nil => simp [scan, body]
  | cons d rest ih =>
      have hrest : '\n' ∉ rest := fun hmem => hline (List.mem_cons_of_mem d hmem)
      rcases kinds_of_char d with rfl | hd | hd | hd
      · simp [scan, hrest, body_hash]
      · have hstray : ¬isStray d := by simp [isStray, hd]
        rw [scan_separator hd, body_cons_of_ne (ne_hash_of_isSeparator hd),
          List.find?_cons_of_neg hstray, ← ih hrest]
        cases scan [] rest <;> simp [Functor.map, Except.map]
      · rw [scan_stray hd, body_cons_of_ne (ne_hash_of_isStray hd),
          List.find?_cons_of_pos hd]
        simp
      · have hstray : ¬isStray d := by simp [isStray, hd.1]
        rw [scan_wordChar hd, body_cons_of_ne hd.2,
          List.find?_cons_of_neg hstray, ih hrest]

/-! ## Runs of a text -/

theorem areMaximalRuns_nil :
    AreMaximalRuns [] [] := by
  refine ⟨fun before run => ⟨fun h => absurd h List.not_mem_nil, fun h => ?_⟩, .nil⟩
  obtain ⟨after, htext, -⟩ := h.stops
  simp [h.ne_nil] at htext

theorem starts_cons_iff {c : Char} (hc : isSeparator c) {before : List Char} :
    (∀ d, (c :: before).getLast? = some d → isSeparator d) ↔
      ∀ d, before.getLast? = some d → isSeparator d := by
  rw [List.getLast?_cons]
  cases before.getLast? <;> simp [hc]

/-- A separator in front belongs to no run. -/
theorem isMaximalRun_cons_iff {c : Char} (hc : isSeparator c)
    {text before run : List Char} :
    IsMaximalRun (c :: text) before run ↔
      ∃ before', before = c :: before' ∧ IsMaximalRun text before' run := by
  constructor
  · rintro ⟨hne, hrun, hstarts, after, htext, hstops⟩
    rcases before with _ | ⟨d, before⟩
    · obtain ⟨d, run, rfl⟩ := List.exists_cons_of_ne_nil hne
      obtain ⟨rfl, -⟩ := List.cons.inj htext
      exact absurd hc (hrun c List.mem_cons_self)
    · obtain ⟨rfl, htext'⟩ := List.cons.inj htext
      exact ⟨before, rfl, hne, hrun, (starts_cons_iff hc).mp hstarts, after,
        htext', hstops⟩
  · rintro ⟨before, rfl, hne, hrun, hstarts, after, rfl, hstops⟩
    exact ⟨hne, hrun, (starts_cons_iff hc).mpr hstarts, after, rfl, hstops⟩

theorem takeWhile_run {run after : List Char} (hrun : ∀ c ∈ run, ¬isSeparator c)
    (hstops : ∀ c, after.head? = some c → isSeparator c) :
    (run ++ after).takeWhile (fun c => !isSeparator c) = run := by
  rw [List.takeWhile_append_of_pos (by simpa using hrun)]
  rcases after with _ | ⟨c, after⟩
  · simp
  · simp [hstops c rfl]

/-- A word in front of a separator is the first run. -/
theorem isMaximalRun_append_iff {word text : List Char} (hword : IsWord word)
    (hend : ∀ c, text.head? = some c → isSeparator c) {before run : List Char} :
    IsMaximalRun (word ++ text) before run ↔
      before = [] ∧ run = word ∨
        ∃ before', before = word ++ before' ∧ IsMaximalRun text before' run := by
  have hunseparated : ∀ c ∈ word, ¬isSeparator c :=
    fun c hc => (hword.2 c hc).not_isSeparator
  constructor
  · rintro ⟨hne, hrun, hstarts, after, htext, hstops⟩
    cases hlast : before.getLast? with
    | none =>
        obtain rfl := List.getLast?_eq_none_iff.mp hlast
        refine .inl ⟨rfl, ?_⟩
        rw [← takeWhile_run hrun hstops, ← takeWhile_run hunseparated hend, htext]
        rfl
    | some d =>
        have hd := hstarts d hlast
        rw [List.append_assoc] at htext
        rcases List.append_eq_append_iff.mp htext with ⟨before', rfl, hrest⟩ |
          ⟨tail, rfl, -⟩
        · refine .inr ⟨before', rfl, hne, hrun, fun e he => hstarts e ?_,
            after, ?_, hstops⟩
          · rw [List.getLast?_append, he, Option.some_or]
          · rw [hrest, List.append_assoc]
        · have hmem := List.mem_append_left tail (List.mem_of_getLast? hlast)
          exact absurd hd (hunseparated d hmem)
  · rintro (⟨rfl, rfl⟩ | ⟨before, rfl, hne, hrun, hstarts, after, rfl, hstops⟩)
    · exact ⟨hword.1, hunseparated, by simp, text, rfl, hend⟩
    · -- A run right behind the word would be part of it.
      have hbefore : before ≠ [] := by
        rintro rfl
        obtain ⟨e, run, rfl⟩ := List.exists_cons_of_ne_nil hne
        exact absurd (hend e rfl) (hrun e List.mem_cons_self)
      refine ⟨hne, hrun, fun d hd => hstarts d ?_, after, by simp, hstops⟩
      rwa [List.getLast?_append_of_ne_nil word hbefore] at hd

theorem mem_map_before_iff {runs : List (List Char × List Char)}
    {f : List Char → List Char} {before run : List Char} :
    (before, run) ∈ runs.map (Prod.map f id) ↔
      ∃ before', before = f before' ∧ (before', run) ∈ runs := by
  constructor
  · intro h
    obtain ⟨⟨before', run'⟩, hmem, heq⟩ := List.mem_map.mp h
    obtain ⟨rfl, rfl⟩ := Prod.mk.inj heq
    exact ⟨before', rfl, hmem⟩
  · rintro ⟨before', rfl, hmem⟩
    exact List.mem_map.mpr ⟨(before', run), hmem, rfl⟩

theorem AreMaximalRuns.cons {text : List Char} {runs : List (List Char × List Char)}
    (h : AreMaximalRuns text runs) {c : Char} (hc : isSeparator c) :
    AreMaximalRuns (c :: text) (runs.map (Prod.map (c :: ·) id)) := by
  refine ⟨fun before run => ?_, ?_⟩
  · rw [isMaximalRun_cons_iff hc, mem_map_before_iff]
    simp only [h.mem_iff]
  · rw [List.pairwise_map]
    exact h.ordered.imp fun hlt => Nat.succ_lt_succ hlt

theorem AreMaximalRuns.append {word text : List Char}
    {runs : List (List Char × List Char)} (h : AreMaximalRuns text runs)
    (hword : IsWord word) (hend : ∀ c, text.head? = some c → isSeparator c) :
    AreMaximalRuns (word ++ text)
      (([], word) :: runs.map (Prod.map (word ++ ·) id)) := by
  refine ⟨fun before run => ?_, ?_⟩
  · rw [isMaximalRun_append_iff hword hend, List.mem_cons, mem_map_before_iff,
      Prod.mk.injEq]
    simp only [h.mem_iff]
  · refine List.pairwise_cons.mpr ⟨fun run hrun => ?_, ?_⟩
    · obtain ⟨run', -, rfl⟩ := List.mem_map.mp hrun
      have hpos := List.length_pos_of_ne_nil hword.1
      rw [Prod.map_fst, List.length_append]
      exact Nat.add_pos_left hpos _
    · rw [List.pairwise_map]
      refine h.ordered.imp fun hlt => ?_
      simpa using hlt

theorem Spells.exists_areMaximalRuns {words : List (List Char)} {line : List Char}
    (h : Spells words line) :
    ∃ runs, AreMaximalRuns (body line) runs ∧ runs.map Prod.snd = words := by
  induction h with
  | nil => exact ⟨[], areMaximalRuns_nil, rfl⟩
  | comment => exact ⟨[], areMaximalRuns_nil, rfl⟩
  | separator hc _ ih =>
      obtain ⟨runs, hruns, rfl⟩ := ih
      rw [body_cons_of_ne (ne_hash_of_isSeparator hc)]
      exact ⟨_, hruns.cons hc, by simp⟩
  | word hword hend _ ih =>
      obtain ⟨runs, hruns, rfl⟩ := ih
      rw [body_word_append hword.2]
      exact ⟨_, hruns.append hword fun c => isSeparator_of_head?_body hend, by simp⟩

/-! ## The main result -/

theorem isSeparator_iff {c : Char} :
    isSeparator c ↔ c ∈ [' ', '\t', '\r', '\x0c', '\x0b'] := by
  simp only [isSeparator, Bool.or_eq_true, beq_iff_eq, List.mem_cons,
    List.not_mem_nil, or_false, ← Char.toNat_inj, or_assoc]
  rfl

/-- The tokenizer gives what the lexical rules give.  On a line of text it fails with
the first blank of the body that does not separate, and without such a blank the maximal
runs of the body are its tokens. -/
theorem tokens_are_maximal_runs {line : List Char} (hline : '\n' ∉ line) :
    (∀ outcome, Lexes line outcome ↔ tokenize line = outcome) ∧
    (∀ c, isSeparator c ↔ c ∈ [' ', '\t', '\r', '\x0c', '\x0b']) ∧
    (∀ c, tokenize line = .error c ↔ (body line).find? isStray = some c) ∧
    ((body line).find? isStray = none →
      ∃ runs tokens, tokenize line = .ok tokens ∧ AreMaximalRuns (body line) runs ∧
        List.Forall₂ Classifies (runs.map Prod.snd) tokens) := by
  refine ⟨fun outcome => lexes_iff, fun c => isSeparator_iff,
    fun c => scan_eq_error_iff hline, fun hfind => ?_⟩
  cases htokens : tokenize line with
  | error c =>
      have hc := (scan_eq_error_iff hline).mp htokens
      simp [hfind] at hc
  | ok tokens =>
      obtain ⟨words, hwords, rfl⟩ := tokenize_eq_ok_iff.mp htokens
      obtain ⟨runs, hruns, rfl⟩ := hwords.exists_areMaximalRuns
      refine ⟨runs, _, rfl, hruns, ?_⟩
      rw [List.forall₂_map_right_iff, List.forall₂_same]
      exact fun run _ => classifies_ofChars run

theorem tokens_are_maximal_runs_near_headers :
    let line := "\t__MEM $ a$b __MEMORY#__VAR".toList
    (∃ runs, AreMaximalRuns (body line) runs ∧
      List.Forall₂ Classifies (runs.map Prod.snd)
        [.header .memory, .label "", .word "a$b", .word "__MEMORY"]) ∧
    tokenize "__MEM\u2003x\u00a0".toList = .error '\u2003' := by
  have htokens : tokenize "\t__MEM $ a$b __MEMORY#__VAR".toList =
      .ok [.header .memory, .label "", .word "a$b", .word "__MEMORY"] := by decide
  have hline : '\n' ∉ "\t__MEM $ a$b __MEMORY#__VAR".toList := by decide
  obtain ⟨-, -, -, hruns⟩ := tokens_are_maximal_runs hline
  obtain ⟨runs, tokens, htokens', hmaximal, hkinds⟩ := hruns (by decide)
  obtain rfl := Except.ok.inj (htokens.symm.trans htokens')
  refine ⟨⟨runs, hmaximal, hkinds⟩, ?_⟩
  have hline : '\n' ∉ "__MEM\u2003x\u00a0".toList := by decide
  exact ((tokens_are_maximal_runs hline).2.2.1 '\u2003').mpr (by decide)

end Text

end CyclicStack
