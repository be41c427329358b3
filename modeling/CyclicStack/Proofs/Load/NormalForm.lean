import CyclicStack.Proofs.Load.Order
import CyclicStack.Proofs.Text.Spelling

/-!
# The normal form of a text

A text is written in normal form section by section: the header on a line of its own,
and below it the lines of the section, each with single spaces between its words.
Comments, blank lines and the choice of separators are lost in this way, and nothing
else: the normal form is divided into the same sections, so it loads as the text does.

The same argument shows that comments, blank lines and separators mean nothing in any
text.  What a line does depends on the words that it spells, and a line that spells none
does nothing.
-/

namespace CyclicStack

namespace Text

/-! ## Lines of a text -/

theorem lines_ne_nil (text : List Char) :
    lines text ≠ [] := by
  cases text with
  | nil => simp [lines]
  | cons c rest =>
      rw [lines]
      split_ifs
      · simp
      · split <;> simp

theorem lines_cons_of_ne {c : Char} (hc : c ≠ '\n') {text first : List Char}
    {more : List (List Char)} (h : lines text = first :: more) :
    lines (c :: text) = (c :: first) :: more := by
  simp [lines, hc, h]

theorem lines_append_newline {raw : List Char} (hraw : '\n' ∉ raw) (rest : List Char) :
    lines (raw ++ '\n' :: rest) = raw :: lines rest := by
  induction raw with
  | nil => simp [lines]
  | cons c raw ih =>
      rw [List.mem_cons, not_or] at hraw
      exact lines_cons_of_ne (Ne.symm hraw.1) (ih hraw.2)

theorem lines_flatMap_newline {raws : List (List Char)} (h : ∀ raw ∈ raws, '\n' ∉ raw) :
    lines (raws.flatMap (· ++ ['\n'])) = raws ++ [[]] := by
  induction raws with
  | nil => simp [lines]
  | cons raw raws ih =>
      obtain ⟨hraw, hraws⟩ := List.forall_mem_cons.mp h
      rw [List.flatMap_cons, List.append_assoc, List.singleton_append,
        lines_append_newline hraw, ih hraws, List.cons_append]

section

variable {number : Nat} {current : Option Header} {seen : List Header}
  {raws : List (List Char)}
  {placed : List Placed}

theorem exists_spells_of_placeFrom
    (h : placeFrom number current seen raws = .ok placed) :
    ∀ raw ∈ raws, ∃ words, Spells words raw := by
  induction raws generalizing number current seen placed with
  | nil => simp
  | cons raw rest ih =>
      rw [List.forall_mem_cons]
      rcases placeFrom_cases h with ⟨htokens, htail⟩ | ⟨_, htokens, _, htail⟩ |
        ⟨_, _, _, _, htokens, _, _, htail, _⟩ <;>
      exact ⟨(tokenize_eq_ok_iff.mp htokens).imp fun _ hwords => hwords.1, ih htail⟩

theorem opens_of_placeFrom (h : placeFrom number current seen raws = .ok placed) :
    ∀ p ∈ placed, current = some p.header ∨ Opens raws p.header := by
  induction raws generalizing number current seen placed with
  | nil =>
      obtain rfl : [] = placed := by simpa [placeFrom] using h
      simp
  | cons raw rest ih =>
      have hlater : ∀ {header}, Opens rest header → Opens (raw :: rest) header := by
        rintro header ⟨other, hmem, hother⟩
        exact ⟨other, List.mem_cons_of_mem raw hmem, hother⟩
      rcases placeFrom_cases h with ⟨_, htail⟩ | ⟨header, htokens, _, htail⟩ |
        ⟨header, _, _, _, _, _, hcurrent, htail, rfl⟩
      · intro p hp
        exact (ih htail p hp).imp_right hlater
      · intro p hp
        rcases ih htail p hp with heq | hopens
        · obtain rfl : header = p.header := by simpa using heq
          exact .inr ⟨raw, List.mem_cons_self, htokens⟩
        · exact .inr (hlater hopens)
      · rw [List.forall_mem_cons]
        exact ⟨.inl hcurrent, fun p hp => (ih htail p hp).imp_right hlater⟩

/-! ## Printed lines -/

/-- The line, printed, is read as the same line again. -/
structure Line.Reprints (line : Line) : Prop where
  tokenize_text : tokenize line.text.toList = .ok line.tokens
  not_header : ∀ other, line.tokens ≠ [.header other]
  newline_notMem_text : '\n' ∉ line.text.toList

theorem newline_notMem_of_spaced {words : List (List Char)}
    (h : ∀ word ∈ words, IsWord word) :
    '\n' ∉ [' '].intercalate words := by
  induction words with
  | nil => simp
  | cons word rest ih =>
      obtain ⟨hword, hrest⟩ := List.forall_mem_cons.mp h
      have hnot : '\n' ∉ word :=
        fun hmem => ne_newline_of_isWordChar (hword.2 _ hmem) rfl
      cases rest with
      | nil => simpa using hnot
      | cons next rest => simpa [List.intercalate_cons_cons, hnot] using ih hrest

theorem reprints_of_tokenize {line : Line} {raw : List Char}
    (h : tokenize raw = .ok line.tokens)
    (hcontent : ∀ other, line.tokens ≠ [.header other]) :
    line.Reprints := by
  obtain ⟨words, hspells, htokens⟩ := tokenize_eq_ok_iff.mp h
  have htext : line.text.toList = [' '].intercalate words := by
    rw [Line.text, Line.words, htokens]
    exact toList_text_words words
  refine ⟨?_, hcontent, ?_⟩
  · rw [htext, htokens]
    exact (spells_spaced hspells.isWord).tokenize
  · rw [htext]
    exact newline_notMem_of_spaced hspells.isWord

theorem reprints_of_placeFrom (h : placeFrom number current seen raws = .ok placed) :
    ∀ p ∈ placed, p.line.Reprints := by
  induction raws generalizing number current seen placed with
  | nil =>
      obtain rfl : [] = placed := by simpa [placeFrom] using h
      simp
  | cons raw rest ih =>
      rcases placeFrom_cases h with ⟨_, htail⟩ | ⟨_, _, _, htail⟩ |
        ⟨_, _, _, _, htokens, hcontent, _, htail, rfl⟩
      · exact ih htail
      · exact ih htail
      · exact List.forall_mem_cons.mpr ⟨reprints_of_tokenize htokens hcontent, ih htail⟩

end

theorem reprints_of_sections {text : List Char} {placed : List Placed}
    (h : sections text = .ok placed) (header : Header) :
    ∀ line ∈ linesOf placed header, line.Reprints := by
  intro line hline
  exact reprints_of_placeFrom h _ (mem_linesOf_iff.mp hline)

theorem tokenize_header (header : Header) :
    tokenize header.text.toList = .ok [.header header] := by
  cases header <;> decide

def normalBlock (header : Header) (content : List Line)
    (h : ∀ line ∈ content, line.Reprints) :
    Block where
  header := header
  opening := header.text.toList
  body := content.map (·.text.toList)
  opens := tokenize_header header
  readable := by
    intro raw hraw
    obtain ⟨line, hline, rfl⟩ := List.mem_map.mp hraw
    have hreprints := h line hline
    rw [isBodyLine, hreprints.tokenize_text]
    split
    · next hbad => simp at hbad
    · next header hbad =>
        exact absurd (Except.ok.inj hbad) (hreprints.not_header header)
    · rfl

theorem bodyLines_printed {content : List Line} (h : ∀ line ∈ content, line.Reprints)
    (number : Nat) :
    List.Forall₂ Line.SameTokens content
      (bodyLines number (content.map (·.text.toList))) := by
  induction content generalizing number with
  | nil => exact .nil
  | cons line content ih =>
      obtain ⟨hline, hcontent⟩ := List.forall_mem_cons.mp h
      rw [List.map_cons, bodyLines, hline.tokenize_text]
      exact .cons ⟨rfl, rfl⟩ (ih hcontent (number + 1))

/-! ## The normal form -/

/-- The normal form of a text that has been divided into sections: the sections of the
headers, in the order of the headers. -/
def normalText (headers : List Header) (placed : List Placed) : String :=
  String.join (headers.flatMap fun header =>
    (header.text :: (linesOf placed header).map Line.text).map (· ++ "\n"))

theorem newline_notMem_header (header : Header) :
    '\n' ∉ header.text.toList := by
  cases header <;> decide

theorem newline_notMem_normalBlock {header : Header} {content : List Line}
    (h : ∀ line ∈ content, line.Reprints) :
    ∀ raw ∈ (normalBlock header content h).lines, '\n' ∉ raw := by
  rw [Block.lines, List.forall_mem_cons]
  refine ⟨newline_notMem_header header, ?_⟩
  intro raw hraw
  obtain ⟨line, hline, rfl⟩ := List.mem_map.mp hraw
  exact (h line hline).newline_notMem_text

def normalBlocks {placed : List Placed}
    (h : ∀ header, ∀ line ∈ linesOf placed header, line.Reprints)
    (headers : List Header) :
    List Block :=
  headers.map fun header => normalBlock header (linesOf placed header) (h header)

theorem headers_normalBlocks {placed : List Placed}
    (h : ∀ header, ∀ line ∈ linesOf placed header, line.Reprints)
    (headers : List Header) :
    (normalBlocks h headers).map (·.header) = headers := by
  simp [normalBlocks, normalBlock, Function.comp_def]

theorem lines_normalText {placed : List Placed}
    (h : ∀ header, ∀ line ∈ linesOf placed header, line.Reprints)
    (headers : List Header) :
    lines (normalText headers placed).toList =
      (normalBlocks h headers).flatMap (·.lines) ++ [[]] := by
  have htext : (normalText headers placed).toList =
      ((normalBlocks h headers).flatMap (·.lines)).flatMap (· ++ ['\n']) := by
    simp [normalText, normalBlocks, normalBlock, Block.lines, String.toList_join,
      List.flatMap_assoc, List.flatMap_map]
  rw [htext, lines_flatMap_newline]
  intro raw hraw
  obtain ⟨b, hb, hraw⟩ := List.mem_flatMap.mp hraw
  obtain ⟨header, _, rfl⟩ := List.mem_map.mp hb
  exact newline_notMem_normalBlock (h header) raw hraw

/-- The normal form has the sections of the text. -/
theorem sections_normalText {text : List Char} {placed : List Placed}
    {headers : List Header} (h : sections text = .ok placed) (hnodup : headers.Nodup)
    (hheaders : ∀ header, header ∈ headers ↔ Opens (lines text) header) :
    ∃ placed', sections (normalText headers placed).toList = .ok placed' ∧
      ∀ header, List.Forall₂ Line.SameTokens (linesOf placed header)
        (linesOf placed' header) := by
  have hreprints := reprints_of_sections h
  have hdistinct : ((normalBlocks hreprints headers).map (·.header)).Nodup := by
    rwa [headers_normalBlocks]
  have htext := lines_normalText hreprints headers
  have hlead : ∀ raw ∈ ([] : List (List Char)), tokenize raw = .ok [] :=
    List.forall_mem_nil _
  refine ⟨_, sections_of_blocks hlead (by decide) hdistinct htext, ?_⟩
  intro header
  by_cases hmem : header ∈ headers
  · obtain ⟨before, after, rfl⟩ := List.append_of_mem hmem
    have hsplit : normalBlocks hreprints (before ++ header :: after) =
        normalBlocks hreprints before ++
          normalBlock header (linesOf placed header) (hreprints header) ::
            normalBlocks hreprints after := by
      simp [normalBlocks]
    rw [hsplit] at hdistinct ⊢
    have hlines := linesOf_placeBlocks hdistinct (([] : List (List Char)).length + 1)
    exact hlines ▸ bodyLines_printed (hreprints header) _
  · have hnone : linesOf placed header = [] := by
      rw [List.eq_nil_iff_forall_not_mem]
      intro line hline
      rcases opens_of_placeFrom h _ (mem_linesOf_iff.mp hline) with hcurrent | hopens
      · exact absurd hcurrent (by simp)
      · exact hmem ((hheaders _).mpr hopens)
    have hother : ∀ b ∈ normalBlocks hreprints headers, b.header ≠ header := by
      intro b hb
      obtain ⟨other, hother, rfl⟩ := List.mem_map.mp hb
      exact fun heq => hmem (heq ▸ hother)
    rw [hnone, linesOf_placeBlocks_of_forall_ne hother]
    exact .nil

/-! ## Comments, blank lines and separators -/

/-- The second list of lines spells what the first one spells: the words of a line stay
on their line, and lines without words are added and removed. -/
inductive Restyles : List (List Char) → List (List Char) → Prop
  | nil : Restyles [] []
  | line {words : List (List Char)} {raw raw' : List Char}
      {rest rest' : List (List Char)}
      (h : Spells words raw) (h' : Spells words raw') (hrest : Restyles rest rest') :
      Restyles (raw :: rest) (raw' :: rest')
  | removed {raw : List Char} {rest rest' : List (List Char)} (h : Spells [] raw)
      (hrest : Restyles rest rest') : Restyles (raw :: rest) rest'
  | added {raw : List Char} {rest rest' : List (List Char)} (h : Spells [] raw)
      (hrest : Restyles rest rest') : Restyles rest (raw :: rest')

def Placed.SameTokens (p p' : Placed) : Prop :=
  p.header = p'.header ∧ p.line.SameTokens p'.line

theorem linesOf_sameTokens {placed placed' : List Placed}
    (h : List.Forall₂ Placed.SameTokens placed placed') (header : Header) :
    List.Forall₂ Line.SameTokens (linesOf placed header) (linesOf placed' header) := by
  induction h with
  | nil => exact .nil
  | @cons p p' placed placed' hfirst _ ih =>
      by_cases hheader : p.header = header
      · have hheader' : p'.header = header := hfirst.1 ▸ hheader
        simpa [linesOf, hheader, hheader'] using List.Forall₂.cons hfirst.2 ih
      · have hheader' : p'.header ≠ header := hfirst.1 ▸ hheader
        simpa [linesOf, hheader, hheader'] using ih

theorem Restyles.placeFrom {raws raws' : List (List Char)} (h : Restyles raws raws')
    {number number' : Nat} {current : Option Header} {seen : List Header}
    {placed : List Placed} (hplaced : placeFrom number current seen raws = .ok placed) :
    ∃ placed', Text.placeFrom number' current seen raws' = .ok placed' ∧
      List.Forall₂ Placed.SameTokens placed placed' := by
  induction h generalizing number number' current seen placed with
  | nil =>
      obtain rfl : [] = placed := by simpa [Text.placeFrom] using hplaced
      exact ⟨[], rfl, .nil⟩
  | line hwords hwords' _ ih =>
      have htokens := hwords'.tokenize
      rw [← hwords.tokenize] at htokens
      rcases placeFrom_cases hplaced with ⟨hblank, htail⟩ |
        ⟨header, hheader, hseen, htail⟩ |
        ⟨header, first, more, tail, hcontent, hother, rfl, htail, rfl⟩
      · rw [placeFrom_blank (htokens.trans hblank)]
        exact ih htail
      · rw [placeFrom_header (htokens.trans hheader) hseen]
        exact ih htail
      · obtain ⟨tail', htail', hsame⟩ := ih htail
        exact ⟨_, placeFrom_content (htokens.trans hcontent) hother htail',
          .cons ⟨rfl, rfl, rfl⟩ hsame⟩
  | removed hwords _ ih =>
      rw [placeFrom_blank hwords.tokenize] at hplaced
      exact ih hplaced
  | added hwords _ ih =>
      rw [placeFrom_blank hwords.tokenize]
      exact ih hplaced

theorem Restyles.opens_iff {raws raws' : List (List Char)} (h : Restyles raws raws')
    (header : Header) :
    Opens raws' header ↔ Opens raws header := by
  unfold Opens
  induction h with
  | nil => rfl
  | line hwords hwords' _ ih =>
      rw [List.exists_mem_cons_iff, List.exists_mem_cons_iff, hwords.tokenize,
        hwords'.tokenize, ih]
  | removed hwords _ ih => simp [hwords.tokenize, ih]
  | added hwords _ ih => simp [hwords.tokenize, ih]

def withCarriageReturns (text : List Char) : List Char :=
  text.flatMap fun c => if c = '\n' then ['\r', '\n'] else [c]

theorem lines_withCarriageReturns (text : List Char) :
    List.Forall₂ (fun raw raw' => raw' = raw ∨ raw' = raw ++ ['\r'])
      (lines text) (lines (withCarriageReturns text)) := by
  induction text with
  | nil => exact .cons (.inl rfl) .nil
  | cons c text ih =>
      by_cases hc : c = '\n'
      · subst hc
        exact .cons (.inr rfl) ih
      · obtain ⟨first, more, hlines⟩ := List.exists_cons_of_ne_nil (lines_ne_nil text)
        obtain ⟨first', more', hlines'⟩ :=
          List.exists_cons_of_ne_nil (lines_ne_nil (withCarriageReturns text))
        have hcons : withCarriageReturns (c :: text) =
            c :: withCarriageReturns text := by
          simp [withCarriageReturns, hc]
        rw [hlines, hlines', List.forall₂_cons] at ih
        rw [hcons, lines_cons_of_ne hc hlines, lines_cons_of_ne hc hlines']
        exact .cons (ih.1.imp (by rintro rfl; rfl) (by rintro rfl; rfl)) ih.2

theorem restyles_withCarriageReturns {text : List Char} {placed : List Placed}
    (h : sections text = .ok placed) :
    Restyles (lines text) (lines (withCarriageReturns text)) := by
  have hspells := exists_spells_of_placeFrom h
  have hlines := lines_withCarriageReturns text
  generalize lines text = raws at hspells hlines
  generalize lines (withCarriageReturns text) = raws' at hlines
  induction hlines with
  | nil => exact .nil
  | cons hraw _ ih =>
      obtain ⟨⟨words, hwords⟩, hrest⟩ := List.forall_mem_cons.mp hspells
      refine .line hwords ?_ (ih hrest)
      rcases hraw with rfl | rfl
      · exact hwords
      · exact hwords.append_separator (by decide)

end Text

namespace Load

/-- The same cause, and a line of the same content or no line. -/
def Error.SameComplaint (e e' : Error) : Prop :=
  e.cause = e'.cause ∧ e.place.map (·.content) = e'.place.map (·.content)

end Load

open Text

/-- Texts whose sections hold the same tokens load alike. -/
theorem load_alike_of_sameTokens {text text' : String} {placed placed' : List Placed}
    (h : sections text.toList = .ok placed) (h' : sections text'.toList = .ok placed')
    (hsame : ∀ header,
      List.Forall₂ Line.SameTokens (linesOf placed header) (linesOf placed' header))
    (segments : Load.Segments) :
    Alike Eq Load.Error.SameComplaint (load segments text) (load segments text') := by
  unfold load
  rw [h, h']
  apply (Load.interpret_alike (fun _ _ _ h => h) hsame segments).imp fun _ _ h => h
  rintro _ _ (cause | ⟨hsame, cause⟩)
  · exact ⟨rfl, rfl⟩
  · exact ⟨rfl, congrArg some hsame.text⟩

theorem tokens_of_sameTokens {content content' : List Line}
    (h : List.Forall₂ Line.SameTokens content content') :
    content'.map Line.tokens = content.map Line.tokens := by
  induction h with
  | nil => rfl
  | cons hfirst _ ih =>
      rw [List.map_cons, List.map_cons, ih, Line.tokens, Line.tokens,
        hfirst.1, hfirst.2]

theorem text_of_sameTokens {content content' : List Line}
    (h : List.Forall₂ Line.SameTokens content content') :
    content'.map Line.text = content.map Line.text := by
  induction h with
  | nil => rfl
  | cons hfirst _ ih => rw [List.map_cons, List.map_cons, ih, hfirst.text]

/-- The normal form of a text has the sections of the text and loads as the text does.
Every other way of setting comments, blank lines and separators leads to the same normal
form, and so do carriage returns in front of the line feeds. -/
theorem normal_form_means_the_same {text : String} {placed : List Placed}
    {headers : List Header} (h : sections text.toList = .ok placed)
    (hnodup : headers.Nodup)
    (hheaders : ∀ header, header ∈ headers ↔ Opens (lines text.toList) header) :
    (∃ placed', sections (normalText headers placed).toList = .ok placed' ∧
      ∀ header,
        (linesOf placed' header).map Line.tokens =
        (linesOf placed header).map Line.tokens) ∧
    (∀ segments, Alike Eq Load.Error.SameComplaint (load segments text)
      (load segments (normalText headers placed))) ∧
    (∀ text' : String, Restyles (lines text.toList) (lines text'.toList) →
      (∀ header, header ∈ headers ↔ Opens (lines text'.toList) header) ∧
      (∃ placed', sections text'.toList = .ok placed' ∧
        normalText headers placed' = normalText headers placed) ∧
      ∀ segments, Alike Eq Load.Error.SameComplaint (load segments text)
        (load segments text')) ∧
    ∀ segments, Alike Eq Load.Error.SameComplaint (load segments text)
      (load segments (String.ofList (withCarriageReturns text.toList))) := by
  have hrestyled : ∀ text' : String, Restyles (lines text.toList) (lines text'.toList) →
      ∃ placed', sections text'.toList = .ok placed' ∧ ∀ header,
        List.Forall₂ Line.SameTokens (linesOf placed header)
          (linesOf placed' header) := by
    intro text' hlines
    obtain ⟨placed', hplaced', hsame⟩ := hlines.placeFrom h
    exact ⟨placed', hplaced', linesOf_sameTokens hsame⟩
  refine ⟨?_, ?_, ?_, ?_⟩
  · obtain ⟨placed', hplaced', hsame⟩ := sections_normalText h hnodup hheaders
    exact ⟨placed', hplaced', fun header => tokens_of_sameTokens (hsame header)⟩
  · obtain ⟨placed', hplaced', hsame⟩ := sections_normalText h hnodup hheaders
    exact load_alike_of_sameTokens h hplaced' hsame
  · intro text' hlines
    obtain ⟨placed', hplaced', hsame⟩ := hrestyled text' hlines
    refine ⟨?_, ⟨placed', hplaced', ?_⟩, load_alike_of_sameTokens h hplaced' hsame⟩
    · intro header
      rw [hheaders, hlines.opens_iff]
    · simp only [normalText, text_of_sameTokens (hsame _)]
  · have hlines := restyles_withCarriageReturns h
    rw [← @String.toList_ofList (withCarriageReturns text.toList)] at hlines
    obtain ⟨placed', hplaced', hsame⟩ := hrestyled _ hlines
    exact load_alike_of_sameTokens h hplaced' hsame

theorem normal_form_means_the_same_headers_as_operands :
    load .none "# odd\n__PROGRAM\r\n\t PUSH\t$a$b # x\n\n$#\n__MEM __MEM\n__VAR" =
        .error ⟨.unknownName "$a$b", some ⟨3, "PUSH $a$b"⟩⟩ ∧
      ∃ text', text' = "__VAR\n__PROGRAM\nPUSH $a$b\n$\n__MEM __MEM\n" ∧
        Alike Eq Load.Error.SameComplaint
          (load .none "# odd\n__PROGRAM\r\n\t PUSH\t$a$b # x\n\n$#\n__MEM __MEM\n__VAR")
          (load .none text') := by
  let placed : List Placed :=
    [⟨.program, 3, .word "PUSH", [.label "a$b"]⟩, ⟨.program, 5, .label "", []⟩,
      ⟨.program, 6, .header .memory, [.header .memory]⟩]
  have hsections : sections
      "# odd\n__PROGRAM\r\n\t PUSH\t$a$b # x\n\n$#\n__MEM __MEM\n__VAR".toList =
        .ok placed := by
    decide +kernel
  have hheaders : ∀ header, header ∈ [Header.vars, .program] ↔
      Opens (lines
        "# odd\n__PROGRAM\r\n\t PUSH\t$a$b # x\n\n$#\n__MEM __MEM\n__VAR".toList)
        header := by
    intro header
    unfold Opens
    cases header <;> decide +kernel
  obtain ⟨_, hload, _⟩ := normal_form_means_the_same hsections (by decide) hheaders
  exact ⟨by decide +kernel, _, by decide +kernel, hload .none⟩

end CyclicStack
