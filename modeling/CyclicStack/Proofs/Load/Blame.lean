import CyclicStack.Proofs.Load.Assembly
import CyclicStack.Proofs.Load.Causes
import CyclicStack.Proofs.Text.Placement

/-!
# Load errors point at their line

A text is refused at a line: a line that has no place in a section, or a line that the
reader of its section refuses.  The only error without a line is that of a constant that
is never given a value, and there the first such constant is named.

The readers take the lines of their sections one after the other, so what stops one of
them is a fact about the first line that it does not accept.  Labels are the exception:
a jump is read long before it is known that its label does not exist, and the error
still goes to the line of the jump.
-/

namespace CyclicStack

namespace Load

open Text

/-! ## The line that stops a reader -/

/-- A reader accepts the lines above a line and refuses the line. -/
def StopsAt {σ : Type} (f : σ → Line → Except Cause σ) (s : σ) (lines : List Line)
    (line : Line) (cause : Cause) : Prop :=
  ∃ before after s', lines = before ++ line :: after ∧ eachLine f s before = .ok s' ∧
    f s' line = .error cause

theorem StopsAt.mem {σ : Type} {f : σ → Line → Except Cause σ} {s : σ}
    {lines : List Line} {line : Line} {cause : Cause}
    (h : StopsAt f s lines line cause) :
    line ∈ lines := by
  obtain ⟨before, after, _, rfl, _⟩ := h
  exact List.mem_append_right before List.mem_cons_self

theorem StopsAt.failsWith {σ : Type} {f : σ → Line → Except Cause σ} {s : σ}
    {lines : List Line} {line : Line} {cause : Cause} (h : StopsAt f s lines line cause)
    {P : Cause → Prop} (hf : ∀ s line, FailsWith P (f s line)) :
    P cause := by
  obtain ⟨_, _, s', _, _, herror⟩ := h
  exact hf s' line cause herror

theorem stopsAt_of_eachLine {σ : Type} {f : σ → Line → Except Cause σ} {s : σ}
    {lines : List Line} {e : Error} (h : eachLine f s lines = .error e) :
    ∃ line cause, e = line.blame cause ∧ StopsAt f s lines line cause := by
  induction lines generalizing s with
  | nil => simp [eachLine, pure, Except.pure] at h
  | cons first rest ih =>
      rw [eachLine, List.foldlM_cons, bind_eq_error_iff] at h
      rcases h with hfirst | ⟨t, hfirst, hrest⟩
      · cases hline : f s first with
        | ok t => simp [hline, Except.mapError] at hfirst
        | error cause =>
            obtain rfl : first.blame cause = e := by
              simpa [hline, Except.mapError] using hfirst
            exact ⟨first, cause, rfl, [], rest, s, rfl, rfl, hline⟩
      · rw [mapError_eq_ok_iff] at hfirst
        obtain ⟨line, cause, rfl, before, after, s', rfl, hbefore, herror⟩ := ih hrest
        refine ⟨line, cause, rfl, first :: before, after, s', rfl, ?_, herror⟩
        exact eachLine_cons_eq_ok_iff.mpr ⟨t, hfirst, hbefore⟩

theorem exists_branch_of_link {l : Listing} {e : Error} (h : l.link = .error e) :
    ∃ line condition name, (line, Statement.branch condition name) ∈ l.statements ∧
      l.labels.lookup name = none ∧ e = line.blame (.undefinedLabel name) := by
  unfold Listing.link at h
  rcases bind_eq_error_iff.mp h with h | ⟨_, _, hpure⟩
  · obtain ⟨before, ⟨line, statement⟩, after, hstatements, _, herror⟩ := mapM_eq_error h
    have hmem : (line, statement) ∈ l.statements := by
      rw [← Array.mem_toList_iff, hstatements]
      exact List.mem_append_right before List.mem_cons_self
    cases statement with
    | ready i => simp [Statement.link, Except.mapError] at herror
    | branch condition name =>
        cases hlookup : l.labels.lookup name with
        | some target => simp [Statement.link, hlookup, Except.mapError] at herror
        | none =>
            obtain rfl : line.blame (.undefinedLabel name) = e := by
              simpa [Statement.link, hlookup, Except.mapError] using herror
            exact ⟨line, condition, name, hmem, hlookup, rfl⟩
  · simp [pure, Except.pure] at hpure

/-! ## The reader that refuses a line -/

def emptyDraft (segments : Segments) (settings : Settings) : Draft :=
  { program := { settings, memory := { segments := segments.existing } } }

/-- The reader of a section refuses a line, when the sections that it depends on and the
lines above have been read.  A jump to a label that does not exist is refused after all
lines have been read. -/
inductive Refuses (segments : Segments) (placed : List Placed) :
    Header → Line → Cause → Prop
  | settings {line : Line} {cause : Cause}
      (h : StopsAt addSetting {} (linesOf placed .settings) line cause) :
      Refuses segments placed .settings line cause
  | memory {s : Settings} {line : Line} {cause : Cause}
      (hsettings : Load.settings (linesOf placed .settings) = .ok s)
      (h : StopsAt (Draft.declareMemory segments.refusal) (emptyDraft segments s)
        (linesOf placed .memory) line cause) :
      Refuses segments placed .memory line cause
  | vars {s : Settings} {d : Draft} {line : Line} {cause : Cause}
      (hsettings : Load.settings (linesOf placed .settings) = .ok s)
      (hmemory : eachLine (Draft.declareMemory segments.refusal) (emptyDraft segments s)
        (linesOf placed .memory) = .ok d)
      (h : StopsAt Draft.declare d (linesOf placed .vars) line cause) :
      Refuses segments placed .vars line cause
  | inits {s : Settings} {d d' : Draft} {line : Line} {cause : Cause}
      (hsettings : Load.settings (linesOf placed .settings) = .ok s)
      (hmemory : eachLine (Draft.declareMemory segments.refusal) (emptyDraft segments s)
        (linesOf placed .memory) = .ok d)
      (hvars : eachLine Draft.declare d (linesOf placed .vars) = .ok d')
      (h : StopsAt Draft.addInit d' (linesOf placed .inits) line cause) :
      Refuses segments placed .inits line cause
  | program {d : Draft} {constants : List (String × Word)} {line : Line} {cause : Cause}
      (hdraft : draft segments placed = .ok d)
      (hconstants : d.constantValues = .ok constants)
      (h : StopsAt (Listing.add ⟨constants, d.program.vars⟩) {}
        (linesOf placed .program) line
        cause) :
      Refuses segments placed .program line cause
  | label {d : Draft} {constants : List (String × Word)} {l : Listing} {line : Line}
      {condition : Condition} {name : String}
      (hdraft : draft segments placed = .ok d)
      (hconstants : d.constantValues = .ok constants)
      (hlist : eachLine (Listing.add ⟨constants, d.program.vars⟩) {}
        (linesOf placed .program) =
        .ok l)
      (hline : (line, .branch condition name) ∈ l.statements)
      (hname : l.labels.lookup name = none) :
      Refuses segments placed .program line (.undefinedLabel name)

section

variable {segments : Segments} {placed : List Placed}

theorem refuses_of_draft {e : Error} (h : draft segments placed = .error e) :
    ∃ header line cause, e = line.blame cause ∧
      Refuses segments placed header line cause := by
  rcases bind_eq_error_iff.mp h with hsettings | ⟨s, hsettings, h⟩
  · rcases bind_eq_error_iff.mp hsettings with hlines | ⟨_, _, hpure⟩
    · obtain ⟨line, cause, rfl, hstops⟩ := stopsAt_of_eachLine hlines
      exact ⟨.settings, line, cause, rfl, .settings hstops⟩
    · simp [pure, Except.pure] at hpure
  rcases bind_eq_error_iff.mp h with hmemory | ⟨d, hmemory, h⟩
  · obtain ⟨line, cause, rfl, hstops⟩ := stopsAt_of_eachLine hmemory
    exact ⟨.memory, line, cause, rfl, .memory hsettings hstops⟩
  rcases bind_eq_error_iff.mp h with hvars | ⟨d', hvars, hinits⟩
  · obtain ⟨line, cause, rfl, hstops⟩ := stopsAt_of_eachLine hvars
    exact ⟨.vars, line, cause, rfl, .vars hsettings hmemory hstops⟩
  · obtain ⟨line, cause, rfl, hstops⟩ := stopsAt_of_eachLine hinits
    exact ⟨.inits, line, cause, rfl, .inits hsettings hmemory hvars hstops⟩

theorem refuses_of_interpret {e : Error} (h : interpret segments placed = .error e) :
    (∃ d cause, draft segments placed = .ok d ∧ d.constantValues = .error cause ∧
      e = ⟨cause, none⟩) ∨
    ∃ header line cause, e = line.blame cause ∧
      Refuses segments placed header line cause := by
  rcases bind_eq_error_iff.mp h with hdraft | ⟨d, hdraft, h⟩
  · exact .inr (refuses_of_draft hdraft)
  rcases bind_eq_error_iff.mp h with hconstants | ⟨constants, hconstants, h⟩
  · cases hvalues : d.constantValues with
    | ok values => simp [hvalues, Except.mapError] at hconstants
    | error cause =>
        refine .inl ⟨d, cause, hdraft, hvalues, ?_⟩
        simpa [hvalues, Except.mapError] using hconstants.symm
  rw [mapError_eq_ok_iff] at hconstants
  rcases bind_eq_error_iff.mp h with hassemble | ⟨_, _, hpure⟩
  · rcases bind_eq_error_iff.mp hassemble with hlines | ⟨l, hlist, hlink⟩
    · obtain ⟨line, cause, rfl, hstops⟩ := stopsAt_of_eachLine hlines
      exact .inr ⟨.program, line, cause, rfl, .program hdraft hconstants hstops⟩
    · rcases bind_eq_error_iff.mp hlink with hlink | ⟨_, _, hpure⟩
      · obtain ⟨line, condition, name, hline, hname, rfl⟩ := exists_branch_of_link hlink
        exact .inr ⟨.program, line, _, rfl, .label hdraft hconstants hlist hline hname⟩
      · simp [pure, Except.pure] at hpure
  · simp [pure, Except.pure] at hpure

theorem lists_of_eachLine {d : Draft} {constants : List (String × Word)} {l : Listing}
    (hdraft : draft segments placed = .ok d)
    (hconstants : d.constantValues = .ok constants)
    (hlist : eachLine (Listing.add ⟨constants, d.program.vars⟩) {}
      (linesOf placed .program) =
      .ok l) :
    Lists ⟨constants, d.program.vars⟩ (linesOf placed .program) l :=
  Lists.empty.eachLine ((sound_of_draft hdraft).unambiguous hconstants) hlist

theorem Lists.reads_of_mem {names : Names} {lines : List Line} {l : Listing}
    {line : Line} {statement : Statement} (hl : Lists names lines l)
    (h : (line, statement) ∈ l.statements) :
    line ∈ lines ∧ Reads names line statement := by
  obtain ⟨k, hk, hget⟩ := Array.mem_iff_getElem.mp h
  have hline := List.getElem?_eq_getElem (hl.size ▸ hk)
  obtain ⟨statement', hreads, hget'⟩ := hl.reads k _ hline
  rw [Array.getElem?_eq_getElem hk, hget, Option.some_inj, Prod.mk.injEq] at hget'
  obtain ⟨rfl, rfl⟩ := hget'
  exact ⟨List.mem_of_getElem? hline, hreads⟩

theorem Refuses.mem {header : Header} {line : Line} {cause : Cause}
    (h : Refuses segments placed header line cause) :
    line ∈ linesOf placed header := by
  cases h with
  | settings h => exact h.mem
  | memory _ h => exact h.mem
  | vars _ _ h => exact h.mem
  | inits _ _ _ h => exact h.mem
  | program _ _ h => exact h.mem
  | label hdraft hconstants hlist hline _ =>
      exact ((lists_of_eachLine hdraft hconstants hlist).reads_of_mem hline).1

theorem Refuses.raisedIn {header : Header} {line : Line} {cause : Cause}
    (h : Refuses segments placed header line cause) :
    cause.RaisedIn header := by
  cases h with
  | settings h => exact h.failsWith addSetting_failsWith
  | memory _ h => exact h.failsWith (Draft.declareMemory_failsWith _)
  | vars _ _ h => exact h.failsWith Draft.declare_failsWith
  | inits _ _ _ h => exact h.failsWith Draft.addInit_failsWith
  | program _ _ h => exact (h.failsWith (add_failsWith _)).1
  | label => simp

/-- The line jumps to a label that no line of the program section declares. -/
def JumpsNowhere (placed : List Placed) (name : String) (line : Line) : Prop :=
  (∃ (condition : Condition) (operand : Token),
    line.tokens = [.word condition.mnemonic, operand] ∧ operand.text = name) ∧
  ∀ other ∈ linesOf placed .program, ¬Declares other name

theorem Refuses.jumpsNowhere {header : Header} {line : Line} {name : String}
    (h : Refuses segments placed header line (.undefinedLabel name)) :
    header = .program ∧ JumpsNowhere placed name line := by
  cases h with
  | settings h => simpa using h.failsWith addSetting_failsWith
  | memory _ h => simpa using h.failsWith (Draft.declareMemory_failsWith _)
  | vars _ _ h => simpa using h.failsWith Draft.declare_failsWith
  | inits _ _ _ h => simpa using h.failsWith Draft.addInit_failsWith
  | program _ _ h => exact absurd rfl ((h.failsWith (add_failsWith _)).2 name)
  | label hdraft hconstants hlist hline hname =>
      have hlists := lists_of_eachLine hdraft hconstants hlist
      refine ⟨rfl, ?_, ?_⟩
      · obtain ⟨_, hreads⟩ := hlists.reads_of_mem hline
        cases hreads with
        | jump _ operand => exact ⟨_, operand, rfl, rfl⟩
      · intro other hother hdeclares
        obtain ⟨k, hk⟩ := List.mem_iff_getElem?.mp hother
        have hlookup := (hlists.labels name k).mpr ⟨other, hk, hdeclares⟩
        simp [hname] at hlookup

/-! ## Constants without a value -/

def constantName? (line : Line) : Option String :=
  match line.words with
  | ["const", _, name] => some name
  | _ => none

/-- The constant or variable that a line gives a value. -/
def initName? (line : Line) : Option String :=
  match line.words with
  | [name, _] => some name
  | _ => none

theorem constants_of_declare {d d' : Draft} {line : Line}
    (h : d.declare line = .ok d') :
    d'.constants.map (·.name) = d.constants.map (·.name) ++
      (constantName? line).toList ∧
      ∀ c ∈ d'.constants, c ∈ d.constants ∨ c.value = none := by
  unfold Draft.declare at h
  split at h
  · next first second name hwords =>
    split_ifs at h with hconst
    · unfold Draft.declareConstant at h
      split at h
      · obtain ⟨_, _, hpure⟩ := bind_eq_ok_iff.mp h
        obtain rfl := Except.ok.inj hpure
        subst hconst
        refine ⟨by simp [constantName?, hwords], ?_⟩
        intro c hc
        rcases List.mem_append.mp hc with hold | hnew
        · exact .inl hold
        · exact .inr (by simp [List.mem_singleton.mp hnew])
      · simp at h
    · obtain ⟨v, _, h⟩ := bind_eq_ok_iff.mp h
      obtain ⟨_, _, hpure⟩ := bind_eq_ok_iff.mp h
      obtain rfl := Except.ok.inj hpure
      exact ⟨by simp [constantName?, hwords, hconst], fun c hc => .inl hc⟩
  · simp at h

theorem setConstant_of_constant?_eq_none {d : Draft} {name : String}
    (h : d.constant? name = none) (value : Word) :
    (d.setConstant name value).constants = d.constants := by
  have hne : ∀ c ∈ d.constants, c.name ≠ name := by
    simpa [Draft.constant?] using h
  exact (List.map_congr_left fun c hc => if_neg (hne c hc)).trans (List.map_id _)

/-- A line that gives a value to a variable gives none to a constant: no constant has
its name. -/
theorem constants_of_addInit {d d' : Draft} {line : Line}
    (h : d.addInit line = .ok d') :
    ∃ name value, initName? line = some name ∧
      d'.constants = (d.setConstant name value).constants := by
  obtain ⟨name, literal, hwords, hinit⟩ := Draft.addInit_eq_ok_iff.mp h
  refine ⟨name, ?_⟩
  rw [initName?, hwords]
  cases hinit with
  | @constant _ value => exact ⟨value, rfl, rfl⟩
  | var hconstant => exact ⟨0, rfl, (setConstant_of_constant?_eq_none hconstant 0).symm⟩

/-- The constants are those that the lines declare, in their order, and none of them has
a value. -/
structure Declared (lines : List Line) (d : Draft) : Prop where
  names : d.constants.map (·.name) = lines.filterMap constantName?
  valueless : ∀ c ∈ d.constants, c.value = none

theorem Declared.declare {lines : List Line} {line : Line} {d d' : Draft}
    (hd : Declared lines d) (h : d.declare line = .ok d') :
    Declared (lines ++ [line]) d' := by
  obtain ⟨hnames, hvalues⟩ := constants_of_declare h
  refine ⟨?_, fun c hc => (hvalues c hc).elim (hd.valueless c) id⟩
  rw [hnames, hd.names, List.filterMap_append]
  cases hname : constantName? line <;> simp [hname]

/-- The constants are as they were declared, and those that the lines name have
values. -/
structure Valued (names : List String) (lines : List Line) (d : Draft) : Prop where
  names : d.constants.map (·.name) = names
  isSome_value_iff : ∀ c ∈ d.constants, c.value.isSome ↔
    c.name ∈ lines.filterMap initName?

theorem Valued.addInit {names : List String} {lines : List Line} {line : Line}
    {d d' : Draft} (hd : Valued names lines d) (h : d.addInit line = .ok d') :
    Valued names (lines ++ [line]) d' := by
  obtain ⟨name, value, hname, hconstants⟩ := constants_of_addInit h
  refine ⟨?_, ?_⟩
  · rw [hconstants, ← hd.names, Draft.setConstant, List.map_map]
    refine List.map_congr_left fun c _ => ?_
    simp only [Function.comp_apply]
    split_ifs <;> rfl
  · rw [hconstants, List.filterMap_append]
    intro c' hc'
    obtain ⟨c, hc, rfl⟩ := List.mem_map.mp hc'
    split_ifs with heq
    · simp [hname, heq]
    · simp [hname, heq, hd.isSome_value_iff c hc]

/-- The constants of a draft, and which of them have values, by the lines of the
sections. -/
theorem valued_of_draft {d : Draft} (h : draft segments placed = .ok d) :
    Valued ((linesOf placed .vars).filterMap constantName?)
      (linesOf placed .inits) d := by
  obtain ⟨s, _, h⟩ := bind_eq_ok_iff.mp h
  obtain ⟨d₁, hmemory, h⟩ := bind_eq_ok_iff.mp h
  obtain ⟨d₂, hvars, hinits⟩ := bind_eq_ok_iff.mp h
  have hempty : d₁.constants = [] := by
    refine foldlM_invariant (fun d : Draft => d.constants = []) ?_ rfl hmemory
    intro d line d' hd hstep
    obtain ⟨_, _, _, rfl⟩ := Draft.declareMemory_cases (mapError_eq_ok_iff.mp hstep)
    exact hd
  have hdeclared₁ : Declared [] d₁ := ⟨by simp [hempty], by simp [hempty]⟩
  have hdeclared : Declared (linesOf placed .vars) d₂ :=
    eachLine_invariant Declared (fun _ _ _ _ hd hstep => hd.declare hstep)
      hdeclared₁ hvars
  have hvalued : Valued ((linesOf placed .vars).filterMap constantName?) [] d₂ :=
    ⟨hdeclared.names, fun c hc => by simp [hdeclared.valueless c hc]⟩
  exact eachLine_invariant (Valued _) (fun _ _ _ _ hd hstep => hd.addInit hstep)
    hvalued hinits

/-- The first constant that is declared and never given a value. -/
def firstUninitialized? (placed : List Placed) : Option String :=
  ((linesOf placed .vars).filterMap constantName?).find?
    (· ∉ (linesOf placed .inits).filterMap initName?)

theorem firstUninitialized_of_constantValues {d : Draft} {cause : Cause}
    (hdraft : draft segments placed = .ok d) (h : d.constantValues = .error cause) :
    ∃ name, cause = .uninitializedConstant name ∧
      firstUninitialized? placed = some name := by
  have hvalued := valued_of_draft hdraft
  obtain ⟨before, c, after, hconstants, hbefore, herror⟩ := mapM_eq_error h
  have hnone : c.value = none := by
    cases hvalue : c.value with
    | none => rfl
    | some value => simp [hvalue] at herror
  refine ⟨c.name, by simpa [hnone] using herror.symm, ?_⟩
  have hiff := hvalued.isSome_value_iff
  rw [hconstants] at hiff
  rw [firstUninitialized?, List.find?_eq_some_iff_append, ← hvalued.names, hconstants]
  refine ⟨?_, before.map (·.name), after.map (·.name), by simp, ?_⟩
  · have hc := hiff c (by simp)
    simpa [hnone] using hc
  · intro name hname
    obtain ⟨c', hc', rfl⟩ := List.mem_map.mp hname
    obtain ⟨entry, hentry⟩ := hbefore c' hc'
    have hsome : c'.value.isSome := by
      cases hvalue : c'.value with
      | none => simp [hvalue] at hentry
      | some value => rfl
    simpa using (hiff c' (by simp [hc'])).mp hsome

end

/-! ## The line of an error -/

/-- What an error shows of a line: its words, or all of it but the blanks at its ends if
it has no words. -/
def shownLine (raw : List Char) : String :=
  match tokenize raw with
  | .ok tokens => String.intercalate " " (tokens.map Token.text)
  | .error _ => String.ofList (trim raw)

theorem shownLine_of_tokens {raw : List Char} {line : Line}
    (h : tokenize raw = .ok line.tokens) :
    shownLine raw = line.text := by
  rw [shownLine, h, Line.text, Line.words]

/-- The error names a line of the text by its number, and shows it. -/
structure Error.PointsAt (e : Error) (text : List Char) (number : Nat)
    (raw : List Char) : Prop where
  one_le : 1 ≤ number
  le_lineCount : number ≤ lineCount text
  getElem? : (lines text)[number - 1]? = some raw
  place : e.place = some ⟨number, shownLine raw⟩

theorem pointsAt_of_place {e : Error} {text raw : List Char} {k : Nat}
    (hraw : (lines text)[k]? = some raw) (hsome : tokenize raw ≠ .ok [])
    (hplace : e.place = some ⟨k + 1, shownLine raw⟩) :
    e.PointsAt text (k + 1) raw := by
  have hne : raw ≠ [] := by
    rintro rfl
    exact hsome rfl
  exact ⟨Nat.succ_pos k, le_lineCount hraw hne, hraw, hplace⟩

end Load

open Text

/-- A load error without a line names the first constant that has no value.  Every other
one points at a line of the text: a line that cannot be read, a header that stands there
once more, words above all headers, or a line that the reader of its section refuses. -/
theorem load_errors_point_at_their_line {segments : Load.Segments} {text : String}
    {e : Load.Error} (h : load segments text = .error e) :
    (∃ placed name, sections text.toList = .ok placed ∧
      Load.firstUninitialized? placed = some name ∧
        e = ⟨.uninitializedConstant name, none⟩) ∨
    ∃ number raw, e.PointsAt text.toList number raw ∧
      ((∃ c, e.cause = .unrecognized c ∧ tokenize raw = .error c) ∨
        (∃ header, e.cause = .duplicateSection header ∧
          tokenize raw = .ok [.header header]) ∨
        (∃ first more, e.cause = .outsideSection ∧ tokenize raw = .ok (first :: more)) ∨
        ∃ placed header line, sections text.toList = .ok placed ∧
          tokenize raw = .ok line.tokens ∧ (∀ other, line.tokens ≠ [.header other]) ∧
          Below (lines text.toList) (number - 1) header ∧ e.cause.RaisedIn header ∧
          Load.Refuses segments placed header line e.cause ∧
          ∀ name, e.cause = .undefinedLabel name →
            header = .program ∧ Load.JumpsNowhere placed name line) := by
  rcases bind_eq_error_iff.mp h with hsections | ⟨placed, hplaced, h⟩
  · right
    obtain ⟨k, raw, hraw, hrefused⟩ := unplaceable_of_sections hsections
    refine ⟨k + 1, raw, ?_⟩
    cases hrefused with
    | unrecognized hc =>
        refine ⟨Load.pointsAt_of_place hraw (by simp [hc]) ?_, .inl ⟨_, rfl, hc⟩⟩
        rw [Load.shownLine, hc]
    | duplicate hheader =>
        refine ⟨Load.pointsAt_of_place hraw (by simp [hheader]) ?_,
          .inr (.inl ⟨_, rfl, hheader⟩)⟩
        simp [Load.shownLine, hheader, Token.text]
    | @outside first more htokens =>
        have hshown : Load.shownLine raw = (Line.mk (k + 1) first more).text :=
          Load.shownLine_of_tokens htokens
        refine ⟨Load.pointsAt_of_place hraw (by simp [htokens]) ?_,
          .inr (.inr (.inl ⟨first, more, rfl, htokens⟩))⟩
        rw [hshown, Line.blame, Line.place]
  · rcases Load.refuses_of_interpret h with ⟨d, cause, hdraft, hvalues, rfl⟩ |
      ⟨header, line, cause, rfl, hrefuses⟩
    · obtain ⟨name, rfl, hname⟩ :=
        Load.firstUninitialized_of_constantValues hdraft hvalues
      exact .inl ⟨placed, name, hplaced, hname, rfl⟩
    · right
      obtain ⟨k, raw, hnumber, hstands, hbelow⟩ :=
        standsAt_of_sections hplaced (mem_linesOf_iff.mp hrefuses.mem)
      refine ⟨k + 1, raw, Load.pointsAt_of_place hstands.getElem? ?_ ?_,
        .inr (.inr (.inr ?_))⟩
      · simp [hstands.tokenize_raw, Line.tokens]
      · rw [Load.shownLine_of_tokens hstands.tokenize_raw, Line.blame,
          Line.place, hnumber]
      · refine ⟨placed, header, line, hplaced, hstands.tokenize_raw,
          hstands.not_header, hbelow, hrefuses.raisedIn, hrefuses, ?_⟩
        rintro name rfl
        exact hrefuses.jumpsNowhere

theorem load_errors_point_at_their_line_undefined_label :
    load .none "# far\n__PROGRAM\n\n  J\tout # no\n$in\n" =
        .error ⟨.undefinedLabel "out", some ⟨4, "J out"⟩⟩ ∧
      Below (lines "# far\n__PROGRAM\n\n  J\tout # no\n$in\n".toList) 3 .program ∧
      Load.shownLine "  J\tout # no".toList = "J out" := by
  have hload : load .none "# far\n__PROGRAM\n\n  J\tout # no\n$in\n" =
      .error ⟨.undefinedLabel "out", some ⟨4, "J out"⟩⟩ := by decide +kernel
  rcases load_errors_point_at_their_line hload with ⟨_, _, _, _, hcause⟩ |
    ⟨number, raw, hpoints, ⟨_, hcause, _⟩ | ⟨_, hcause, _⟩ | ⟨_, _, hcause, _⟩ |
      ⟨_, header, _, _, _, _, hbelow, _, _, hlabel⟩⟩
  · simp at hcause
  · simp at hcause
  · simp at hcause
  · simp at hcause
  · obtain rfl : 4 = number := by simpa using congrArg (·.map (·.number)) hpoints.place
    obtain ⟨rfl, _⟩ := hlabel "out" rfl
    exact ⟨hload, hbelow, by decide +kernel⟩

end CyclicStack
