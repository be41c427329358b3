import CyclicStack.Load
import CyclicStack.Proofs.Text.Section

/-!
# Interpretation reads tokens

The sections of a text are interpreted by the tokens of their lines.  The number of a
line is never looked at: it is only handed on, by an error at that line.  So two texts
whose sections hold the same tokens, line by line, load alike, whatever the numbers of
the lines.
-/

namespace CyclicStack

namespace Load

open Text

/-- Two errors with the same cause, either at no line or at lines of one section that
are related. -/
inductive BlamesRelated (R : Header → Line → Line → Prop) : Error → Error → Prop where
  | unplaced (cause : Cause) : BlamesRelated R ⟨cause, none⟩ ⟨cause, none⟩
  | placed {header : Header} {line line' : Line} (h : R header line line')
      (cause : Cause) :
      BlamesRelated R (line.blame cause) (line'.blame cause)

/-- Listings of the same statements, read from related lines. -/
structure Listing.Related (R : Line → Line → Prop) (l l' : Listing) : Prop where
  labels : l.labels = l'.labels
  statements : List.Forall₂ (fun s s' => R s.1 s'.1 ∧
    s.2 = s'.2) l.statements.toList l'.statements.toList

section

variable {R : Header → Line → Line → Prop}

theorem eachLine_alike {σ : Type} {V : σ → σ → Prop} {f : σ → Line → Except Cause σ}
    {header : Header}
    (hf : ∀ s s' line line', V s s' → R header line line' →
      Alike V Eq (f s line) (f s' line'))
    {lines lines' : List Line} (hlines : List.Forall₂ (R header) lines lines')
    {s s' : σ} (hs : V s s') :
    Alike V (BlamesRelated R) (eachLine f s lines) (eachLine f s' lines') := by
  apply Alike.foldlM (R := R header) _ hlines hs
  intro t t' line line' ht hline
  apply (hf t t' line line' ht hline).mapError
  rintro cause _ rfl
  exact .placed hline cause

/-- A reader of single lines that looks at their words only. -/
theorem eachLine_alike_of_words {σ : Type} {f : σ → Line → Except Cause σ}
    {header : Header} (hR : ∀ line line', R header line line' → line.SameTokens line')
    (hf : ∀ s line line', line.words = line'.words → f s line = f s line')
    {lines lines' : List Line} (hlines : List.Forall₂ (R header) lines lines') (s : σ) :
    Alike Eq (BlamesRelated R) (eachLine f s lines) (eachLine f s lines') := by
  apply eachLine_alike _ hlines rfl
  rintro t _ line line' rfl hline
  rw [hf t line line' (hR line line' hline).words]
  exact .refl _

theorem add_alike {Q : Line → Line → Prop}
    (hQ : ∀ line line', Q line line' → line.SameTokens line') (names : Names)
    {l l' : Listing} {line line' : Line} (hl : l.Related Q l') (hline : Q line line') :
    Alike (Listing.Related Q) Eq (l.add names line) (l'.add names line') := by
  have hread : Statement.ofLine names l.labels line =
      Statement.ofLine names l'.labels line' := by
    unfold Statement.ofLine
    rw [hl.labels, (hQ line line' hline).1, (hQ line line' hline).2]
  have hsize : l.statements.size = l'.statements.size := by
    simpa using hl.statements.length_eq
  unfold Listing.add
  rw [hread, hl.labels, hsize]
  refine (Alike.refl _).bind ?_
  rintro statement _ rfl
  have hnew : List.Forall₂ (fun s s' => Q s.1 s'.1 ∧ s.2 = s'.2) [(line, statement)]
      [(line', statement)] := .cons ⟨hline, rfl⟩ .nil
  refine .ok ⟨rfl, ?_⟩
  simpa using List.rel_append hl.statements hnew

theorem link_alike {header : Header} {l l' : Listing} (hl : l.Related (R header) l') :
    Alike Eq (BlamesRelated R) l.link l'.link := by
  unfold Listing.link
  rw [hl.labels]
  refine Alike.bind (V := List.Forall₂ Eq) (Alike.mapM ?_ hl.statements) ?_
  · rintro ⟨line, statement⟩ ⟨line', _⟩ ⟨hline, rfl⟩
    apply (Alike.refl _).mapError
    rintro cause _ rfl
    exact .placed hline cause
  · intro code code' hcode
    rw [List.forall₂_eq_eq_eq] at hcode
    rw [hcode]
    exact .ok rfl

variable {placed placed' : List Placed}

theorem assemble_alike (hR : ∀ header line line', R header line line' →
    line.SameTokens line')
    (hlines : ∀ header,
      List.Forall₂ (R header) (linesOf placed header) (linesOf placed' header))
    (names : Names) :
    Alike Eq (BlamesRelated R) (assemble names (linesOf placed .program))
      (assemble names (linesOf placed' .program)) := by
  have hlist : Alike (Listing.Related (R .program)) (BlamesRelated R)
      (eachLine (Listing.add names) {} (linesOf placed .program))
      (eachLine (Listing.add names) {} (linesOf placed' .program)) := by
    apply eachLine_alike _ (hlines .program) ⟨rfl, .nil⟩
    intro l l' line line' hl hline
    exact add_alike (hR .program) names hl hline
  refine hlist.bind fun l l' hl => (link_alike hl).bind ?_
  rintro code _ rfl
  rw [hl.labels]
  exact .ok rfl

theorem draft_alike (hR : ∀ header line line', R header line line' →
    line.SameTokens line')
    (hlines : ∀ header,
      List.Forall₂ (R header) (linesOf placed header) (linesOf placed' header))
    (segments : Segments) :
    Alike Eq (BlamesRelated R) (draft segments placed) (draft segments placed') := by
  have hpart : ∀ {σ : Type} (f : σ → Line → Except Cause σ) (header : Header),
      (∀ s line line', line.words = line'.words → f s line = f s line') → ∀ s,
      Alike Eq (BlamesRelated R) (eachLine f s (linesOf placed header))
        (eachLine f s (linesOf placed' header)) :=
    fun f header hf s => eachLine_alike_of_words (hR header) hf (hlines header) s
  have hsettings : Alike Eq (BlamesRelated R) (settings (linesOf placed .settings))
      (settings (linesOf placed' .settings)) := by
    refine (hpart addSetting .settings ?_ {}).bind ?_
    · intro s line line' h
      unfold addSetting
      rw [h]
    · rintro d _ rfl
      exact .ok rfl
  refine hsettings.bind ?_
  rintro settings _ rfl
  refine (hpart (Draft.declareMemory segments.refusal) .memory ?_ _).bind ?_
  · intro s line line' h
    unfold Draft.declareMemory
    rw [h]
  rintro d₁ _ rfl
  refine (hpart Draft.declare .vars ?_ d₁).bind ?_
  · intro s line line' h
    unfold Draft.declare
    rw [h]
  rintro d₂ _ rfl
  refine hpart Draft.addInit .inits ?_ d₂
  intro s line line' h
  unfold Draft.addInit
  rw [h]

/-- Sections of the same tokens, line by line, make the same program or fail for the
same cause at related lines. -/
theorem interpret_alike (hR : ∀ header line line', R header line line' →
    line.SameTokens line')
    (hlines : ∀ header,
      List.Forall₂ (R header) (linesOf placed header) (linesOf placed' header))
    (segments : Segments) :
    Alike Eq (BlamesRelated R) (interpret segments placed)
      (interpret segments placed') := by
  refine (draft_alike hR hlines segments).bind ?_
  rintro d _ rfl
  have hconstants : Alike Eq (BlamesRelated R)
      (d.constantValues.mapError fun cause => ({ cause } : Error))
      (d.constantValues.mapError fun cause => ({ cause } : Error)) := by
    apply (Alike.refl _).mapError
    rintro cause _ rfl
    exact .unplaced cause
  refine hconstants.bind ?_
  rintro constants _ rfl
  refine (assemble_alike hR hlines _).bind ?_
  rintro ⟨code, labels⟩ _ rfl
  exact .ok rfl

end

end Load

end CyclicStack
