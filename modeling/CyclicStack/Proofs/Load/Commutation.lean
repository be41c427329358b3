import CyclicStack.Proofs.Load.Assembly
import CyclicStack.Proofs.Memory.Mirror
import CyclicStack.Proofs.Text.Rearrangement

/-!
# Initial values and settings in any order

Two lines that give initial values are about different names, and two settings have
different keys, or the second one would have been refused.  So neighbouring lines can be
exchanged, and with them all lines of the two sections can be put in any order: the text
loads as the same program.
-/

namespace CyclicStack

namespace Load

open Text

/-! ## Lines that can be read in any order -/

/-- The lines read by `f` commute up to a relation of what has been read. -/
structure Commutes {σ : Type} (R : σ → σ → Prop) (f : σ → Line → Except Cause σ) :
    Prop where
  refl : ∀ s, R s s
  trans : ∀ {s t u}, R s t → R t u → R s u
  keep : ∀ {s t s' line}, R s t → f s line = .ok s' → ∃ t', f t line = .ok t' ∧ R s' t'
  swap : ∀ {s t u line next}, f s line = .ok t → f t next = .ok u →
    ∃ t' u', f s next = .ok t' ∧ f t' line = .ok u' ∧ R u u'

section

variable {σ : Type} {R : σ → σ → Prop} {f : σ → Line → Except Cause σ} {s s' t : σ}
  {lines lines' : List Line}

theorem Commutes.eachLine_keep (hf : Commutes R f) (hst : R s t)
    (h : eachLine f s lines = .ok s') :
    ∃ t', eachLine f t lines = .ok t' ∧ R s' t' := by
  induction lines generalizing s t with
  | nil =>
      obtain rfl : s = s' := Except.ok.inj h
      exact ⟨t, rfl, hst⟩
  | cons line rest ih =>
      obtain ⟨next, hnext, h⟩ := eachLine_cons_eq_ok_iff.mp h
      obtain ⟨next', hnext', hrelated⟩ := hf.keep hst hnext
      obtain ⟨t', ht', hend⟩ := ih hrelated h
      exact ⟨t', eachLine_cons_eq_ok_iff.mpr ⟨next', hnext', ht'⟩, hend⟩

/-- Lines that commute can be read in any order. -/
theorem Commutes.eachLine_perm (hf : Commutes R f) (hperm : lines.Perm lines')
    (h : eachLine f s lines = .ok s') :
    ∃ t', eachLine f s lines' = .ok t' ∧ R s' t' := by
  induction hperm generalizing s s' with
  | nil => exact ⟨s', h, hf.refl s'⟩
  | cons line _ ih =>
      obtain ⟨next, hnext, h⟩ := eachLine_cons_eq_ok_iff.mp h
      obtain ⟨t', ht', hend⟩ := ih h
      exact ⟨t', eachLine_cons_eq_ok_iff.mpr ⟨next, hnext, ht'⟩, hend⟩
  | swap line next rest =>
      obtain ⟨t, ht, h⟩ := eachLine_cons_eq_ok_iff.mp h
      obtain ⟨u, hu, h⟩ := eachLine_cons_eq_ok_iff.mp h
      -- The two orders lead to related states only, so the rest of the lines is read
      -- from the related one.
      obtain ⟨t₁, u₁, ht₁, hu₁, hrelated⟩ := hf.swap ht hu
      obtain ⟨t', ht', hend⟩ := hf.eachLine_keep hrelated h
      refine ⟨t', eachLine_cons_eq_ok_iff.mpr ⟨t₁, ht₁, ?_⟩, hend⟩
      exact eachLine_cons_eq_ok_iff.mpr ⟨u₁, hu₁, ht'⟩
  | trans _ _ ih ih' =>
      obtain ⟨t₁, ht₁, hfirst⟩ := ih h
      obtain ⟨t₂, ht₂, hsecond⟩ := ih' ht₁
      exact ⟨t₂, ht₂, hf.trans hfirst hsecond⟩

theorem eachLine_relocate (π : Equiv.Perm Nat)
    (hwords : ∀ s line line', line.words = line'.words → f s line = f s line')
    (h : eachLine f s lines = .ok s') :
    eachLine f s (lines.map (·.relocate π)) = .ok s' := by
  induction lines generalizing s with
  | nil => exact h
  | cons line rest ih =>
      obtain ⟨next, hnext, h⟩ := eachLine_cons_eq_ok_iff.mp h
      have hnext' : f s (line.relocate π) = .ok next := by
        rw [hwords s (line.relocate π) line rfl, hnext]
      exact eachLine_cons_eq_ok_iff.mpr ⟨next, hnext', ih h⟩

end

/-! ## Initial values -/

namespace Draft

variable {d d₁ d₂ : Draft} {name other literal literal' : String} {value value' : Word}

theorem constant?_setConstant :
    (d.setConstant name value).constant? other =
      (d.constant? other).map fun c => if c.name = name then
      { c with value := some value } else c := by
  unfold constant? setConstant
  rw [List.find?_map]
  congr 1
  apply List.find?_congr
  intro c _
  rw [Function.comp_apply]
  split_ifs
  · rfl
  · rfl

theorem constant?_setConstant_of_ne (h : other ≠ name) :
    (d.setConstant name value).constant? other = d.constant? other := by
  rw [constant?_setConstant]
  cases hc : d.constant? other with
  | none => rfl
  | some c => rw [Option.map_some, if_neg (name_of_constant? hc ▸ h)]

theorem setConstant_comm (h : other ≠ name) :
    (d.setConstant name value).setConstant other value' =
      (d.setConstant other value').setConstant name value := by
  simp only [setConstant, List.map_map, Draft.mk.injEq, true_and]
  apply List.map_congr_left
  intro c _
  simp only [Function.comp_apply]
  split_ifs with hname hother hother
  · exact absurd (hother.symm.trans hname) h
  · simp [hname]
  · simp [hother]
  · rfl

theorem variableId?_setInit (id : Nat) :
    (d.setInit id value).program.variableId? name = d.program.variableId? name := by
  have hnames := congrArg (·.findIdx? (· == name)) (names_setInit d id value)
  simp only [Array.findIdx?_map] at hnames
  exact hnames

theorem getElem?_setInit_of_ne {id id' : Nat} (h : id' ≠ id) :
    (d.setInit id value).program.vars[id']? = d.program.vars[id']? := by
  rw [setInit, Array.getElem?_modify, if_neg h.symm]

theorem setInit_comm {id id' : Nat} (h : id' ≠ id) :
    (d.setInit id value).setInit id' value' =
    (d.setInit id' value').setInit id value := by
  unfold setInit
  rw [modify_comm _ h]

/-- The second of two lines with initial values is about another name than the first, so
that it can as well come before it. -/
theorem Initializes.swap (h : d.Initializes name literal d₁)
    (h' : d₁.Initializes other literal' d₂) :
    ∃ d₁', d.Initializes other literal' d₁' ∧ d₁'.Initializes name literal d₂ := by
  cases h with
  | @constant c value hc hnew hread =>
      cases h' with
      | @constant c' value' hc' hnew' hread' =>
          -- Under the same name the second line would have found the value of the
          -- first.
          have hne : other ≠ name := by
            rintro rfl
            rw [constant?_setConstant, hc, Option.map_some,
              if_pos (name_of_constant? hc)] at hc'
            obtain rfl := Option.some.inj hc'
            cases hnew'
          rw [constant?_setConstant_of_ne hne] at hc'
          refine ⟨_, .constant hc' hnew' hread', ?_⟩
          rw [setConstant_comm hne]
          rw [← constant?_setConstant_of_ne hne.symm] at hc
          exact .constant hc hnew hread
      | @var id' v' value' hconstant' hid' hv' hnew' hread' =>
          -- A constant and a variable are in different parts of the draft.
          rw [constant?_setConstant, Option.map_eq_none_iff] at hconstant'
          exact ⟨_, .var hconstant' hid' hv' hnew' hread', .constant hc hnew hread⟩
  | @var id v value hconstant hid hv hnew hread =>
      cases h' with
      | @constant c' value' hc' hnew' hread' =>
          refine ⟨_, .constant hc' hnew' hread', .var ?_ hid hv hnew hread⟩
          rw [constant?_setConstant, hconstant, Option.map_none]
      | @var id' v' value' hconstant' hid' hv' hnew' hread' =>
          have hne : id' ≠ id := by
            rintro rfl
            rw [setInit, Array.getElem?_modify, if_pos rfl, hv, Option.map_some] at hv'
            obtain rfl := Option.some.inj hv'
            cases hnew'
          rw [getElem?_setInit_of_ne hne] at hv'
          rw [variableId?_setInit] at hid'
          refine ⟨_, .var hconstant' hid' hv' hnew' hread', ?_⟩
          rw [setInit_comm hne]
          rw [← getElem?_setInit_of_ne hne.symm] at hv
          rw [← variableId?_setInit id'] at hid
          exact .var hconstant hid hv hnew hread

theorem addInit_commutes : Commutes Eq addInit where
  refl _ := rfl
  trans := Eq.trans
  keep := by
    rintro s _ s' line rfl h
    exact ⟨s', h, rfl⟩
  swap := by
    intro s t u line next h h'
    obtain ⟨name, literal, hwords, hinit⟩ := addInit_eq_ok_iff.mp h
    obtain ⟨other, literal', hwords', hinit'⟩ := addInit_eq_ok_iff.mp h'
    obtain ⟨t', ht', hu⟩ := hinit.swap hinit'
    exact ⟨t', u, addInit_eq_ok_iff.mpr ⟨other, literal', hwords', ht'⟩,
      addInit_eq_ok_iff.mpr ⟨name, literal, hwords, hu⟩, rfl⟩

theorem addInit_congr (s : Draft) (line line' : Line) (h : line.words = line'.words) :
    s.addInit line = s.addInit line' := by
  unfold addInit
  rw [h]

end Draft

/-! ## Settings -/

def assign? (s : Settings) (key : String) (n : Nat) : Option Settings :=
  if key = "CYCLE_MS" then some { s with cycleMs := n }
  else if key = "CYCLES" then some { s with cycles := n }
  else none

theorem addSetting_eq_ok_iff {d d' : SettingsDraft} {line : Line} :
    addSetting d line = .ok d' ↔
      ∃ key literal n s, line.words = [key, literal] ∧ key ∉ d.seen ∧
        unsigned literal = .ok n ∧
        assign? d.settings key n = some s ∧ d' = ⟨s, key :: d.seen⟩ := by
  constructor
  · intro h
    unfold addSetting at h
    split at h
    · next key literal hwords =>
      split_ifs at h with hseen hms hcycles
      · obtain ⟨n, hn, h⟩ := bind_eq_ok_iff.mp h
        obtain rfl := Except.ok.inj h
        exact ⟨key, literal, n, _, hwords, hseen, hn, if_pos hms, rfl⟩
      · obtain ⟨n, hn, h⟩ := bind_eq_ok_iff.mp h
        obtain rfl := Except.ok.inj h
        exact ⟨key, literal, n, _, hwords, hseen, hn,
          (if_neg hms).trans (if_pos hcycles), rfl⟩
    · cases h
  · rintro ⟨key, literal, n, s, hwords, hseen, hn, hassign, rfl⟩
    unfold assign? at hassign
    simp only [addSetting, hwords, if_neg hseen, hn]
    split_ifs at hassign ⊢
    · cases hassign
      rfl
    · cases hassign
      rfl

theorem assign?_swap {s s₁ s₂ : Settings} {key other : String} {n n' : Nat}
    (hne : other ≠ key) (h : assign? s key n = some s₁)
    (h' : assign? s₁ other n' = some s₂) :
    ∃ s₁', assign? s other n' = some s₁' ∧ assign? s₁' key n = some s₂ := by
  unfold assign? at *
  split_ifs at h h' with hkey hother hother' hkey' hother hother'
  · exact absurd (hother.trans hkey.symm) hne
  · cases h
    cases h'
    exact ⟨{ s with cycles := n' }, by simp [hother'], by simp [hkey]⟩
  · cases h
    cases h'
    exact ⟨{ s with cycleMs := n' }, by simp [hother], by simp [hkey']⟩
  · exact absurd (hother'.trans hkey'.symm) hne

/-- The same settings, with the keys in any order. -/
def SettingsDraft.Same (d d' : SettingsDraft) : Prop :=
  d.settings = d'.settings ∧ d.seen.Perm d'.seen

theorem addSetting_commutes : Commutes SettingsDraft.Same addSetting where
  refl _ := ⟨rfl, .refl _⟩
  trans := by
    rintro _ _ _ ⟨hsettings, hseen⟩ ⟨hsettings', hseen'⟩
    exact ⟨hsettings.trans hsettings', hseen.trans hseen'⟩
  keep := by
    rintro s t s' line ⟨hsettings, hseen⟩ h
    obtain ⟨key, literal, n, settings, hwords, hkey, hn, hassign, rfl⟩ :=
      addSetting_eq_ok_iff.mp h
    refine ⟨⟨settings, key :: t.seen⟩, addSetting_eq_ok_iff.mpr ?_, rfl, hseen.cons key⟩
    exact ⟨key, literal, n, settings, hwords, hseen.mem_iff.not.mp hkey, hn,
      hsettings ▸ hassign, rfl⟩
  swap := by
    intro s t u line next h h'
    obtain ⟨key, literal, n, settings, hwords, hkey, hn, hassign, rfl⟩ :=
      addSetting_eq_ok_iff.mp h
    obtain ⟨other, literal', n', settings', hwords', hother, hn', hassign', rfl⟩ :=
      addSetting_eq_ok_iff.mp h'
    rw [List.mem_cons, not_or] at hother
    obtain ⟨first, hfirst, hsecond⟩ := assign?_swap hother.1 hassign hassign'
    refine ⟨⟨first, other :: s.seen⟩, ⟨settings', key :: other :: s.seen⟩, ?_, ?_, rfl,
      .swap _ _ _⟩
    · exact addSetting_eq_ok_iff.mpr ⟨other, literal', n', first, hwords', hother.2,
        hn', hfirst, rfl⟩
    · refine addSetting_eq_ok_iff.mpr ⟨key, literal, n, settings', hwords, ?_, hn,
        hsecond, rfl⟩
      exact List.not_mem_cons_of_ne_of_not_mem (Ne.symm hother.1) hkey

theorem addSetting_congr (s : SettingsDraft) (line line' : Line)
    (h : line.words = line'.words) :
    addSetting s line = addSetting s line' := by
  unfold addSetting
  rw [h]

/-! ## Whole programs -/

/-- Lines with initial values and settings in any order lead to the same draft. -/
theorem draft_of_rearranges {segments : Segments} {text text' : List Char}
    {π : Equiv.Perm Nat} {placed placed' : List Placed} {d : Draft}
    (hplaced : sections text = .ok placed) (hplaced' : sections text' = .ok placed')
    (hlines : Rearranges [.settings, .inits] π (lines text) (lines text'))
    (h : draft segments placed = .ok d) :
    draft segments placed' = .ok d := by
  have hperm := hlines.perm_linesOf hplaced hplaced'
  obtain ⟨settings, hsettings, h⟩ := bind_eq_ok_iff.mp h
  obtain ⟨read, hread, hsettings⟩ := bind_eq_ok_iff.mp hsettings
  obtain rfl := Except.ok.inj hsettings
  obtain ⟨d₁, hmemory, h⟩ := bind_eq_ok_iff.mp h
  obtain ⟨d₂, hvars, hinits⟩ := bind_eq_ok_iff.mp h
  obtain ⟨read', hread', hsame, _⟩ :=
    addSetting_commutes.eachLine_perm (hperm .settings)
      (eachLine_relocate π addSetting_congr hread)
  obtain ⟨_, hinits', rfl⟩ :=
    Draft.addInit_commutes.eachLine_perm (hperm .inits)
      (eachLine_relocate π Draft.addInit_congr hinits)
  rw [hsame] at hmemory
  rw [← hlines.linesOf_eq hplaced hplaced' (by decide)] at hmemory hvars
  have hsettings' : Load.settings (linesOf placed' .settings) = .ok read'.settings :=
    bind_eq_ok_iff.mpr ⟨read', hread', rfl⟩
  exact bind_eq_ok_iff.mpr ⟨_, hsettings', bind_eq_ok_iff.mpr ⟨d₁, hmemory,
    bind_eq_ok_iff.mpr ⟨d₂, hvars, hinits'⟩⟩⟩

end Load

open Text in
/-- The lines of the initial values, and those of the settings, may be put in any order
among themselves. -/
theorem inits_and_settings_in_any_order {segments : Load.Segments} {text text' : String}
    {π : Equiv.Perm Nat} {program : Program} (hload : load segments text = .ok program)
    (hlines : Rearranges [.settings, .inits] π (lines text.toList)
      (lines text'.toList)) :
    load segments text' = .ok program := by
  obtain ⟨placed, hplaced, hinterpret⟩ := bind_eq_ok_iff.mp hload
  obtain ⟨placed', hplaced'⟩ := hlines.exists_sections hplaced
  obtain ⟨d, hdraft, hprogram⟩ := bind_eq_ok_iff.mp hinterpret
  have hdraft' := Load.draft_of_rearranges hplaced hplaced' hlines hdraft
  rw [← hlines.linesOf_eq hplaced hplaced' (by decide)] at hprogram
  exact bind_eq_ok_iff.mpr ⟨placed', hplaced',
    bind_eq_ok_iff.mpr ⟨d, hdraft', hprogram⟩⟩

open Text in
theorem inits_and_settings_in_any_order_exchanged :
    let text :=
      "__SETTINGS\nCYCLES 3\nCYCLE_MS 20\n__MEM\nlocal m 2\n__VAR\nm@0 le64 x\n" ++
      "const u c\n__INIT\nc 1\n# above\nx 7\n__PROGRAM\nPUSH c\nPOP x\n"
    let text' :=
      "__SETTINGS\nCYCLE_MS 20\nCYCLES 3\n__MEM\nlocal m 2\n__VAR\nm@0 le64 x\n" ++
      "const u c\n__INIT\n# above\nx 7\nc 1\n__PROGRAM\nPUSH c\nPOP x\n"
    let program : Program :=
      { settings := { cycleMs := 20, cycles := 3 }
        memory := { regions := #[⟨"m", .owned { cells := 2 }⟩] }
        vars := #[{ name := "x", region := 0, encoding := .le64, cell := 0,
                    init := some 7 }]
        code := #[.pushConst 1, .popVar 0, .halt] }
    load .none text = .ok program ∧ load .none text' = .ok program := by
  intro text text' program
  let settings : Block :=
    ⟨.settings, "__SETTINGS".toList, ["CYCLES 3".toList, "CYCLE_MS 20".toList],
     rfl, by decide⟩
  let inits : Block :=
    ⟨.inits, "__INIT".toList, ["c 1".toList, "# above".toList, "x 7".toList],
     rfl, by decide⟩
  let middle := ["__MEM".toList, "local m 2".toList, "__VAR".toList,
    "m@0 le64 x".toList, "const u c".toList]
  let last := ["__PROGRAM".toList, "PUSH c".toList, "POP x".toList, []]
  have hload : load .none text = .ok program := by decide +kernel
  have hfirst : settings.body.Perm ["CYCLE_MS 20".toList, "CYCLES 3".toList] := by
    decide
  have hsecond : inits.body.Perm ["# above".toList, "x 7".toList, "c 1".toList] := by
    decide
  obtain ⟨σ, hσ⟩ :=
    @Block.exists_rearranges [.settings, .inits] settings (by decide) _ hfirst []
      (middle ++ [inits.opening] ++ (inits.body ++ last))
  obtain ⟨τ, hτ⟩ :=
    @Block.exists_rearranges [.settings, .inits] inits (by decide) _ hsecond
      (settings.opening :: ["CYCLE_MS 20".toList, "CYCLES 3".toList] ++ middle) last
  have htext : lines text.toList = [] ++ [settings.opening] ++ (settings.body ++
      (middle ++ [inits.opening] ++ (inits.body ++ last))) := by decide +kernel
  have htext' : lines text'.toList =
      settings.opening :: ["CYCLE_MS 20".toList, "CYCLES 3".toList] ++ middle ++
        [inits.opening] ++ (["# above".toList, "x 7".toList, "c 1".toList] ++ last) := by
    decide +kernel
  have hlines : Rearranges [.settings, .inits] (τ * σ) (lines text.toList)
      (lines text'.toList) := by
    rw [htext, htext']
    exact hσ.trans hτ
  exact ⟨hload, inits_and_settings_in_any_order hload hlines⟩

end CyclicStack
