import CyclicStack.Load
import CyclicStack.Proofs.Memory.Access

/-!
# Drafts

What one line of the memory, variable or initial value section can do to a draft, and
what therefore holds of every draft that the sections in front of the program lead to:
no name is declared twice, none is reserved, and every variable fits the memory.
-/

namespace CyclicStack

namespace Load

namespace Draft

def declared (d : Draft) : List String :=
  d.constants.map (·.name) ++ d.program.vars.toList.map (·.name)

/-! ## What one line does -/

theorem checkNewName_eq_ok_iff {d : Draft} {name : String} :
    d.checkNewName name = .ok () ↔ isReserved name = false ∧ name ∉ d.declared := by
  have hconstant : (d.constant? name).isSome ↔ name ∈ d.constants.map (·.name) := by
    simp [constant?, List.find?_isSome]
  have hvariable : (d.program.variableId? name).isSome ↔
      name ∈ d.program.vars.toList.map (·.name) := by
    simp [Program.variableId?, Array.findIdx?_isSome, Array.mem_iff_getElem]
  unfold checkNewName declared
  rw [List.mem_append, not_or, ← hconstant, ← hvariable]
  split_ifs <;> simp_all

theorem declareMemory_cases {refusal : Refusal} {d d' : Draft} {line : Text.Line}
    (h : d.declareMemory refusal line = .ok d') :
    ∃ name storage, d.program.memory.regionIndex? name = none ∧
      d' = d.addRegion name storage := by
  have hnew : ∀ name, d.checkNewRegion name = .ok () →
      d.program.memory.regionIndex? name = none := by
    intro name hcheck
    unfold checkNewRegion at hcheck
    split_ifs at hcheck with hsome
    simpa using hsome
  unfold declareMemory at h
  split at h
  · obtain ⟨_, hcheck, h⟩ := bind_eq_ok_iff.mp h
    obtain ⟨cells, _, h⟩ := bind_eq_ok_iff.mp h
    split at h
    · cases h
      exact ⟨_, _, hnew _ hcheck, rfl⟩
    · cases h
  · obtain ⟨_, hcheck, h⟩ := bind_eq_ok_iff.mp h
    obtain ⟨cellSize, _, h⟩ := bind_eq_ok_iff.mp h
    obtain ⟨_, _, h⟩ := bind_eq_ok_iff.mp h
    split at h
    · cases h
      exact ⟨_, _, hnew _ hcheck, rfl⟩
    · cases h
  · split_ifs at h
  · cases h

theorem checkAccess_of_sharedEncoding {cellSize : Nat} {address tag : String}
    {sub : Option Nat} {e : Encoding}
    (h : sharedEncoding cellSize address tag sub = .ok e) :
    Cell.checkAccess cellSize e (sub.getD 0) = .ok () := by
  obtain ⟨e', _, h⟩ := bind_eq_ok_iff.mp h
  split_ifs at h
  obtain ⟨_, haccess, h⟩ := bind_eq_ok_iff.mp h
  cases h
  exact mapError_eq_ok_iff.mp haccess

theorem sub_eq_none_of_ownedEncoding {address tag : String} {sub : Option Nat}
    {e : Encoding} (h : ownedEncoding address tag sub = .ok e) :
    sub = none := by
  unfold ownedEncoding at h
  split_ifs at h with hsub
  simpa using hsub

/-- The field that an address describes fits the memory. -/
theorem fits_of_locate {d : Draft} {address tag name : String} {v : Variable}
    (h : d.locate address tag name = .ok v) :
    v.name = name ∧ v.init = none ∧ d.program.memory.Fits v := by
  unfold locate at h
  split at h
  · next parts _ =>
    dsimp only at h
    split at h
    · next region hregion =>
      obtain ⟨cell, _, h⟩ := bind_eq_ok_iff.mp h
      obtain ⟨subIndex, _, h⟩ := bind_eq_ok_iff.mp h
      obtain ⟨encoding, hencoding, h⟩ := bind_eq_ok_iff.mp h
      cases h
      refine ⟨rfl, rfl, ?_⟩
      obtain ⟨hlt, _⟩ := Array.findIdx?_eq_some_iff_getElem.mp hregion
      have hexists := Array.getElem?_eq_getElem hlt
      generalize d.program.memory.regions[region] = r at hexists
      obtain ⟨regionName, storage⟩ := r
      unfold encodingAt at hencoding
      unfold Memory.Fits
      cases storage with
      | owned words =>
          simp only [hexists] at hencoding ⊢
          exact sub_eq_none_of_ownedEncoding hencoding
      | shared segment cellSize =>
          simp only [hexists] at hencoding ⊢
          exact checkAccess_of_sharedEncoding hencoding
    · cases h
  · cases h

theorem declare_cases {d d' : Draft} {line : Text.Line} (h : d.declare line = .ok d') :
    (∃ name domain, isReserved name = false ∧ name ∉ d.declared ∧
      d' = { d with constants := d.constants ++ [{ name, domain }] }) ∨
    ∃ v, isReserved v.name = false ∧ v.name ∉ d.declared ∧ v.init = none ∧
      d.program.memory.Fits v ∧ d' = { d with program := d.program.addVariable v } := by
  unfold declare at h
  split at h
  · split_ifs at h
    · left
      unfold declareConstant at h
      split at h
      · obtain ⟨_, hname, h⟩ := bind_eq_ok_iff.mp h
        obtain ⟨hreserved, hfresh⟩ := checkNewName_eq_ok_iff.mp hname
        cases h
        exact ⟨_, _, hreserved, hfresh, rfl⟩
      · cases h
    · right
      obtain ⟨v, hlocate, h⟩ := bind_eq_ok_iff.mp h
      obtain ⟨_, hname, h⟩ := bind_eq_ok_iff.mp h
      cases h
      obtain ⟨rfl, hinit, hfits⟩ := fits_of_locate hlocate
      obtain ⟨hreserved, hfresh⟩ := checkNewName_eq_ok_iff.mp hname
      exact ⟨v, hreserved, hfresh, hinit, hfits, rfl⟩
  · cases h

def setInit (d : Draft) (id : Nat) (value : Word) : Draft :=
  { d with
    program := { d.program with
      vars := d.program.vars.modify id ({ · with init := some value }) } }

/-- What a line of the initial values does: the name is that of a constant or else of a
variable, which has no value so far and gets the one that the literal stands for. -/
inductive Initializes (d : Draft) (name literal : String) : Draft → Prop
  | constant {c : Constant} {value : Word} (hc : d.constant? name = some c)
      (hnew : c.value = none)
      (hread : c.domain.read? literal.toList = some value) :
      Initializes d name literal (d.setConstant name value)
  | var {id : Nat} {v : Variable} {value : Word} (hconstant : d.constant? name = none)
      (hid : d.program.variableId? name = some id) (hv : d.program.vars[id]? = some v)
      (hnew : v.init = none) (hread : Text.variableValue? literal.toList = some value) :
      Initializes d name literal (d.setInit id value)

theorem name_of_constant? {d : Draft} {name : String} {c : Constant}
    (h : d.constant? name = some c) :
    c.name = name := by
  simpa using List.find?_some h

theorem setIfInBounds_eq_modify {α : Type} {items : Array α} {id : Nat} {a : α}
    (h : items[id]? = some a) (f : α → α) :
    items.setIfInBounds id (f a) = items.modify id f := by
  apply Array.ext_getElem?
  intro k
  rw [Array.getElem?_setIfInBounds, Array.getElem?_modify]
  split_ifs with hk hlt
  · rw [← hk, h, Option.map_some]
  · rw [← hk, Array.getElem?_eq_none (Nat.not_lt.mp (hk ▸ hlt)), Option.map_none]
  · rfl

theorem addInit_eq_ok_iff {d d' : Draft} {line : Text.Line} :
    d.addInit line = .ok d' ↔
      ∃ name literal, line.words = [name, literal] ∧ d.Initializes name literal d' := by
  constructor
  · intro h
    unfold addInit at h
    split at h
    · next name literal hwords =>
      refine ⟨name, literal, hwords, ?_⟩
      split at h
      · next c hc =>
        unfold initConstant at h
        split_ifs at h with hvalue
        split at h
        · next value hread =>
          obtain rfl := Except.ok.inj h
          rw [name_of_constant? hc]
          exact .constant hc (by simpa using hvalue) hread
        · simp at h
      · next hconstant =>
        unfold initVariable at h
        split at h
        · next id hid =>
          split at h
          · next value hread =>
            split at h
            · next v hv =>
              split_ifs at h with hinit
              · simp [throw, throwThe, MonadExceptOf.throw] at h
              · obtain rfl := Except.ok.inj h
                rw [setIfInBounds_eq_modify hv ({ · with init := some value })]
                exact .var hconstant hid hv (by simpa using hinit) hread
            · simp at h
          · simp at h
        · simp at h
    · simp at h
  · rintro ⟨name, literal, hwords, hinit⟩
    rw [addInit, hwords]
    cases hinit with
    | constant hc hnew hread =>
        simp only [hc, initConstant, hnew, hread, name_of_constant? hc]
        rfl
    | @var id v value hconstant hid hv hnew hread =>
        simp only [hconstant, initVariable, hid, hread, hv, hnew, setInit,
          ← setIfInBounds_eq_modify hv ({ · with init := some value })]
        rfl

theorem mem_vars_setInit {d : Draft} {id : Nat} {value : Word} {w : Variable}
    (h : w ∈ (d.setInit id value).program.vars) :
    ∃ v ∈ d.program.vars, w = v ∨ w = { v with init := some value } := by
  obtain ⟨k, hk⟩ := Array.mem_iff_getElem?.mp h
  rw [setInit, Array.getElem?_modify] at hk
  split_ifs at hk
  · obtain ⟨v, hv, rfl⟩ := Option.map_eq_some_iff.mp hk
    exact ⟨v, Array.mem_of_getElem? hv, .inr rfl⟩
  · exact ⟨w, Array.mem_of_getElem? hk, .inl rfl⟩

/-! ## What holds of every draft -/

/-- Names are declared once and never reserved, and the variables fit the memory. -/
structure Sound (d : Draft) : Prop where
  nodup : d.declared.Nodup
  not_reserved : ∀ name ∈ d.declared, isReserved name = false
  fits : ∀ v ∈ d.program.vars, d.program.memory.Fits v

theorem Sound.declareMemory {refusal : Refusal} {d d' : Draft} {line : Text.Line}
    (hd : d.Sound) (h : d.declareMemory refusal line = .ok d') :
    d'.Sound := by
  obtain ⟨name, storage, _, rfl⟩ := declareMemory_cases h
  exact ⟨hd.nodup, hd.not_reserved, fun v hv => Memory.fits_push (hd.fits v hv) _⟩

theorem Sound.declare {d d' : Draft} {line : Text.Line} (hd : d.Sound)
    (h : d.declare line = .ok d') :
    d'.Sound := by
  rcases declare_cases h with ⟨name, domain, hreserved, hfresh, rfl⟩ |
    ⟨v, hreserved, hfresh, _, hfits, rfl⟩
  · have hperm :
        ({ d with constants := d.constants ++ [{ name, domain }] } : Draft).declared.Perm
          (name :: d.declared) := by
      simp only [declared, List.map_append, List.append_assoc]
      exact List.perm_middle
    refine ⟨hperm.nodup_iff.mpr (List.nodup_cons.mpr ⟨hfresh, hd.nodup⟩), ?_, hd.fits⟩
    intro other hother
    rcases List.mem_cons.mp (hperm.mem_iff.mp hother) with rfl | hold
    · exact hreserved
    · exact hd.not_reserved other hold
  · have hdeclared : ({ d with program := d.program.addVariable v } : Draft).declared =
        d.declared ++ [v.name] := by
      simp [declared, Program.addVariable]
    refine ⟨?_, ?_, ?_⟩
    · rw [hdeclared, List.nodup_append]
      simpa using ⟨hd.nodup, fun other hother heq => hfresh (heq ▸ hother)⟩
    · intro other hother
      rw [hdeclared, List.mem_append, List.mem_singleton] at hother
      rcases hother with hold | rfl
      · exact hd.not_reserved other hold
      · exact hreserved
    · intro w hw
      rcases Array.mem_push.mp hw with hold | rfl
      · exact hd.fits w hold
      · exact hfits

theorem declared_setConstant (d : Draft) (name : String) (value : Word) :
    (d.setConstant name value).declared = d.declared := by
  simp only [declared, setConstant, List.map_map]
  congr 1
  apply List.map_congr_left
  intro other _
  simp only [Function.comp_apply]
  split_ifs <;> rfl

theorem names_setInit (d : Draft) (id : Nat) (value : Word) :
    (d.setInit id value).program.vars.map (·.name) = d.program.vars.map (·.name) := by
  apply Array.ext_getElem?
  intro k
  simp only [setInit, Array.getElem?_map, Array.getElem?_modify]
  split_ifs
  · rw [Option.map_map]
    rfl
  · rfl

theorem declared_setInit (d : Draft) (id : Nat) (value : Word) :
    (d.setInit id value).declared = d.declared := by
  simp only [declared, ← Array.toList_map, names_setInit]
  rfl

theorem declared_of_addInit {d d' : Draft} {line : Text.Line}
    (h : d.addInit line = .ok d') :
    d'.declared = d.declared := by
  obtain ⟨name, literal, _, hinit⟩ := addInit_eq_ok_iff.mp h
  cases hinit with
  | constant => exact declared_setConstant d name _
  | var => exact declared_setInit d _ _

theorem memory_of_declare {d d' : Draft} {line : Text.Line}
    (h : d.declare line = .ok d') :
    d'.program.memory = d.program.memory := by
  rcases declare_cases h with ⟨_, _, _, _, rfl⟩ | ⟨_, _, _, _, _, rfl⟩
  · rfl
  · rfl

theorem memory_of_addInit {d d' : Draft} {line : Text.Line}
    (h : d.addInit line = .ok d') :
    d'.program.memory = d.program.memory := by
  obtain ⟨_, _, _, hinit⟩ := addInit_eq_ok_iff.mp h
  cases hinit with
  | constant => rfl
  | var => rfl

theorem Sound.addInit {d d' : Draft} {line : Text.Line} (hd : d.Sound)
    (h : d.addInit line = .ok d') :
    d'.Sound := by
  have hdeclared := declared_of_addInit h
  refine ⟨hdeclared ▸ hd.nodup, hdeclared ▸ hd.not_reserved, ?_⟩
  rw [memory_of_addInit h]
  obtain ⟨_, _, _, hinit⟩ := addInit_eq_ok_iff.mp h
  cases hinit with
  | constant => exact hd.fits
  | var =>
      intro w hw
      obtain ⟨v, hv, rfl | rfl⟩ := mem_vars_setInit hw
      · exact hd.fits w hv
      · exact hd.fits v hv

end Draft

/-- What the sections in front of the program lead to is sound. -/
theorem sound_of_draft {segments : Segments} {placed : List Text.Placed} {d : Draft}
    (h : draft segments placed = .ok d) :
    d.Sound := by
  obtain ⟨settings, _, h⟩ := bind_eq_ok_iff.mp h
  obtain ⟨d₁, hmemory, h⟩ := bind_eq_ok_iff.mp h
  obtain ⟨d₂, hvars, hinits⟩ := bind_eq_ok_iff.mp h
  have hempty : Draft.Sound
      { program := { settings, memory := { segments := segments.existing } } } :=
    ⟨List.nodup_nil, by simp [Draft.declared], by simp⟩
  have hsound₁ : d₁.Sound := foldlM_invariant Draft.Sound
    (fun _ _ _ hd hstep => hd.declareMemory (mapError_eq_ok_iff.mp hstep))
      hempty hmemory
  have hsound₂ : d₂.Sound := foldlM_invariant Draft.Sound
    (fun _ _ _ hd hstep => hd.declare (mapError_eq_ok_iff.mp hstep)) hsound₁ hvars
  exact foldlM_invariant Draft.Sound
    (fun _ _ _ hd hstep => hd.addInit (mapError_eq_ok_iff.mp hstep)) hsound₂ hinits

end Load

end CyclicStack
