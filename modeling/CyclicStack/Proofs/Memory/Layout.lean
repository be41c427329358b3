import CyclicStack.Proofs.Memory.Access

/-!
# What a program keeps while it runs

A program keeps its layout: everything but the contents of its memory, the cells of its
variables and its instructions.  If its variables fit its memory they always will, so
that an access to a variable never fails for another reason than its cell.
-/

namespace CyclicStack

namespace Program

/-- A program without the contents of its memory, the cells of its variables and its
instructions. -/
def layout (p : Program) : Program :=
  { p with
    memory := p.memory.blank
    vars := p.vars.map fun v => { v with cell := 0 }
    code := #[] }

/-- All variables fit the memory. -/
def Served (p : Program) : Prop :=
  ∀ (id : Nat) (v : Variable), p.vars[id]? = some v → p.memory.Fits v

theorem size_vars_of_layout_eq {p p' : Program} (h : p'.layout = p.layout) :
    p'.vars.size = p.vars.size := by
  have hvars : p'.layout.vars.size = p.layout.vars.size := by
    rw [h]
  simpa [layout] using hvars

theorem served_of_layout_eq {p p' : Program} (h : p'.layout = p.layout)
    (hp : p.Served) :
    p'.Served := by
  intro id v hv
  have hblank : p'.memory.blank = p.memory.blank := congrArg Program.memory h
  have hvars : p'.layout.vars[id]? = p.layout.vars[id]? := by
    rw [h]
  simp only [layout, Array.getElem?_map, hv, Option.map_some] at hvars
  obtain ⟨w, hw, hsame⟩ := Option.map_eq_some_iff.mp hvars.symm
  -- a variable fits whatever its cell is
  have hfits : p.memory.Fits { w with cell := 0 } := hp id w hw
  rw [hsame] at hfits
  exact Memory.fits_of_blank_eq hblank hfits

/-! ## What changes a program -/

theorem store_keeps {p p' : Program} {id : Nat} {value : Word}
    (h : store id value p = .ok () p') :
    p'.layout = p.layout ∧ p'.code = p.code := by
  unfold store Action.zoom at h
  split at h
  · cases h
  · split at h
    · next _ memory hstore =>
      cases h
      exact ⟨by simp only [layout, Memory.blank_of_store hstore], rfl⟩
    · cases h

theorem layout_poke (p : Program) (segment offset : Nat) (patch : Bytes) :
    { p with memory := p.memory.poke segment offset patch }.layout = p.layout := by
  simp only [layout, Memory.blank_poke]

theorem layout_moveVariable (p : Program) (id cell : Nat) :
    (p.moveVariable id cell).layout = p.layout := by
  have hvars : (p.moveVariable id cell).layout.vars = p.layout.vars := by
    apply Array.ext_getElem?
    intro k
    simp only [layout, moveVariable, Array.getElem?_map, Array.getElem?_modify]
    split_ifs with hk
    · cases p.vars[k]? <;> rfl
    · rfl
  unfold layout at hvars ⊢
  simp only at hvars
  rw [hvars]
  rfl

theorem layout_append (p : Program) (i : Instruction) :
    (p.append i).layout = p.layout :=
  rfl

/-! ## Accesses to variables -/

/-- The accesses to a variable stay within the memory and fail for its cell only.  Its
region exists; if the region has the cell of the variable, then the bytes of that cell
lie within the segment; and a load or a store fails exactly if the region does not have
the cell. -/
def Guarded (p : Program) (id : Nat) : Prop :=
  ∃ v region, p.vars[id]? = some v ∧ p.memory.regions[v.region]? = some region ∧
    (∀ segment cellSize, region.storage = .shared segment cellSize →
      v.cell < p.memory.cells region.storage →
        v.cell * cellSize + cellSize ≤ (p.memory.segmentBytes segment).length) ∧
    ((∃ failure, p.load id = .error failure) ↔ p.memory.cells region.storage ≤ v.cell) ∧
    ∀ value, (∃ failure p', store id value p = .error failure p') ↔
      p.memory.cells region.storage ≤ v.cell

variable {p : Program} {id : Nat}

/-- A variable that fits is loaded if its region has its cell, and otherwise the cell is
out of range. -/
theorem Served.load_cases (hp : p.Served) {v : Variable} (hv : p.vars[id]? = some v) :
    (v.cell < p.memory.cellsAt v.region ∧ ∃ value, p.load id = .ok value) ∨
    (p.memory.cellsAt v.region ≤ v.cell ∧
      p.load id = .error (.cellOutOfRange v.cell (p.memory.cellsAt v.region))) := by
  unfold load
  simp only [hv]
  rcases Nat.lt_or_ge v.cell (p.memory.cellsAt v.region) with hlt | hge
  · exact .inl ⟨hlt, Memory.load_of_lt (hp id v hv) hlt⟩
  · exact .inr ⟨hge, Memory.load_of_le (hp id v hv) hge⟩

theorem Served.store_cases (hp : p.Served) {v : Variable} (hv : p.vars[id]? = some v)
    (value : Word) :
    (v.cell < p.memory.cellsAt v.region ∧ ∃ p', store id value p = .ok () p') ∨
    (p.memory.cellsAt v.region ≤ v.cell ∧
      store id value p =
        .error (.cellOutOfRange v.cell (p.memory.cellsAt v.region)) p) := by
  unfold store Action.zoom
  simp only [hv]
  rcases Nat.lt_or_ge v.cell (p.memory.cellsAt v.region) with hlt | hge
  · obtain ⟨memory, hstore⟩ := Memory.store_of_lt (hp id v hv) hlt value
    exact .inl ⟨hlt, _, by rw [hstore]⟩
  · exact .inr ⟨hge, by rw [Memory.store_of_le (hp id v hv) hge]⟩

theorem Served.load_error (hp : p.Served) (hid : id < p.vars.size) {failure : Failure}
    (h : p.load id = .error failure) :
    ∃ cell cells, failure = .cellOutOfRange cell cells := by
  rcases hp.load_cases (Array.getElem?_eq_getElem hid) with ⟨_, value, hok⟩ |
    ⟨_, herror⟩
  · rw [hok] at h
    cases h
  · rw [herror] at h
    cases h
    exact ⟨_, _, rfl⟩

theorem Served.store_error (hp : p.Served) (hid : id < p.vars.size) {value : Word}
    {failure : Failure} {p' : Program} (h : store id value p = .error failure p') :
    ∃ cell cells, failure = .cellOutOfRange cell cells := by
  rcases hp.store_cases (Array.getElem?_eq_getElem hid) value with ⟨_, p'', hok⟩ |
    ⟨_, herror⟩
  · rw [hok] at h
    cases h
  · rw [herror] at h
    cases h
    exact ⟨_, _, rfl⟩

theorem Served.guarded (hp : p.Served) (hid : id < p.vars.size) :
    p.Guarded id := by
  have hv := Array.getElem?_eq_getElem hid
  generalize p.vars[id] = v at hv
  have hfits := hp id v hv
  unfold Memory.Fits at hfits
  cases hregion : p.memory.regions[v.region]? with
  | none =>
      rw [hregion] at hfits
      exact hfits.elim
  | some region =>
      have hcells : p.memory.cellsAt v.region = p.memory.cells region.storage := by
        simp only [Memory.cellsAt, hregion]
      refine ⟨v, region, hv, hregion, ?_, ?_, ?_⟩
      · intro segment cellSize hshared hlt
        rw [hshared] at hlt
        exact Window.cell_end_le hlt
      · rw [← hcells]
        rcases hp.load_cases hv with ⟨hlt, value, hok⟩ | ⟨hge, herror⟩
        · simp [hok, hlt]
        · simp [herror, hge]
      · intro value
        rw [← hcells]
        rcases hp.store_cases hv value with ⟨hlt, p', hok⟩ | ⟨hge, herror⟩
        · simp [hok, hlt]
        · simp [herror, hge]

end Program

end CyclicStack
