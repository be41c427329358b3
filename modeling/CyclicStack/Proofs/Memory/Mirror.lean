import CyclicStack.Proofs.Machine.Simulation
import CyclicStack.Proofs.Memory.Sharing

/-!
# Private words on a segment

A private region and a window of eight-byte cells hold the same values in different
ways: the one keeps a word, cut to the width of its field, the other keeps bytes, which
an encoding turns into that word.  As long as every cell belongs to one variable, wider
than a bit, the one can take the place of the other.
-/

namespace CyclicStack

/-! ## Words and cells -/

namespace Words

theorem lookup_write (cell cell' : Nat) (w : Word) (written : List (Nat × Word)) :
    (write cell w written).lookup cell' = if cell' =
      cell then some w else written.lookup cell' := by
  have hcons : ∀ c v (rest : List (Nat × Word)),
      ((c, v) :: rest).lookup cell' = if cell' =
        c then some v else rest.lookup cell' := by
    intro c v rest
    by_cases h : cell' = c
    · rw [if_pos h, h, List.lookup_cons_self]
    · rw [if_neg h, List.lookup_cons, beq_false_of_ne h]
  induction written with
  | nil => rw [write, hcons]
  | cons first rest ih =>
      obtain ⟨c, v⟩ := first
      rw [write]
      split_ifs with hc hcell hcell
      · rw [hcons, if_pos hcell]
      · rw [hcons, hcons, if_neg hcell, hc, if_neg hcell]
      · rw [hcons, ih, if_pos hcell, if_neg (hcell ▸ Ne.symm hc)]
      · rw [hcons, hcons, ih, if_neg hcell]

theorem get_set_self (words : Words) (cell : Nat) (w : Word) :
    (words.set cell w).get cell = w := by
  simp [get, set, lookup_write]

theorem get_set_of_ne (words : Words) {cell cell' : Nat} (h : cell' ≠ cell) (w : Word) :
    (words.set cell w).get cell' = words.get cell' := by
  simp [get, set, lookup_write, h]

end Words

namespace Cell

/-- Every encoding that is wider than a bit can be used on cells of eight bytes without
a sub-index. -/
theorem checkAccess_eight {e : Encoding} (h : e.isBit = false) :
    checkAccess 8 e 0 = .ok () := by
  cases e with
  | le1 | be1 => cases h
  | _ => rfl

theorem field_zeros (e : Encoding) :
    field (List.replicate 8 0) e 0 = 0 := by
  cases e <;> decide

end Cell

namespace Window

theorem cells_eight {bytes : Bytes} {cells : Nat} (h : bytes.length = 8 * cells) :
    Window.cells 8 bytes = cells := by
  rw [Window.cells, h, Nat.mul_div_cancel_left cells (by norm_num)]

theorem cellAt_zeros {cells cell : Nat} (h : cell < cells) :
    cellAt 8 (List.replicate (8 * cells) 0) cell = List.replicate 8 0 := by
  rw [cellAt, List.drop_replicate, List.take_replicate]
  congr 1
  omega

/-- A store leaves the other cells of its window alone. -/
theorem Access.cellAt_stored_of_ne {a : Access} {bytes : Bytes} {value : Word}
    (h : a.Valid bytes) {cell : Nat} (hcell : cell ≠ a.cell) :
    cellAt a.cellSize (a.stored value bytes) cell = cellAt a.cellSize bytes cell := by
  apply List.ext_getElem?
  intro k
  rw [cellAt, cellAt, List.getElem?_take, List.getElem?_take]
  split_ifs with hk
  · rw [List.getElem?_drop, List.getElem?_drop, getElem?_stored_of_outside h]
    rcases Nat.lt_or_gt_of_ne hcell with hlt | hgt
    · left
      have hmul := Nat.mul_le_mul_right a.cellSize (Nat.succ_le_of_lt hlt)
      rw [Nat.succ_mul] at hmul
      rw [start]
      omega
    · right
      have hmul := Nat.mul_le_mul_right a.cellSize (Nat.succ_le_of_lt hgt)
      rw [Nat.succ_mul] at hmul
      rw [start]
      omega
  · rfl

end Window

/-! ## Regions on a segment of their own -/

/-- Changes at different positions of an array commute. -/
theorem modify_comm {α : Type} (xs : Array α) {i j : Nat} (h : i ≠ j) (f g : α → α) :
    (xs.modify j f).modify i g = (xs.modify i g).modify j f := by
  apply Array.ext_getElem?
  intro k
  simp only [Array.getElem?_modify]
  split_ifs with hi hj
  · exact absurd (hi.trans hj.symm) h
  · rfl
  · rfl
  · rfl

namespace Memory

/-- The memory with a region put on a segment, in cells of eight bytes. -/
def onSegment (m : Memory) (region segment : Nat) : Memory :=
  { m with
    regions := m.regions.modify region fun r => { r with storage := .shared segment 8 } }

section

variable {m : Memory} {region segment other : Nat} {bytes bytes' : Bytes}

theorem regions_onSegment_of_ne (h : other ≠ region) :
    (m.onSegment region segment).regions[other]? = m.regions[other]? := by
  rw [onSegment, Array.getElem?_modify, if_neg (Ne.symm h)]

theorem opens_onSegment {r : Region} (h : m.regions[region]? = some r) :
    (m.onSegment region segment).Opens region segment 8 := by
  refine ⟨r.name, ?_⟩
  rw [onSegment, Array.getElem?_modify, if_pos rfl, h]
  rfl

theorem onSegment_setWords (words : Words) :
    (m.setWords region words).onSegment region segment =
      m.onSegment region segment := by
  unfold onSegment setWords
  congr 1
  apply Array.ext_getElem?
  intro k
  simp only [Array.getElem?_modify]
  split_ifs
  · cases m.regions[k]? <;> rfl
  · rfl

theorem setWords_onSegment_of_ne (h : other ≠ region) (words : Words) :
    (m.onSegment region segment).setWords other words =
      (m.setWords other words).onSegment region segment := by
  unfold onSegment setWords
  rw [modify_comm _ h]

theorem segmentBytes_setSegmentBytes_of_ne (h : other ≠ segment) :
    (m.setSegmentBytes segment bytes).segmentBytes other = m.segmentBytes other := by
  unfold segmentBytes setSegmentBytes
  rw [Array.getElem?_modify, if_neg (Ne.symm h)]

theorem setSegmentBytes_comm (h : other ≠ segment) :
    (m.setSegmentBytes segment bytes).setSegmentBytes other bytes' =
      (m.setSegmentBytes other bytes').setSegmentBytes segment bytes := by
  unfold setSegmentBytes
  rw [modify_comm _ h]

/-- The memory with a region put on a segment of the given bytes. -/
def mirror (m : Memory) (region segment : Nat) (bytes : Bytes) : Memory :=
  (m.setSegmentBytes segment bytes).onSegment region segment

/-- No region lies on the segment. -/
def Unused (m : Memory) (segment : Nat) : Prop :=
  ∀ r ∈ m.regions, ∀ cellSize, r.storage ≠ .shared segment cellSize

theorem Unused.ne_of_getElem? (h : m.Unused segment) {name : String} {cellSize : Nat}
    (hr : m.regions[region]? = some ⟨name, .shared other cellSize⟩) :
    other ≠ segment := by
  rintro rfl
  exact h _ (Array.mem_of_getElem? hr) cellSize rfl

/-- Whether a segment is used shows in a memory without its contents. -/
theorem Unused.of_blank_eq {m' : Memory} (h : m.Unused segment)
    (hblank : m'.blank = m.blank) :
    m'.Unused segment := by
  intro r hr cellSize hstorage
  obtain ⟨k, hk⟩ := Array.mem_iff_getElem?.mp hr
  have hregions : m.blank.regions[k]? = some r := by
    rw [← hblank, blank, Array.getElem?_map, hk, Option.map_some, hstorage]
  rw [blank, Array.getElem?_map] at hregions
  obtain ⟨old, hold, hsame⟩ := Option.map_eq_some_iff.mp hregions
  split at hsame
  · subst hsame
    cases hstorage
  · subst hsame
    exact h _ (Array.mem_of_getElem? hold) cellSize hstorage

/-- The other regions do not notice. -/
theorem load_mirror_of_ne (hunused : m.Unused segment) (h : other ≠ region) (cell : Nat)
    (e : Encoding) (sub : Option Nat) :
    (m.mirror region segment bytes).load other cell e sub =
      m.load other cell e sub := by
  have hregion : (m.mirror region segment bytes).regions[other]? = m.regions[other]? :=
    regions_onSegment_of_ne h
  unfold load
  rw [hregion]
  split
  · rfl
  · rfl
  · next hr =>
    have hbytes : (m.mirror region segment bytes).segmentBytes _ = _ :=
      segmentBytes_setSegmentBytes_of_ne (hunused.ne_of_getElem? hr)
    rw [hbytes]

theorem store_mirror_of_ne (hunused : m.Unused segment) (h : other ≠ region)
    (cell : Nat) (e : Encoding) (sub : Option Nat) (value : Word) :
    Action.SameOutcome (fun m m' => m' = m.mirror region segment bytes)
      (store other cell e sub value m)
      (store other cell e sub value (m.mirror region segment bytes)) := by
  have hregion : (m.mirror region segment bytes).regions[other]? = m.regions[other]? :=
    regions_onSegment_of_ne h
  unfold store
  rw [hregion]
  split
  · exact .error _ rfl
  · next name words hr =>
    unfold Action.zoom
    cases Words.store cell e sub value words with
    | ok _ words' => exact .ok _ (setWords_onSegment_of_ne h words')
    | error failure words' => exact .error failure (setWords_onSegment_of_ne h words')
  · next name owner cellSize hr =>
    have hne := hunused.ne_of_getElem? hr
    have hbytes : (m.mirror region segment bytes).segmentBytes owner =
        m.segmentBytes owner :=
      segmentBytes_setSegmentBytes_of_ne hne
    have hcomm : ∀ patch, (m.mirror region segment bytes).setSegmentBytes owner patch =
        (m.setSegmentBytes owner patch).mirror region segment bytes :=
      fun patch => congrArg (onSegment · region segment) (setSegmentBytes_comm hne)
    unfold Action.zoom
    simp only [hbytes, hcomm]
    cases Window.store cellSize cell e sub value (m.segmentBytes owner) with
    | ok _ patch => exact .ok _ rfl
    | error failure patch => exact .error failure rfl

/-- A store to another region leaves the words of a region alone. -/
theorem regions_of_store_of_ne {m' : Memory} {cell : Nat} {e : Encoding}
    {sub : Option Nat} {value : Word}
    (hstore : store other cell e sub value m = .ok () m') (h : other ≠ region) :
    m'.regions[region]? = m.regions[region]? := by
  unfold store Action.zoom at hstore
  split at hstore
  · cases hstore
  · split at hstore
    · cases hstore
      simp only [setWords, Array.getElem?_modify, if_neg h]
    · cases hstore
  · split at hstore
    · cases hstore
      rfl
    · cases hstore

end

end Memory

/-! ## Programs on private words and on a segment -/

namespace Program

/-- A region of words, and bytes of a segment that no region uses, hold the same values:
every variable of the region has its cell to itself, is wider than a bit, and is decoded
from the bytes as its word. -/
structure Holds (region segment : Nat) (words : Words) (bytes : Bytes)
    (p : Program) : Prop where
  owned : ∃ name, p.memory.regions[region]? = some ⟨name, .owned words⟩
  unused : p.memory.Unused segment
  size : (p.memory.segmentBytes segment).length = 8 * words.cells
  length : bytes.length = 8 * words.cells
  apart : ∀ v ∈ p.vars, ∀ w ∈ p.vars, v.region = region → w.region = region →
    w.cell = v.cell → w = v
  plain : ∀ v ∈ p.vars, v.region = region → v.encoding.isBit = false ∧ v.subIndex = none
  same : ∀ v ∈ p.vars, v.region = region → v.cell < words.cells →
    words.get v.cell = (Window.cellAt 8 bytes v.cell).field v.encoding 0

/-- The second program is the first one with a region of words put on a segment that
holds the same. -/
def Mirrors (region segment : Nat) (p p' : Program) : Prop :=
  ∃ words bytes, p.Holds region segment words bytes ∧
    p' = { p with memory := p.memory.mirror region segment bytes }

section

variable {region segment : Nat} {words : Words} {bytes : Bytes} {p : Program}
  {v : Variable}

theorem Holds.valid (h : p.Holds region segment words bytes) (hv : v ∈ p.vars)
    (hregion : v.region = region) (hcell : v.cell < words.cells) :
    Window.Access.Valid ⟨8, v.cell, v.encoding, none⟩ bytes :=
  ⟨by rwa [Window.cells_eight h.length],
    Cell.checkAccess_eight (h.plain v hv hregion).1⟩

/-- The window on the segment, whatever the rest of the memory is. -/
theorem Holds.opens (h : p.Holds region segment words bytes) :
    (p.memory.mirror region segment bytes).Opens region segment 8 := by
  obtain ⟨name, hr⟩ := h.owned
  exact Memory.opens_onSegment (m := p.memory.setSegmentBytes segment bytes) hr

theorem Holds.segmentBytes (h : p.Holds region segment words bytes) :
    (p.memory.mirror region segment bytes).segmentBytes segment = bytes :=
  Memory.segmentBytes_setSegmentBytes (h.length.trans h.size.symm)

/-- In both programs a variable of the region fits, and the region has as many cells. -/
theorem Holds.fits (h : p.Holds region segment words bytes) (hv : v ∈ p.vars)
    (hregion : v.region = region) :
    (p.memory.Fits v ∧ p.memory.cellsAt v.region = words.cells) ∧
      (p.memory.mirror region segment bytes).Fits v ∧
      (p.memory.mirror region segment bytes).cellsAt v.region = words.cells := by
  obtain ⟨name, hr⟩ := h.owned
  obtain ⟨name', hr'⟩ := h.opens
  obtain ⟨hbit, hsub⟩ := h.plain v hv hregion
  subst hregion
  simp only [Memory.Fits, Memory.cellsAt, hr, hr', hsub, Memory.cells, h.segmentBytes,
    Window.cells_eight h.length, true_and, and_true]
  exact Cell.checkAccess_eight hbit

theorem Holds.load_eq (h : p.Holds region segment words bytes) (hv : v ∈ p.vars) :
    (p.memory.mirror region segment bytes).load v.region v.cell v.encoding v.subIndex =
      p.memory.load v.region v.cell v.encoding v.subIndex := by
  by_cases hregion : v.region = region
  · obtain ⟨⟨hfits, hcells⟩, hfits', hcells'⟩ := h.fits hv hregion
    rcases Nat.lt_or_ge v.cell words.cells with hlt | hge
    · obtain ⟨name, hr⟩ := h.owned
      have hwords : p.memory.load region v.cell v.encoding none =
          words.load v.cell none := by
        rw [Memory.load, hr]
      rw [hregion, (h.plain v hv hregion).2, hwords, Words.load_of_lt hlt,
        h.opens.load_eq, h.segmentBytes, (h.valid hv hregion hlt).load_eq,
        h.same v hv hregion hlt]
      rfl
    · rw [Memory.load_of_le hfits (hcells ▸ hge),
        Memory.load_of_le hfits' (hcells' ▸ hge), hcells, hcells']
  · exact Memory.load_mirror_of_ne h.unused hregion _ _ _

/-- A store to a variable of the region keeps words and bytes in step. -/
theorem Holds.stored (h : p.Holds region segment words bytes) (hv : v ∈ p.vars)
    (hregion : v.region = region) (hcell : v.cell < words.cells) (value : Word) :
    let a : Window.Access := ⟨8, v.cell, v.encoding, none⟩
    let words' := words.set v.cell (v.encoding.truncate value)
    { p with memory := p.memory.setWords region words' }.Holds region segment words'
      (a.stored value bytes) := by
  intro a words'
  obtain ⟨name, hr⟩ := h.owned
  have hvalid : a.Valid bytes := h.valid hv hregion hcell
  refine ⟨⟨name, ?_⟩, ?_, h.size, ?_, h.apart, h.plain, ?_⟩
  · simp only [Memory.setWords, Array.getElem?_modify, if_pos, hr, Option.map_some]
  · exact h.unused.of_blank_eq (Memory.blank_setWords hr rfl)
  · exact (Window.Access.length_stored hvalid value).trans h.length
  · intro w hw hwregion hwcell
    by_cases hsame : w.cell = v.cell
    · obtain rfl := h.apart v hv w hw hregion hwregion hsame
      have hfield := Cell.field_setField hvalid.granted_cellAt value
      rw [← Window.Access.cellAt_stored hvalid, Encoding.kept,
        (h.plain w hw hwregion).1] at hfield
      rw [Words.get_set_self]
      exact hfield.symm
    · have hother : Window.cellAt 8 (a.stored value bytes) w.cell =
          Window.cellAt 8 bytes w.cell :=
        Window.Access.cellAt_stored_of_ne hvalid hsame
      rw [Words.get_set_of_ne words hsame, hother]
      exact h.same w hw hwregion hwcell

/-- A store to a variable of another region leaves words and bytes alone. -/
theorem Holds.of_store (h : p.Holds region segment words bytes) {memory : Memory}
    (hregion : v.region ≠ region) {value : Word}
    (hstore : Memory.store v.region v.cell v.encoding v.subIndex value p.memory =
      .ok () memory) :
    { p with memory }.Holds region segment words bytes := by
  have hblank := Memory.blank_of_store hstore
  obtain ⟨name, hr⟩ := h.owned
  refine ⟨⟨name, ?_⟩, h.unused.of_blank_eq hblank, ?_, h.length, h.apart,
    h.plain, h.same⟩
  · rw [Memory.regions_of_store_of_ne hstore hregion, hr]
  · rw [← Memory.length_segmentBytes_blank, hblank,
      Memory.length_segmentBytes_blank, h.size]

theorem Holds.store_alike (h : p.Holds region segment words bytes) (hv : v ∈ p.vars)
    (value : Word) :
    Action.SameOutcome
      (fun m m' => Mirrors region segment { p with memory := m } { p with
        memory := m' })
      (Memory.store v.region v.cell v.encoding v.subIndex value p.memory)
      (Memory.store v.region v.cell v.encoding v.subIndex value
        (p.memory.mirror region segment bytes)) := by
  by_cases hregion : v.region = region
  · rcases Nat.lt_or_ge v.cell words.cells with hlt | hge
    · obtain ⟨name, hr⟩ := h.owned
      have hwords : Memory.store region v.cell v.encoding none value p.memory =
          .ok () (p.memory.setWords region
            (words.set v.cell (v.encoding.truncate value))) := by
        rw [Memory.store, hr]
        simp only [Action.zoom, Words.store_of_lt hlt]
      have hshared : (p.memory.onSegment region segment).Opens region segment 8 :=
        Memory.opens_onSegment hr
      have hlength : bytes.length =
          ((p.memory.onSegment region segment).segmentBytes segment).length :=
        h.length.trans h.size.symm
      have hbytes :=
        hshared.store_setSegmentBytes hlength (h.valid hv hregion hlt) value
      rw [(h.plain v hv hregion).2, hregion, hwords]
      refine hbytes ▸ .ok () ⟨_, _, h.stored hv hregion hlt value, ?_⟩
      congr 1
      exact (Memory.onSegment_setWords (m := p.memory.setSegmentBytes segment _) _).symm
    · obtain ⟨⟨hfits, hcells⟩, hfits', hcells'⟩ := h.fits hv hregion
      rw [Memory.store_of_le hfits (hcells ▸ hge),
        Memory.store_of_le hfits' (hcells' ▸ hge), hcells, hcells']
      exact .error _ ⟨words, bytes, h, rfl⟩
  · rcases (Memory.store_mirror_of_ne h.unused hregion v.cell v.encoding v.subIndex
      value).ok_or_error with ⟨_, m, _, hok, hok', rfl⟩ |
        ⟨failure, m, _, herror, herror', rfl⟩
    · rw [hok, hok']
      exact .ok _ ⟨words, bytes, h.of_store hregion hok, rfl⟩
    · rw [herror, herror']
      obtain rfl := Memory.store_atomic _ _ _ _ _ _ _ _ herror
      exact .error failure ⟨words, bytes, h, rfl⟩

/-- A region of words can be taken for a window on a segment that holds the same. -/
theorem simulation_mirrors (region segment : Nat) :
    Simulation (Mirrors region segment) where
  vars := by
    rintro p _ ⟨_, _, _, rfl⟩
    rfl
  code := by
    rintro p _ ⟨_, _, _, rfl⟩
    rfl
  load := by
    rintro p _ ⟨words, bytes, h, rfl⟩ id
    unfold load
    dsimp only
    cases hv : p.vars[id]? with
    | none => rfl
    | some v => exact h.load_eq (Array.mem_of_getElem? hv)
  store := by
    rintro p _ ⟨words, bytes, h, rfl⟩ id value
    unfold store Action.zoom
    dsimp only
    cases hv : p.vars[id]? with
    | none => exact .error _ ⟨words, bytes, h, rfl⟩
    | some v =>
        rcases (h.store_alike (Array.mem_of_getElem? hv) value).ok_or_error with
          ⟨_, m, m', hok, hok', hmirrors⟩ | ⟨failure, m, m', herror, herror', hmirrors⟩
        · simp only [hok, hok']
          exact .ok _ hmirrors
        · simp only [herror, herror']
          exact .error failure hmirrors

/-- At first all words are zero, and so are the bytes. -/
theorem mirrors_of_zeros {name : String} {cells : Nat}
    (hr : p.memory.regions[region]? = some ⟨name, .owned { cells }⟩)
    (hunused : p.memory.Unused segment)
    (hbytes : p.memory.segmentBytes segment = List.replicate (8 * cells) 0)
    (hapart : ∀ v ∈ p.vars, ∀ w ∈ p.vars, v.region = region → w.region = region →
      w.cell = v.cell → w = v)
    (hplain : ∀ v ∈ p.vars, v.region = region → v.encoding.isBit = false ∧
      v.subIndex = none) :
    Mirrors region segment p { p with
      memory := p.memory.onSegment region segment } := by
  refine ⟨{ cells }, p.memory.segmentBytes segment,
    ⟨⟨name, hr⟩, hunused, ?_, ?_, hapart, hplain, ?_⟩,
    by rw [Memory.mirror, Memory.setSegmentBytes_self]⟩
  · rw [hbytes, List.length_replicate]
  · rw [hbytes, List.length_replicate]
  · intro v _ _ hcell
    rw [hbytes, Window.cellAt_zeros hcell, Cell.field_zeros]
    rfl

end

end Program

end CyclicStack
