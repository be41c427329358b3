import CyclicStack.Proofs.Encoding.RoundTrip
import CyclicStack.Proofs.Memory.Store

/-!
# Accesses that fail for their cell only

A variable fits a memory if its region exists and its encoding and sub-index suit the
cells of that region.  Loading and storing such a variable fails exactly if its cell
lies outside the region.

Whether a variable fits, and how many cells its region has, depends only on what is left
of a memory when its contents are erased, and no store and no write from outside changes
that.
-/

namespace CyclicStack

theorem checkCell_of_lt {cells cell : Nat} (h : cell < cells) :
    checkCell cells cell = .ok () :=
  if_pos h

theorem checkCell_of_le {cells cell : Nat} (h : cells ≤ cell) :
    checkCell cells cell = .error (.cellOutOfRange cell cells) :=
  if_neg (Nat.not_lt.mpr h)

theorem lt_of_checkCell {cells cell : Nat} (h : checkCell cells cell = .ok ()) :
    cell < cells := by
  by_contra hge
  rw [checkCell_of_le (Nat.not_lt.mp hge)] at h
  cases h

theorem liftEncoding_eq_ok_iff {α : Type} {x : Except EncodingError α} {a : α} :
    liftEncoding x = .ok a ↔ x = .ok a := by
  cases x <;> simp [liftEncoding]

namespace Cell

theorem length_encode {cell cell' : Cell} {e : Encoding} {sub : Nat} {value : Word}
    (h : cell.encode e sub value = .ok cell') :
    cell'.length = cell.length := by
  obtain ⟨_, _, h⟩ := bind_eq_ok_iff.mp h
  cases h
  exact length_setField cell e sub value

end Cell

namespace Words

theorem load_of_lt {words : Words} {cell : Nat} (h : cell < words.cells) :
    words.load cell none = .ok (words.get cell) := by
  simp only [load, check, checkCell_of_lt h]
  rfl

theorem load_of_le {words : Words} {cell : Nat} (h : words.cells ≤ cell) :
    words.load cell none = .error (.cellOutOfRange cell words.cells) := by
  simp only [load, check, checkCell_of_le h]
  rfl

theorem store_of_lt {words : Words} {cell : Nat} (h : cell < words.cells)
    (e : Encoding) (value : Word) :
    store cell e none value words = .ok () (words.set cell (e.truncate value)) := by
  simp only [store, check, checkCell_of_lt h]
  rfl

theorem store_of_le {words : Words} {cell : Nat} (h : words.cells ≤ cell)
    (e : Encoding) (value : Word) :
    store cell e none value words =
      .error (.cellOutOfRange cell words.cells) words := by
  simp only [store, check, checkCell_of_le h]
  rfl

theorem cells_of_store {words words' : Words} {cell : Nat} {e : Encoding}
    {sub : Option Nat} {value : Word}
    (h : store cell e sub value words = .ok () words') :
    words'.cells = words.cells := by
  unfold store at h
  split at h
  · cases h
    rfl
  · cases h

end Words

namespace Window

variable {cellSize cell : Nat} {bytes : Bytes} {e : Encoding} {sub : Option Nat}

/-- The bytes of a cell within range lie within the segment. -/
theorem cell_end_le (h : cell < cells cellSize bytes) :
    cell * cellSize + cellSize ≤ bytes.length :=
  calc
    cell * cellSize + cellSize = (cell + 1) * cellSize := by ring
    _ ≤ bytes.length / cellSize * cellSize := Nat.mul_le_mul_right _ h
    _ ≤ bytes.length := Nat.div_mul_le_self _ _

theorem length_cellAt (h : cell < cells cellSize bytes) :
    (cellAt cellSize bytes cell).length = cellSize := by
  have hend := cell_end_le h
  simp only [cellAt, List.length_take, List.length_drop]
  omega

theorem length_overwrite {offset : Nat} {patch : Bytes}
    (h : offset + patch.length ≤ bytes.length) :
    (overwrite bytes offset patch).length = bytes.length := by
  simp only [overwrite, List.length_append, List.length_take, List.length_drop]
  omega

theorem load_of_lt (h : cell < cells cellSize bytes)
    (haccess : Cell.checkAccess cellSize e (sub.getD 0) = .ok ()) :
    load cellSize bytes cell e sub =
      .ok ((cellAt cellSize bytes cell).field e (sub.getD 0)) := by
  have hdecode : (cellAt cellSize bytes cell).decode e (sub.getD 0) = .ok _ :=
    Cell.decode_eq_field (by rwa [length_cellAt h])
  simp only [load, checkCell_of_lt h, hdecode]
  rfl

theorem load_of_le (h : cells cellSize bytes ≤ cell) :
    load cellSize bytes cell e sub =
      .error (.cellOutOfRange cell (cells cellSize bytes)) := by
  simp only [load, checkCell_of_le h]
  rfl

theorem store_of_lt (h : cell < cells cellSize bytes)
    (haccess : Cell.checkAccess cellSize e (sub.getD 0) = .ok ()) (value : Word) :
    store cellSize cell e sub value bytes =
      .ok () (overwrite bytes (cell * cellSize)
        ((cellAt cellSize bytes cell).setField e (sub.getD 0) value)) := by
  have hencode : (cellAt cellSize bytes cell).encode e (sub.getD 0) value = .ok _ :=
    Cell.encode_eq_setField (by rwa [length_cellAt h]) value
  simp only [store, checkCell_of_lt h, hencode]
  rfl

theorem store_of_le (h : cells cellSize bytes ≤ cell) (value : Word) :
    store cellSize cell e sub value bytes =
      .error (.cellOutOfRange cell (cells cellSize bytes)) bytes := by
  simp only [store, checkCell_of_le h]

theorem length_of_store {bytes' : Bytes} {value : Word}
    (h : store cellSize cell e sub value bytes = .ok () bytes') :
    bytes'.length = bytes.length := by
  by_cases hcell : cell < cells cellSize bytes
  · simp only [store, checkCell_of_lt hcell] at h
    cases hencode : (cellAt cellSize bytes cell).encode e (sub.getD 0) value with
    | error _ =>
        rw [hencode] at h
        cases h
    | ok updated =>
        rw [hencode] at h
        cases h
        apply length_overwrite
        rw [Cell.length_encode hencode, length_cellAt hcell]
        exact cell_end_le hcell
  · rw [store_of_le (Nat.not_lt.mp hcell)] at h
    cases h

end Window

/-! ## Memories with their contents erased -/

/-- A memory with all its contents erased: its regions and segments with their sizes. -/
def Memory.blank (m : Memory) : Memory where
  segments := m.segments.map fun s => { s with
    bytes := List.replicate s.bytes.length 0 }
  regions := m.regions.map fun r =>
    match r.storage with
    | .owned words => { r with storage := .owned { cells := words.cells } }
    | .shared _ _ => r

def Memory.cellsAt (m : Memory) (region : Nat) : Nat :=
  match m.regions[region]? with
  | some r => m.cells r.storage
  | none => 0

/-- The region of a variable exists, and its encoding and sub-index suit the cells of
the region. -/
def Memory.Fits (m : Memory) (v : Variable) : Prop :=
  match m.regions[v.region]? with
  | some ⟨_, .owned _⟩ => v.subIndex = none
  | some ⟨_, .shared _ cellSize⟩ =>
    Cell.checkAccess cellSize v.encoding (v.subIndex.getD 0) = .ok ()
  | none => False

namespace Memory

theorem length_segmentBytes_blank (m : Memory) (segment : Nat) :
    (m.blank.segmentBytes segment).length = (m.segmentBytes segment).length := by
  unfold segmentBytes blank
  rw [Array.getElem?_map]
  cases m.segments[segment]? <;> simp

theorem cellsAt_blank (m : Memory) (region : Nat) :
    m.blank.cellsAt region = m.cellsAt region := by
  unfold cellsAt
  simp only [blank, Array.getElem?_map]
  cases m.regions[region]? with
  | none => rfl
  | some r =>
      obtain ⟨name, storage⟩ := r
      cases storage with
      | owned words => rfl
      | shared segment cellSize =>
          simp only [Option.map_some, cells, Window.cells]
          exact congrArg (· / cellSize) (length_segmentBytes_blank m segment)

theorem fits_blank (m : Memory) (v : Variable) :
    m.blank.Fits v ↔ m.Fits v := by
  unfold Fits
  simp only [blank, Array.getElem?_map]
  cases m.regions[v.region]? with
  | none => rfl
  | some r =>
      obtain ⟨name, storage⟩ := r
      cases storage with
      | owned words => rfl
      | shared segment cellSize => rfl

theorem cellsAt_of_blank_eq {m m' : Memory} (h : m'.blank = m.blank) (region : Nat) :
    m'.cellsAt region = m.cellsAt region := by
  rw [← cellsAt_blank m', h, cellsAt_blank]

theorem fits_of_blank_eq {m m' : Memory} (h : m'.blank = m.blank) {v : Variable}
    (hv : m.Fits v) :
    m'.Fits v := by
  rw [← fits_blank, h, fits_blank]
  exact hv

/-- A region that is added makes no variable unfit. -/
theorem fits_push {m : Memory} {v : Variable} (hv : m.Fits v) (r : Region) :
    { m with regions := m.regions.push r }.Fits v := by
  unfold Fits at hv ⊢
  have hlt : v.region < m.regions.size := by
    by_contra hge
    rw [Array.getElem?_eq_none (Nat.not_lt.mp hge)] at hv
    exact hv
  rw [Array.getElem?_push_lt hlt]
  rwa [Array.getElem?_eq_getElem hlt] at hv

theorem blank_setSegmentBytes {m : Memory} {segment : Nat} {bytes : Bytes}
    (h : bytes.length = (m.segmentBytes segment).length) :
    (m.setSegmentBytes segment bytes).blank = m.blank := by
  have hsegments : (m.setSegmentBytes segment bytes).blank.segments =
      m.blank.segments := by
    apply Array.ext_getElem?
    intro k
    simp only [blank, setSegmentBytes, Array.getElem?_map, Array.getElem?_modify]
    split_ifs with hk
    · subst hk
      unfold segmentBytes at h
      cases hs : m.segments[segment]? with
      | none => rfl
      | some s =>
          rw [hs] at h
          simp [h]
    · rfl
  rw [show m.blank = ⟨m.blank.segments, m.blank.regions⟩ from rfl, ← hsegments]
  rfl

theorem blank_setWords {m : Memory} {region : Nat} {name : String}
    {words words' : Words} (hregion : m.regions[region]? = some ⟨name, .owned words⟩)
    (h : words'.cells = words.cells) :
    (m.setWords region words').blank = m.blank := by
  have hregions : (m.setWords region words').blank.regions = m.blank.regions := by
    apply Array.ext_getElem?
    intro k
    simp only [blank, setWords, Array.getElem?_map, Array.getElem?_modify]
    split_ifs with hk
    · subst hk
      simp [hregion, h]
    · rfl
  rw [show m.blank = ⟨m.blank.segments, m.blank.regions⟩ from rfl, ← hregions]
  rfl

/-- A store changes nothing but contents. -/
theorem blank_of_store {m m' : Memory} {region cell : Nat} {e : Encoding}
    {sub : Option Nat} {value : Word}
    (h : store region cell e sub value m = .ok () m') :
    m'.blank = m.blank := by
  unfold store Action.zoom at h
  split at h
  · cases h
  · next _ name words hregion =>
    split at h
    · next _ words' hstore =>
      cases h
      exact blank_setWords hregion (Words.cells_of_store hstore)
    · cases h
  · next _ name segment cellSize hregion =>
    split at h
    · next _ bytes hstore =>
      cases h
      exact blank_setSegmentBytes (Window.length_of_store hstore)
    · cases h

/-- A write from outside changes nothing but contents. -/
theorem blank_poke (m : Memory) (segment offset : Nat) (patch : Bytes) :
    (m.poke segment offset patch).blank = m.blank := by
  apply blank_setSegmentBytes
  simp only [Window.overwrite, List.length_take, List.length_append, List.length_drop]
  omega

/-! ## Loads and stores of variables that fit -/

variable {m : Memory} {v : Variable}

theorem load_of_lt (hv : m.Fits v) (h : v.cell < m.cellsAt v.region) :
    ∃ value, m.load v.region v.cell v.encoding v.subIndex = .ok value := by
  unfold Fits at hv
  unfold cellsAt at h
  unfold load
  split at hv
  · next name words hregion =>
    simp only [hregion, cells] at h
    simp only [hregion, hv]
    exact ⟨_, Words.load_of_lt h⟩
  · next name segment cellSize hregion =>
    simp only [hregion, cells] at h
    simp only [hregion]
    exact ⟨_, Window.load_of_lt h hv⟩
  · exact hv.elim

theorem load_of_le (hv : m.Fits v) (h : m.cellsAt v.region ≤ v.cell) :
    m.load v.region v.cell v.encoding v.subIndex =
      .error (.cellOutOfRange v.cell (m.cellsAt v.region)) := by
  unfold Fits at hv
  unfold cellsAt at h ⊢
  unfold load
  split at hv
  · next name words hregion =>
    simp only [hregion, cells] at h ⊢
    rw [hv, Words.load_of_le h]
  · next name segment cellSize hregion =>
    simp only [hregion, cells] at h ⊢
    rw [Window.load_of_le h]
  · exact hv.elim

theorem store_of_lt (hv : m.Fits v) (h : v.cell < m.cellsAt v.region) (value : Word) :
    ∃ m', store v.region v.cell v.encoding v.subIndex value m = .ok () m' := by
  unfold Fits at hv
  unfold cellsAt at h
  unfold store Action.zoom
  split at hv
  · next name words hregion =>
    simp only [hregion, cells] at h
    simp only [hregion, hv, Words.store_of_lt h]
    exact ⟨_, rfl⟩
  · next name segment cellSize hregion =>
    simp only [hregion, cells] at h
    simp only [hregion, Window.store_of_lt h hv]
    exact ⟨_, rfl⟩
  · exact hv.elim

theorem store_of_le (hv : m.Fits v) (h : m.cellsAt v.region ≤ v.cell) (value : Word) :
    store v.region v.cell v.encoding v.subIndex value m =
      .error (.cellOutOfRange v.cell (m.cellsAt v.region)) m := by
  have herror : ∃ m', store v.region v.cell v.encoding v.subIndex value m =
      .error (.cellOutOfRange v.cell (m.cellsAt v.region)) m' := by
    unfold Fits at hv
    unfold cellsAt at h ⊢
    unfold store Action.zoom
    split at hv
    · next name words hregion =>
      simp only [hregion, cells] at h ⊢
      rw [hv, Words.store_of_le h]
      exact ⟨_, rfl⟩
    · next name segment cellSize hregion =>
      simp only [hregion, cells] at h ⊢
      rw [Window.store_of_le h]
      exact ⟨_, rfl⟩
    · exact hv.elim
  obtain ⟨m', herror⟩ := herror
  rw [herror, store_atomic _ _ _ _ _ _ _ _ herror]

end Memory

end CyclicStack
