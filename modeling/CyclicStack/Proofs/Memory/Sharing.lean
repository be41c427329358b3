import CyclicStack.Proofs.Memory.Footprint

/-!
# Regions on one segment

Several regions of a memory can be windows on one segment, with cells of different
sizes.  A store through one of them is seen through the others.  What it changes, and
what it leaves alone, is told by the footprints of the accesses.
-/

namespace CyclicStack

namespace Memory

variable {m : Memory} {region segment cellSize : Nat} {bytes bytes' : Bytes}

theorem segmentBytes_setSegmentBytes
    (hlength : bytes.length = (m.segmentBytes segment).length) :
    (m.setSegmentBytes segment bytes).segmentBytes segment = bytes := by
  unfold segmentBytes at hlength
  unfold setSegmentBytes segmentBytes
  rw [Array.getElem?_modify, if_pos rfl]
  cases hsegment : m.segments[segment]? with
  | none =>
      rw [hsegment] at hlength
      exact (List.eq_nil_of_length_eq_zero hlength).symm
  | some s => rfl

theorem setSegmentBytes_setSegmentBytes :
    (m.setSegmentBytes segment bytes).setSegmentBytes segment bytes' =
      m.setSegmentBytes segment bytes' := by
  unfold setSegmentBytes
  congr 1
  apply Array.ext_getElem?
  intro k
  simp only [Array.getElem?_modify]
  split_ifs
  · cases m.segments[k]? <;> rfl
  · rfl

/-- The region at a position is a window on a segment. -/
def Opens (m : Memory) (region segment cellSize : Nat) : Prop :=
  ∃ name, m.regions[region]? = some ⟨name, .shared segment cellSize⟩

/-- An access to a region succeeds: a load does, or a store of some value. -/
def Admits (m : Memory) (region : Nat) (a : Window.Access) : Prop :=
  (∃ value, m.load region a.cell a.encoding a.sub = .ok value) ∨
    ∃ value m', store region a.cell a.encoding a.sub value m = .ok () m'

theorem Opens.load_eq (h : m.Opens region segment cellSize) (cell : Nat) (e : Encoding)
    (sub : Option Nat) :
    m.load region cell e sub =
      Window.load cellSize (m.segmentBytes segment) cell e sub := by
  obtain ⟨name, h⟩ := h
  rw [load, h]

theorem Opens.store_eq (h : m.Opens region segment cellSize) (cell : Nat) (e : Encoding)
    (sub : Option Nat) (value : Word) :
    store region cell e sub value m =
      Action.zoom (segmentBytes · segment)
        (fun bytes m => m.setSegmentBytes segment bytes)
        (Window.store cellSize cell e sub value) m := by
  obtain ⟨name, h⟩ := h
  rw [store, h]

variable {a : Window.Access}

theorem Opens.valid_of_admits (h : m.Opens region segment a.cellSize)
    (ha : m.Admits region a) :
    a.Valid (m.segmentBytes segment) := by
  rcases ha with ⟨value, hload⟩ | ⟨value, m', hstore⟩
  · rw [h.load_eq] at hload
    exact Window.Access.valid_of_load hload
  · rw [h.store_eq, Action.zoom] at hstore
    split at hstore
    · next hwindow => exact Window.Access.valid_of_store hwindow
    · cases hstore

/-- A valid load, whatever the bytes of the segment are. -/
theorem Opens.load_setSegmentBytes (h : m.Opens region segment a.cellSize)
    (hlength : bytes.length = (m.segmentBytes segment).length) (ha : a.Valid bytes) :
    (m.setSegmentBytes segment bytes).load region a.cell a.encoding a.sub =
      .ok ((Window.cellAt a.cellSize bytes a.cell).field a.encoding a.index) := by
  have hopens : (m.setSegmentBytes segment bytes).Opens region segment a.cellSize := h
  rw [hopens.load_eq, segmentBytes_setSegmentBytes hlength, ha.load_eq]

/-- A valid store, whatever the bytes of the segment are. -/
theorem Opens.store_setSegmentBytes (h : m.Opens region segment a.cellSize)
    (hlength : bytes.length = (m.segmentBytes segment).length) (ha : a.Valid bytes)
    (value : Word) :
    store region a.cell a.encoding a.sub value (m.setSegmentBytes segment bytes) =
      .ok () (m.setSegmentBytes segment (a.stored value bytes)) := by
  have hopens : (m.setSegmentBytes segment bytes).Opens region segment a.cellSize := h
  rw [hopens.store_eq, Action.zoom, segmentBytes_setSegmentBytes hlength, ha.store_eq]
  simp only [setSegmentBytes_setSegmentBytes]

end Memory

open Memory Window

/-- Accesses to regions on one segment keep to their footprints.  A store changes that
segment only, and of it no bit outside the footprint of the store, so no byte after the
last whole cell; the bits of the footprint are cleared by a zero and set by ones.  A
load depends on the bits of its own footprint only.  If the two footprints are disjoint,
then the store does not change what is loaded, and two stores can change places. -/
theorem accesses_keep_to_footprints {m : Memory} {segment r r' : Nat} {a b : Access}
    (hr : m.Opens r segment a.cellSize) (hr' : m.Opens r' segment b.cellSize)
    (ha : m.Admits r a) (hb : m.Admits r' b) (v w : Word) :
    let bytes := m.segmentBytes segment
    ∃ stored value,
      (Memory.store r a.cell a.encoding a.sub v m =
        .ok () (m.setSegmentBytes segment stored) ∧
        stored.length = bytes.length ∧
        (∀ x ∉ a.footprint, bitAt stored x = bitAt bytes x) ∧
        (∀ x ∈ a.footprint,
          (v = 0 → bitAt stored x = false) ∧ (v = ~~~0 → bitAt stored x = true)) ∧
        ∀ k, Window.cells a.cellSize bytes * a.cellSize ≤ k → stored[k]? = bytes[k]?) ∧
      (m.load r' b.cell b.encoding b.sub = .ok value ∧
        ∀ bytes', bytes'.length = bytes.length →
          (∀ x ∈ b.footprint, bitAt bytes' x = bitAt bytes x) →
            (m.setSegmentBytes segment bytes').load r' b.cell b.encoding b.sub =
              .ok value) ∧
      (Disjoint a.footprint b.footprint →
        (m.setSegmentBytes segment stored).load r' b.cell b.encoding b.sub = .ok value ∧
        ∃ m' final, Memory.store r' b.cell b.encoding b.sub w m = .ok () m' ∧
          Memory.store r a.cell a.encoding a.sub v m' = .ok () final ∧
          Memory.store r' b.cell b.encoding b.sub w (m.setSegmentBytes segment stored) =
            .ok () final) := by
  intro bytes
  have hself : m.setSegmentBytes segment bytes = m := setSegmentBytes_self m segment
  have ha : a.Valid bytes := hr.valid_of_admits ha
  have hb : b.Valid bytes := hr'.valid_of_admits hb
  have hstored : (a.stored v bytes).length = bytes.length := Access.length_stored ha v
  have hload : ∀ bytes', bytes'.length = bytes.length →
      (∀ x ∈ b.footprint, bitAt bytes' x = bitAt bytes x) →
        (m.setSegmentBytes segment bytes').load r' b.cell b.encoding b.sub =
          .ok ((cellAt b.cellSize bytes b.cell).field b.encoding b.index) := by
    intro bytes' hlength hsame
    have hb' := hb.of_length_eq hlength
    rw [hr'.load_setSegmentBytes hlength hb', Access.field_congr hb hb' hsame]
  refine ⟨a.stored v bytes, _, ⟨?_, hstored, ?_, ?_, ?_⟩, ⟨?_, hload⟩, ?_⟩
  · rw [← hr.store_setSegmentBytes rfl ha v, hself]
  · intro x hx
    exact Access.bitAt_stored_of_not_mem ha hx
  · intro x hx
    constructor
    · rintro rfl
      exact (Access.bitAt_stored_of_mem ha hx).1
    · rintro rfl
      exact (Access.bitAt_stored_of_mem ha hx).2
  · intro k hk
    -- the cell of the store is one of the whole cells
    have hend : a.start + a.cellSize ≤ Window.cells a.cellSize bytes * a.cellSize := by
      rw [Access.start, ← Nat.succ_mul]
      exact Nat.mul_le_mul_right _ ha.cell_lt
    exact Access.getElem?_stored_of_outside ha (.inr (hend.trans hk))
  · rw [← hload bytes rfl fun _ _ => rfl, hself]
  · intro hdisjoint
    have hother : (b.stored w bytes).length = bytes.length := Access.length_stored hb w
    refine ⟨?_, m.setSegmentBytes segment (b.stored w bytes),
      m.setSegmentBytes segment (a.stored v (b.stored w bytes)), ?_, ?_, ?_⟩
    · apply hload _ hstored
      intro x hx
      exact Access.bitAt_stored_of_not_mem ha (Finset.disjoint_right.mp hdisjoint hx)
    · rw [← hr'.store_setSegmentBytes rfl hb w, hself]
    · exact hr.store_setSegmentBytes hother (ha.of_length_eq hother) v
    · rw [hr'.store_setSegmentBytes hstored (hb.of_length_eq hstored),
        Access.stored_comm ha hb hdisjoint]

/-- A bit of a big-endian cell of two bytes and a field of reversed registers in a cell
of eight bytes, both within the first eight bytes of a segment that has three bytes
after its last whole cell. -/
theorem accesses_keep_to_footprints_mixed_cells :
    let bytes : Bytes := [0, 1, 2, 3, 4, 5, 6, 7, 8, 9, 10]
    let m : Memory :=
      { segments := #[⟨"seg", bytes⟩]
        regions := #[⟨"flags", .shared 0 2⟩, ⟨"wide", .shared 0 8⟩] }
    let a : Access := ⟨2, 1, .be1, some 9⟩
    let b : Access := ⟨8, 0, .be32r, none⟩
    m.Opens 0 0 2 ∧ m.Opens 1 0 8 ∧ m.Admits 0 a ∧ m.Admits 1 b ∧
      Disjoint a.footprint b.footprint ∧
      ∃ stored, Memory.store 0 1 .be1 (some 9) 0 m =
        .ok () (m.setSegmentBytes 0 stored) ∧
        (∀ x ∉ a.footprint, bitAt stored x = bitAt bytes x) ∧
        (m.setSegmentBytes 0 stored).load 1 0 .be32r none = m.load 1 0 .be32r none := by
  intro bytes m a b
  have hr : m.Opens 0 0 2 := ⟨"flags", rfl⟩
  have hr' : m.Opens 1 0 8 := ⟨"wide", rfl⟩
  have ha : m.Admits 0 a := .inl ⟨1, by decide +kernel⟩
  have hb : m.Admits 1 b := .inl ⟨0x06070405, by decide +kernel⟩
  have hdisjoint : Disjoint a.footprint b.footprint := by decide +kernel
  obtain ⟨stored, value, ⟨hstore, _, hframe, _⟩, ⟨hload, _⟩, happart⟩ :=
    accesses_keep_to_footprints hr hr' ha hb 0 0
  exact ⟨hr, hr', ha, hb, hdisjoint, stored, hstore, hframe,
    (happart hdisjoint).1.trans hload.symm⟩

end CyclicStack
