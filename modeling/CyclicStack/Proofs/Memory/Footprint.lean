import CyclicStack.Proofs.Memory.Access

/-!
# Footprints of memory accesses

A store reads and rewrites a whole cell, but of the bits of the segment it changes only
those of the field, and a load looks at no others.  These bits are the footprint of the
access.  Windows with cells of different sizes can lie on one segment, so footprints are
sets of bits of the segment and not of a cell; two accesses whose footprints are
disjoint do not notice each other.

The footprint is given by the bytes of the cell in address order.  The codec describes a
field by positions in the row of bits of the cell instead, which runs backwards in a
big-endian cell.  The two descriptions are shown to agree first, and the rest is read
off the description by positions.
-/

namespace CyclicStack

/-- A bit of a segment: the position of its byte, and its own position in the byte. -/
abbrev BitAddress := Nat × Fin 8

namespace Window

/-- The bit at an address.  There is none beyond the end of the segment. -/
def bitAt (bytes : Bytes) (x : BitAddress) : Bool :=
  (bytes.getD x.1 0).toBitVec.getLsbD x.2

theorem eq_of_bitAt_eq {bytes bytes' : Bytes} (hlength : bytes.length = bytes'.length)
    (h : ∀ x, bitAt bytes x = bitAt bytes' x) :
    bytes = bytes' := by
  apply List.ext_getElem hlength
  intro k hk hk'
  apply UInt8.toBitVec_inj.mp
  apply BitVec.eq_of_getLsbD_eq
  intro i hi
  simpa [bitAt, hk, hk'] using h (k, ⟨i, hi⟩)

/-- An access to a field of a cell, through a window with cells of the given size. -/
structure Access where
  cellSize : Nat
  cell : Nat
  encoding : Encoding
  sub : Option Nat := none

/-- The bytes of the cell from `start` on that hold a field of `count` bytes: the first
ones in a little-endian cell, the last ones in a big-endian cell. -/
def fieldBytes (order : ByteOrder) (cellSize start count : Nat) : Finset Nat :=
  match order with
  | .little => Finset.Ico start (start + count)
  | .big => Finset.Ico (start + (cellSize - count)) (start + cellSize)

namespace Access

def start (a : Access) : Nat :=
  a.cell * a.cellSize

/-- A missing sub-index is the first one. -/
def index (a : Access) : Nat :=
  a.sub.getD 0

/-- The bits of the segment that an access touches. -/
def footprint (a : Access) : Finset BitAddress :=
  match a.encoding with
  | .byte => {a.start + a.index} ×ˢ Finset.univ
  | .le1 => {(a.start + a.index / 8, Fin.ofNat 8 a.index)}
  | .be1 => {(a.start + (a.cellSize - 1 - a.index / 8), Fin.ofNat 8 a.index)}
  | e => fieldBytes e.order a.cellSize a.start (e.width / 8) ×ˢ Finset.univ

/-- The cell lies within the segment, and the encoding and the sub-index suit the
cell. -/
structure Valid (a : Access) (bytes : Bytes) : Prop where
  cell_lt : a.cell < cells a.cellSize bytes
  checked : Cell.checkAccess a.cellSize a.encoding a.index = .ok ()

end Access

/-! ## Addresses of the bits of a cell -/

/-- The byte of a cell that comes `k`-th in a byte order, the least significant one
first. -/
def byteAt (order : ByteOrder) (cellSize k : Nat) : Nat :=
  match order with
  | .little => k
  | .big => cellSize - 1 - k

theorem byteAt_lt (order : ByteOrder) {cellSize k : Nat} (hk : k < cellSize) :
    byteAt order cellSize k < cellSize := by
  cases order with
  | little => exact hk
  | big => rw [byteAt]; omega

theorem byteAt_byteAt {order : ByteOrder} {cellSize k : Nat} (hk : k < cellSize) :
    byteAt order cellSize (byteAt order cellSize k) = k := by
  cases order with
  | little => rfl
  | big => simp only [byteAt]; omega

theorem getD_ascending (order : ByteOrder) (cell : Cell) {k : Nat}
    (hk : k < cell.length) :
    (Cell.ascending order cell).getD k 0 =
      cell.getD (byteAt order cell.length k) 0 := by
  cases order with
  | little => rfl
  | big => simp [Cell.ascending, byteAt, List.getElem?_reverse hk]

theorem getD_cellAt {cellSize cell : Nat} {bytes : Bytes} {k : Nat}
    (hk : k < cellSize) :
    (cellAt cellSize bytes cell).getD k 0 = bytes.getD (cell * cellSize + k) 0 := by
  simp [cellAt, List.getElem?_take_of_lt hk]

theorem mem_fieldBytes_iff {order : ByteOrder} {cellSize start count byte : Nat}
    (h : count ≤ cellSize) :
    byte ∈ fieldBytes order cellSize start count ↔
      ∃ k < count, start + byteAt order cellSize k = byte := by
  cases order with
  | little =>
      simp only [fieldBytes, byteAt, Finset.mem_Ico]
      constructor
      · rintro ⟨hstart, hend⟩
        exact ⟨byte - start, by omega, by omega⟩
      · rintro ⟨k, hk, rfl⟩
        omega
  | big =>
      simp only [fieldBytes, byteAt, Finset.mem_Ico]
      constructor
      · rintro ⟨hstart, hend⟩
        exact ⟨start + cellSize - 1 - byte, by omega, by omega⟩
      · rintro ⟨k, hk, rfl⟩
        omega

namespace Access

/-- Where bit `j` of the row of bits of the cell lies in the segment. -/
def address (a : Access) (j : Nat) : BitAddress :=
  (a.start + byteAt a.encoding.order a.cellSize (j / 8), Fin.ofNat 8 j)

variable {a b : Access} {bytes other : Bytes}

theorem address_eq_iff {k : Nat} {x : BitAddress} :
    a.address (8 * k + x.2) = x ↔
      a.start + byteAt a.encoding.order a.cellSize k = x.1 := by
  have hdiv : (8 * k + x.2.val) / 8 = k := by omega
  have hmod : Fin.ofNat 8 (8 * k + x.2.val) = x.2 := by
    apply Fin.ext
    change (8 * k + x.2.val) % 8 = x.2
    omega
  rw [address, hdiv, hmod, Prod.ext_iff]
  exact and_iff_left rfl

/-- Every bit of the bytes of the cell is in the row of bits of the cell. -/
theorem exists_address {x : BitAddress} (hstart : a.start ≤ x.1)
    (hend : x.1 < a.start + a.cellSize) :
    ∃ j < 8 * a.cellSize, a.address j = x := by
  have hk : x.1 - a.start < a.cellSize := by omega
  have hlt := byteAt_lt a.encoding.order hk
  refine ⟨8 * byteAt a.encoding.order a.cellSize (x.1 - a.start) + x.2, by omega, ?_⟩
  rw [address_eq_iff, byteAt_byteAt hk]
  omega

/-- The bits of a wide field, in whatever order its registers come, are all bits of its
bytes. -/
theorem exists_address_register_iff
    (hwidth : a.encoding.width = 8 * (a.encoding.width / 8))
    {x : BitAddress} :
    (∃ i < a.encoding.width, a.address (a.encoding.register i) = x) ↔
      ∃ k < a.encoding.width / 8,
        a.start + byteAt a.encoding.order a.cellSize k = x.1 := by
  constructor
  · rintro ⟨i, hi, rfl⟩
    have hregister := a.encoding.register_lt hi
    exact ⟨a.encoding.register i / 8, by omega, rfl⟩
  · rintro ⟨k, hk, hbyte⟩
    have hi : 8 * k + x.2.val < a.encoding.width := by omega
    refine ⟨a.encoding.register (8 * k + x.2), a.encoding.register_lt hi, ?_⟩
    rw [a.encoding.register_register hi]
    exact address_eq_iff.mpr hbyte

/-- A wide field starts at the low end of its cell, so its bits are those of the bytes
there. -/
theorem mem_fieldBytes_product_iff (h : Cell.Granted a.cellSize a.encoding a.index)
    (hwidth : a.encoding.width = 8 * (a.encoding.width / 8))
    (hregister : ∀ i, a.encoding.position a.index i = a.encoding.register i)
    {x : BitAddress} :
    x ∈ fieldBytes a.encoding.order a.cellSize a.start
      (a.encoding.width / 8) ×ˢ Finset.univ ↔
      ∃ i < a.encoding.width, a.address (a.encoding.position a.index i) = x := by
  have hle : a.encoding.width / 8 ≤ a.cellSize := by
    by_contra hgt
    have hlast : a.encoding.width - 1 < a.encoding.width := by omega
    have hlt := h.position_lt _ (a.encoding.register_lt hlast)
    rw [hregister, a.encoding.register_register hlast] at hlt
    omega
  simp only [Finset.mem_product, Finset.mem_univ, and_true,
    mem_fieldBytes_iff hle, hregister, exists_address_register_iff hwidth]

/-- The footprint of a granted access consists of the addresses of the positions of its
field. -/
theorem mem_footprint_iff (h : Cell.Granted a.cellSize a.encoding a.index)
    {x : BitAddress} :
    x ∈ a.footprint ↔
      ∃ i < a.encoding.width, a.address (a.encoding.position a.index i) = x := by
  have hwide := mem_fieldBytes_product_iff h (x := x)
  obtain ⟨cellSize, cell, e, sub⟩ := a
  cases e with
  | byte =>
      simp only [footprint, Finset.mem_product, Finset.mem_singleton,
        Finset.mem_univ, and_true]
      constructor
      · intro hbyte
        exact ⟨x.2, x.2.isLt, address_eq_iff.mpr hbyte.symm⟩
      · rintro ⟨i, hi, rfl⟩
        have hi : i < 8 := hi
        exact congrArg (start _ + ·) (show (8 * index _ + i) / 8 = index _ by omega)
  | le1 | be1 =>
      simp [footprint, address, byteAt, Encoding.width, Encoding.position,
        Encoding.isBit, Encoding.order, eq_comm]
  | _ => exact hwide (by simp [Encoding.width]) fun _ => rfl

/-! ## Stores and loads of a window -/

/-- A bit of the cell is the bit of the segment at its address. -/
theorem bitAt_address (hcell : a.cell < cells a.cellSize bytes) {j : Nat}
    (hj : j < 8 * a.cellSize) :
    bitAt bytes (a.address j) =
      (cellAt a.cellSize bytes a.cell).bit a.encoding.order j := by
  have hlength := length_cellAt hcell
  have hk : j / 8 < a.cellSize := by omega
  rw [Cell.bit, getD_ascending a.encoding.order _ (by rwa [hlength]), hlength,
    getD_cellAt (byteAt_lt _ hk)]
  rfl

theorem Valid.granted (h : a.Valid bytes) :
    Cell.Granted a.cellSize a.encoding a.index :=
  Cell.granted_of_checkAccess h.checked

theorem Valid.granted_cellAt (h : a.Valid bytes) :
    Cell.Granted (cellAt a.cellSize bytes a.cell).length a.encoding a.index := by
  rw [length_cellAt h.cell_lt]
  exact h.granted

/-- Whether an access is valid depends on the length of the segment only. -/
theorem Valid.of_length_eq (h : a.Valid bytes) (hlength : other.length = bytes.length) :
    a.Valid other := by
  refine ⟨?_, h.checked⟩
  rw [cells, hlength]
  exact h.cell_lt

/-- The segment after a store through the window. -/
def stored (a : Access) (value : Word) (bytes : Bytes) : Bytes :=
  overwrite bytes a.start
    ((cellAt a.cellSize bytes a.cell).setField a.encoding a.index value)

variable {value : Word}

theorem length_setField_cellAt (h : a.Valid bytes) (value : Word) :
    ((cellAt a.cellSize bytes a.cell).setField a.encoding a.index value).length =
      a.cellSize := by
  rw [Cell.length_setField, length_cellAt h.cell_lt]

theorem length_stored (h : a.Valid bytes) (value : Word) :
    (a.stored value bytes).length = bytes.length := by
  apply length_overwrite
  rw [length_setField_cellAt h value]
  exact cell_end_le h.cell_lt

theorem cellAt_stored (h : a.Valid bytes) :
    cellAt a.cellSize (a.stored value bytes) a.cell =
      (cellAt a.cellSize bytes a.cell).setField a.encoding a.index value := by
  have htake : (bytes.take a.start).length = a.cell * a.cellSize := by
    have hend := cell_end_le h.cell_lt
    rw [List.length_take, start]
    omega
  rw [cellAt, stored, overwrite, List.append_assoc, List.drop_left' htake,
    List.take_left' (length_setField_cellAt h value)]

/-- A store changes no byte outside its cell. -/
theorem getElem?_stored_of_outside (h : a.Valid bytes) {k : Nat}
    (hk : k < a.start ∨ a.start + a.cellSize ≤ k) :
    (a.stored value bytes)[k]? = bytes[k]? := by
  have hend : a.start + a.cellSize ≤ bytes.length := cell_end_le h.cell_lt
  have htake : (bytes.take a.start).length = a.start := by
    rw [List.length_take]
    omega
  have hlength := length_setField_cellAt h value
  rw [stored, overwrite, List.append_assoc]
  rcases hk with hk | hk
  · rw [List.getElem?_append_left (by omega), List.getElem?_take_of_lt hk]
  · rw [List.getElem?_append_right (by omega), List.getElem?_append_right (by omega),
      List.getElem?_drop]
    congr 1
    omega

/-- A store puts the bits of the value, as far as the field keeps it, at the addresses
of the field. -/
theorem bitAt_stored_position (h : a.Valid bytes) {i : Nat}
    (hi : i < a.encoding.width) :
    bitAt (a.stored value bytes) (a.address (a.encoding.position a.index i)) =
      (a.encoding.kept value).bit i := by
  have hafter := h.of_length_eq (length_stored h value)
  rw [bitAt_address hafter.cell_lt (h.granted.position_lt i hi), cellAt_stored h,
    Cell.bit_setField_position value h.granted_cellAt hi]

/-- A store changes no bit outside its footprint. -/
theorem bitAt_stored_of_not_mem (h : a.Valid bytes) {x : BitAddress}
    (hx : x ∉ a.footprint) :
    bitAt (a.stored value bytes) x = bitAt bytes x := by
  by_cases hin : a.start ≤ x.1 ∧ x.1 < a.start + a.cellSize
  · obtain ⟨j, hj, rfl⟩ := exists_address hin.1 hin.2
    have hafter := h.of_length_eq (length_stored h value)
    have hout : ∀ i < a.encoding.width, a.encoding.position a.index i ≠ j := by
      rintro i hi rfl
      exact hx ((mem_footprint_iff h.granted).mpr ⟨i, hi, rfl⟩)
    rw [bitAt_address hafter.cell_lt hj, bitAt_address h.cell_lt hj, cellAt_stored h,
      Cell.bit_setField_of_ne value h.granted_cellAt hout]
  · have houtside : x.1 < a.start ∨ a.start + a.cellSize ≤ x.1 := by omega
    simp only [bitAt, List.getD_eq_getElem?_getD, getElem?_stored_of_outside h houtside]

/-- What a store leaves within its footprint does not depend on what was there. -/
theorem bitAt_stored_congr (h : a.Valid bytes) (hother : a.Valid other) {x : BitAddress}
    (hx : x ∈ a.footprint) :
    bitAt (a.stored value bytes) x = bitAt (a.stored value other) x := by
  obtain ⟨i, hi, rfl⟩ := (mem_footprint_iff h.granted).mp hx
  rw [bitAt_stored_position h hi, bitAt_stored_position hother hi]

/-- Every bit of the footprint is cleared by a store of zero and set by a store of
ones. -/
theorem bitAt_stored_of_mem (h : a.Valid bytes) {x : BitAddress}
    (hx : x ∈ a.footprint) :
    bitAt (a.stored 0 bytes) x = false ∧ bitAt (a.stored (~~~0) bytes) x = true := by
  obtain ⟨i, hi, rfl⟩ := (mem_footprint_iff h.granted).mp hx
  rw [bitAt_stored_position h hi, bitAt_stored_position h hi]
  unfold Encoding.kept
  split_ifs with hbit
  · have hone : a.encoding.width = 1 := by
      cases hcase : a.encoding <;> simp_all [Encoding.isBit, Encoding.width]
    obtain rfl : i = 0 := by omega
    decide
  · have hle : a.encoding.width ≤ 64 := by cases a.encoding <;> decide
    constructor
    · simp [Encoding.bit_truncate]
    · rw [Encoding.bit_truncate, Word.bit_not 0 (by omega), Word.bit_zero,
        decide_eq_true hi]
      rfl

/-- A load depends on the bits of its footprint only. -/
theorem field_congr (h : a.Valid bytes) (hother : a.Valid other)
    (hsame : ∀ x ∈ a.footprint, bitAt other x = bitAt bytes x) :
    (cellAt a.cellSize other a.cell).field a.encoding a.index =
      (cellAt a.cellSize bytes a.cell).field a.encoding a.index := by
  apply Word.eq_of_bit_eq
  intro i _
  rw [Cell.bit_field hother.granted_cellAt, Cell.bit_field h.granted_cellAt]
  by_cases hi : i < a.encoding.width
  · have hposition := h.granted.position_lt i hi
    rw [← bitAt_address hother.cell_lt hposition, ← bitAt_address h.cell_lt hposition,
      hsame _ ((mem_footprint_iff h.granted).mpr ⟨i, hi, rfl⟩)]
  · simp [hi]

/-- Stores with disjoint footprints commute, also through windows with cells of
different sizes. -/
theorem stored_comm {v w : Word} (ha : a.Valid bytes) (hb : b.Valid bytes)
    (hdisjoint : Disjoint a.footprint b.footprint) :
    b.stored w (a.stored v bytes) = a.stored v (b.stored w bytes) := by
  have hb' := hb.of_length_eq (length_stored ha v)
  have ha' := ha.of_length_eq (length_stored hb w)
  apply eq_of_bitAt_eq
  · rw [length_stored hb' w, length_stored ha v, length_stored ha' v,
      length_stored hb w]
  intro x
  -- a bit belongs to the footprint of the one, of the other, or of neither
  by_cases hx : x ∈ a.footprint
  · rw [bitAt_stored_of_not_mem hb' (Finset.disjoint_left.mp hdisjoint hx),
      bitAt_stored_congr ha ha' hx]
  · rw [bitAt_stored_of_not_mem ha' hx]
    by_cases hy : x ∈ b.footprint
    · exact bitAt_stored_congr hb' hb hy
    · rw [bitAt_stored_of_not_mem hb' hy, bitAt_stored_of_not_mem ha hx,
        bitAt_stored_of_not_mem hb hy]

/-! ## Accesses that succeed -/

theorem Valid.load_eq (h : a.Valid bytes) :
    load a.cellSize bytes a.cell a.encoding a.sub =
      .ok ((cellAt a.cellSize bytes a.cell).field a.encoding a.index) :=
  load_of_lt h.cell_lt h.checked

theorem Valid.store_eq (h : a.Valid bytes) (value : Word) :
    store a.cellSize a.cell a.encoding a.sub value bytes =
      .ok () (a.stored value bytes) :=
  store_of_lt h.cell_lt h.checked value

/-- A load that succeeds is valid: the cell is checked first, and then the encoding. -/
theorem valid_of_load (h : load a.cellSize bytes a.cell a.encoding a.sub = .ok value) :
    a.Valid bytes := by
  obtain ⟨_, hcell, h⟩ := bind_eq_ok_iff.mp h
  have hlt := lt_of_checkCell hcell
  obtain ⟨_, hchecked, _⟩ := bind_eq_ok_iff.mp (liftEncoding_eq_ok_iff.mp h)
  rw [length_cellAt hlt] at hchecked
  exact ⟨hlt, hchecked⟩

theorem valid_of_store
    (h : store a.cellSize a.cell a.encoding a.sub value bytes = .ok () other) :
    a.Valid bytes := by
  unfold store at h
  split at h
  · cases h
  · next hcell =>
    have hlt := lt_of_checkCell hcell
    split at h
    · cases h
    · next hencode =>
      obtain ⟨_, hchecked, _⟩ := bind_eq_ok_iff.mp (liftEncoding_eq_ok_iff.mp hencode)
      rw [length_cellAt hlt] at hchecked
      exact ⟨hlt, hchecked⟩

end Access

end Window

end CyclicStack
