import CyclicStack.Proofs.Memory.Footprint

/-!
# Bounds of windows

An access through a window succeeds exactly if its cell is a whole cell of the segment
and its encoding and sub-index suit the cell.  The cell is checked first, and loads and
stores fail alike.

Addresses have 64 bits, and a segment has no access outside its bytes: an address that
wrapped would hit other bytes, and a range that ends outside would be a fault.  The same
accesses are therefore spelled out with addresses of 64 bits and with faults.  Since the
cell is checked before its address is computed, neither a wrap nor a fault ever happens,
and the accesses are those of unbounded addresses.
-/

namespace CyclicStack

namespace Window

/-! ## Accesses with addresses of 64 bits -/

/-- A range of bytes that a segment gives access to.  The end of the range is an address
like any other, so it may wrap. -/
def Accessible (bytes : Bytes) (first count : Word) : Prop :=
  first ≤ first + count ∧ (first + count).toNat ≤ bytes.length

instance (bytes : Bytes) (first count : Word) :
    Decidable (Accessible bytes first count) :=
  inferInstanceAs (Decidable (_ ∧ _))

/-- Reads a range of bytes.  There is no result if the range is out of bounds. -/
def read? (bytes : Bytes) (first count : Word) : Option Bytes :=
  if Accessible bytes first count then some ((bytes.drop first.toNat).take count.toNat)
  else none

/-- Writes a range of bytes.  There is no result if the range is out of bounds. -/
def write? (bytes : Bytes) (first : Word) (patch : Bytes) : Option Bytes :=
  if Accessible bytes first (UInt64.ofNat patch.length) then
    some (overwrite bytes first.toNat patch)
  else none

def addressOf (cellSize cell : Nat) : Word :=
  UInt64.ofNat cell * UInt64.ofNat cellSize

/-- Loads a field of a cell by the address of the cell.  There is no result if the bytes
are out of bounds. -/
def load? (cellSize : Nat) (bytes : Bytes) (cell : Nat) (e : Encoding)
    (sub : Option Nat) :
    Option (Except Failure Word) :=
  match checkCell (cells cellSize bytes) cell with
  | .error failure => some (.error failure)
  | .ok _ => do
    let content ← read? bytes (addressOf cellSize cell) (UInt64.ofNat cellSize)
    return liftEncoding (Cell.decode content e (sub.getD 0))

/-- Stores a field of a cell by the address of the cell.  There is no result if the
bytes are out of bounds. -/
def store? (cellSize cell : Nat) (e : Encoding) (sub : Option Nat) (value : Word)
    (bytes : Bytes) :
    Option (EStateM.Result Failure Bytes Unit) :=
  match checkCell (cells cellSize bytes) cell with
  | .error failure => some (.error failure bytes)
  | .ok _ => do
    let content ← read? bytes (addressOf cellSize cell) (UInt64.ofNat cellSize)
    match liftEncoding (Cell.encode content e (sub.getD 0) value) with
    | .error failure => return .error failure bytes
    | .ok updated => return .ok () (← write? bytes (addressOf cellSize cell) updated)

section

variable {cellSize cell : Nat} {bytes : Bytes} {e : Encoding} {sub : Option Nat}
  {value : Word}

theorem cell_end_lt (hlength : bytes.length < 2 ^ 64)
    (h : cell < cells cellSize bytes) :
    cell * cellSize + cellSize < 2 ^ 64 :=
  (cell_end_le h).trans_lt hlength

theorem toNat_cellSize (hlength : bytes.length < 2 ^ 64)
    (h : cell < cells cellSize bytes) :
    (UInt64.ofNat cellSize).toNat = cellSize := by
  have hend := cell_end_lt hlength h
  exact UInt64.toNat_ofNat_of_lt' (show cellSize < 2 ^ 64 by omega)

/-- The address of a cell within range does not wrap. -/
theorem toNat_addressOf (hlength : bytes.length < 2 ^ 64)
    (h : cell < cells cellSize bytes) :
    (addressOf cellSize cell).toNat = cell * cellSize := by
  have hend := cell_end_lt hlength h
  have hcell : cell < 2 ^ 64 := h.trans_le ((Nat.div_le_self _ _).trans hlength.le)
  rw [addressOf, UInt64.toNat_mul, UInt64.toNat_ofNat_of_lt' hcell,
    toNat_cellSize hlength h]
  exact Nat.mod_eq_of_lt (by omega)

theorem accessible_cell (hlength : bytes.length < 2 ^ 64)
    (h : cell < cells cellSize bytes) :
    Accessible bytes (addressOf cellSize cell) (UInt64.ofNat cellSize) := by
  have hend := cell_end_lt hlength h
  have hsum : (addressOf cellSize cell + UInt64.ofNat cellSize).toNat =
      cell * cellSize + cellSize := by
    rw [UInt64.toNat_add, toNat_addressOf hlength h, toNat_cellSize hlength h]
    exact Nat.mod_eq_of_lt hend
  refine ⟨?_, hsum.trans_le (cell_end_le h)⟩
  rw [UInt64.le_iff_toNat_le, hsum, toNat_addressOf hlength h]
  omega

theorem read?_cell (hlength : bytes.length < 2 ^ 64) (h : cell < cells cellSize bytes) :
    read? bytes (addressOf cellSize cell) (UInt64.ofNat cellSize) =
      some (cellAt cellSize bytes cell) := by
  rw [read?, if_pos (accessible_cell hlength h), toNat_addressOf hlength h,
    toNat_cellSize hlength h, cellAt]

theorem write?_cell (hlength : bytes.length < 2 ^ 64) (h : cell < cells cellSize bytes)
    {patch : Bytes} (hpatch : patch.length = cellSize) :
    write? bytes (addressOf cellSize cell) patch =
      some (overwrite bytes (cell * cellSize) patch) := by
  rw [write?, hpatch, if_pos (accessible_cell hlength h), toNat_addressOf hlength h]

theorem load?_eq_some (hlength : bytes.length < 2 ^ 64) :
    load? cellSize bytes cell e sub = some (load cellSize bytes cell e sub) := by
  by_cases h : cell < cells cellSize bytes
  · simp only [load?, load, checkCell_of_lt h, read?_cell hlength h]
    rfl
  · simp only [load?, load, checkCell_of_le (not_lt.mp h)]
    rfl

theorem store?_eq_some (hlength : bytes.length < 2 ^ 64) :
    store? cellSize cell e sub value bytes =
      some (store cellSize cell e sub value bytes) := by
  by_cases h : cell < cells cellSize bytes
  · simp only [store?, store, checkCell_of_lt h, read?_cell hlength h,
      Option.bind_eq_bind, Option.bind_some]
    cases hencode : (cellAt cellSize bytes cell).encode e (sub.getD 0) value with
    | error _ => rfl
    | ok updated =>
        have hpatch : updated.length = cellSize := by
          rw [Cell.length_encode hencode, length_cellAt h]
        simp only [liftEncoding, write?_cell hlength h hpatch, Option.bind_some]
        rfl
  · simp only [store?, store, checkCell_of_le (not_lt.mp h)]

/-! ## Which accesses succeed, and how the others fail -/

theorem load_of_refused (h : cell < cells cellSize bytes) {error : EncodingError}
    (haccess : Cell.checkAccess cellSize e (sub.getD 0) = .error error) :
    load cellSize bytes cell e sub = .error (.encoding error) := by
  have hdecode : (cellAt cellSize bytes cell).decode e (sub.getD 0) = .error error :=
    Cell.decode_of_refused (by rwa [length_cellAt h])
  simp only [load, checkCell_of_lt h, hdecode]
  rfl

theorem store_of_refused (h : cell < cells cellSize bytes) {error : EncodingError}
    (haccess : Cell.checkAccess cellSize e (sub.getD 0) = .error error) :
    store cellSize cell e sub value bytes = .error (.encoding error) bytes := by
  have hencode : (cellAt cellSize bytes cell).encode e (sub.getD 0) value =
      .error error :=
    Cell.encode_of_refused (by rwa [length_cellAt h]) value
  simp only [store, checkCell_of_lt h, hencode]
  rfl

theorem exists_load_iff :
    (∃ w, load cellSize bytes cell e sub = .ok w) ↔
      cell < cells cellSize bytes ∧
        Cell.checkAccess cellSize e (sub.getD 0) = .ok () := by
  constructor
  · rintro ⟨w, hload⟩
    have hvalid := Access.valid_of_load (a := ⟨cellSize, cell, e, sub⟩) hload
    exact ⟨hvalid.cell_lt, hvalid.checked⟩
  · rintro ⟨hcell, haccess⟩
    exact ⟨_, load_of_lt hcell haccess⟩

theorem exists_store_iff :
    (∃ bytes', store cellSize cell e sub value bytes = .ok () bytes') ↔
      cell < cells cellSize bytes ∧
        Cell.checkAccess cellSize e (sub.getD 0) = .ok () := by
  constructor
  · rintro ⟨bytes', hstore⟩
    have hvalid := Access.valid_of_store (a := ⟨cellSize, cell, e, sub⟩) hstore
    exact ⟨hvalid.cell_lt, hvalid.checked⟩
  · rintro ⟨hcell, haccess⟩
    exact ⟨_, store_of_lt hcell haccess value⟩

/-- A load and a store of the same field fail for the same reason. -/
theorem load_eq_error_iff {failure : Failure} :
    load cellSize bytes cell e sub = .error failure ↔
      store cellSize cell e sub value bytes = .error failure bytes := by
  by_cases hcell : cell < cells cellSize bytes
  · cases haccess : Cell.checkAccess cellSize e (sub.getD 0) with
    | ok _ => simp [load_of_lt hcell haccess, store_of_lt hcell haccess]
    | error _ => simp [load_of_refused hcell haccess, store_of_refused hcell haccess]
  · simp [load_of_le (not_lt.mp hcell), store_of_le (not_lt.mp hcell)]

end

/-- A load or a store through a window succeeds exactly if the segment has the whole
cell and the encoding and the sub-index suit it; a cell outside is reported whatever the
encoding.  Both fail for the same reason, and a store that fails changes no byte.  The
bytes of a cell that is accessed lie within the segment, and accesses by addresses of 64
bits, which could wrap or leave the segment, have the same results. -/
theorem window_bounds_are_exact {bytes : Bytes} (hlength : bytes.length < 2 ^ 64)
    (cellSize cell : Nat) (e : Encoding) (sub : Option Nat) (value : Word) :
    ((∃ w, load cellSize bytes cell e sub = .ok w) ↔
      cell < bytes.length / cellSize ∧
        Cell.checkAccess cellSize e (sub.getD 0) = .ok ()) ∧
    ((∃ bytes', store cellSize cell e sub value bytes = .ok () bytes') ↔
      cell < bytes.length / cellSize ∧
        Cell.checkAccess cellSize e (sub.getD 0) = .ok ()) ∧
    (bytes.length / cellSize ≤ cell →
      load cellSize bytes cell e sub =
        .error (.cellOutOfRange cell (bytes.length / cellSize)) ∧
      store cellSize cell e sub value bytes =
        .error (.cellOutOfRange cell (bytes.length / cellSize)) bytes) ∧
    (∀ failure, load cellSize bytes cell e sub = .error failure ↔
      ∃ bytes', store cellSize cell e sub value bytes = .error failure bytes') ∧
    (∀ failure bytes', store cellSize cell e sub value bytes = .error failure bytes' →
      bytes' = bytes) ∧
    (cell < bytes.length / cellSize →
      cell * cellSize + cellSize ≤ bytes.length ∧ cell * cellSize + cellSize < 2 ^ 64) ∧
    load? cellSize bytes cell e sub = some (load cellSize bytes cell e sub) ∧
    store? cellSize cell e sub value bytes =
      some (store cellSize cell e sub value bytes) := by
  have hatomic : ∀ failure bytes', store cellSize cell e sub value bytes =
      .error failure bytes' →
        bytes' = bytes := store_atomic cellSize cell e sub value bytes
  refine ⟨exists_load_iff, exists_store_iff, fun hcell =>
    ⟨load_of_le hcell, store_of_le hcell value⟩, fun failure => ?_, hatomic, fun hcell =>
      ⟨cell_end_le hcell, cell_end_lt hlength hcell⟩,
    load?_eq_some hlength, store?_eq_some hlength⟩
  constructor
  · intro hload
    exact ⟨bytes, load_eq_error_iff.mp hload⟩
  · rintro ⟨bytes', hstore⟩
    obtain rfl := hatomic failure bytes' hstore
    exact load_eq_error_iff.mpr hstore

/-- Two cells of four bytes, with three bytes left over.  The address of the second
access wraps to zero. -/
theorem window_bounds_are_exact_leftover_bytes :
    ([0, 1, 2, 3, 4, 5, 6, 7, 8, 9, 10] : Bytes).length < 2 ^ 64 ∧
    (∃ w, load 4 [0, 1, 2, 3, 4, 5, 6, 7, 8, 9, 10] 1 .be16 none = .ok w) ∧
    load 4 [0, 1, 2, 3, 4, 5, 6, 7, 8, 9, 10] 0x4000000000000000 .le64 none =
      .error (.cellOutOfRange 0x4000000000000000 2) := by
  have hlength : ([0, 1, 2, 3, 4, 5, 6, 7, 8, 9, 10] : Bytes).length < 2 ^ 64 := by
    decide
  refine ⟨hlength, ?_, ?_⟩
  · exact (window_bounds_are_exact hlength 4 1 .be16 none 0).1.mpr ⟨by decide, rfl⟩
  · exact ((window_bounds_are_exact hlength 4 0x4000000000000000 .le64 none 0).2.2.1
      (by decide)).1

end Window

end CyclicStack
