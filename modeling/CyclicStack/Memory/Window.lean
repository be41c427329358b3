import CyclicStack.Failure
import CyclicStack.Encoding.Cell

/-!
# Windows on byte segments

A window divides a segment of bytes into cells of equal size, from its start; bytes that
do not fill a last cell are out of reach.  Loading and storing go through the cell
codec.
-/

namespace CyclicStack

/-- The bytes of a segment, in address order. -/
abbrev Bytes := List UInt8

/-- A complaint of the cell codec as a failure of a memory access. -/
def liftEncoding {α : Type} : Except EncodingError α → Except Failure α
  | .ok a => .ok a
  | .error e => .error (.encoding e)

/-- Fails if a cell lies outside a region of `cells` cells. -/
def checkCell (cells cell : Nat) : Except Failure Unit :=
  if cell < cells then .ok () else .error (.cellOutOfRange cell cells)

namespace Window

def cells (cellSize : Nat) (bytes : Bytes) : Nat :=
  bytes.length / cellSize

def cellAt (cellSize : Nat) (bytes : Bytes) (cell : Nat) : Cell :=
  (bytes.drop (cell * cellSize)).take cellSize

/-- The bytes of a segment with those from `offset` on overwritten by `patch`. -/
def overwrite (bytes : Bytes) (offset : Nat) (patch : Bytes) : Bytes :=
  bytes.take offset ++ patch ++ bytes.drop (offset + patch.length)

/-- Loads a field of a cell.  A missing sub-index is the first one. -/
def load (cellSize : Nat) (bytes : Bytes) (cell : Nat) (e : Encoding)
    (sub : Option Nat) :
    Except Failure Word := do
  checkCell (cells cellSize bytes) cell
  liftEncoding ((cellAt cellSize bytes cell).decode e (sub.getD 0))

def store (cellSize : Nat) (cell : Nat) (e : Encoding) (sub : Option Nat)
    (value : Word) :
    Action Bytes Unit := fun bytes =>
  match checkCell (cells cellSize bytes) cell with
  | .error failure => .error failure bytes
  | .ok _ =>
    match liftEncoding ((cellAt cellSize bytes cell).encode e (sub.getD 0) value) with
    | .error failure => .error failure bytes
    | .ok updated => .ok () (overwrite bytes (cell * cellSize) updated)

end Window

end CyclicStack
