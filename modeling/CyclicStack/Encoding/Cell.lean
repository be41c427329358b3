import CyclicStack.Encoding

/-!
# Memory cells

A cell is a short list of bytes.  Reading a cell in a byte order gives a word; an
encoding picks a bit, a byte or a field out of that word, and writing puts it back
without touching the other bits.
-/

namespace CyclicStack

/-- The bytes of one memory cell, in address order. -/
abbrev Cell := List UInt8

namespace Cell

/-- The word whose least significant byte comes first. -/
def toWordLittle : Cell → Word
  | [] => 0
  | b :: rest => b.toUInt64 ||| (toWordLittle rest <<< 8)

/-- The lowest `size` bytes of a word, the least significant byte first. -/
def ofWordLittle : (size : Nat) → Word → Cell
  | 0, _ => []
  | size + 1, w => w.toUInt8 :: ofWordLittle size (w >>> 8)

/-- A cell read as one word. -/
def toWord (order : ByteOrder) (cell : Cell) : Word :=
  match order with
  | .little => toWordLittle cell
  | .big => toWordLittle cell.reverse

/-- The cell of the given size that reads as `w`, as far as it fits. -/
def ofWord (order : ByteOrder) (size : Nat) (w : Word) : Cell :=
  match order with
  | .little => ofWordLittle size w
  | .big => (ofWordLittle size w).reverse

/-- Cells have one, two, four or eight bytes. -/
def checkSize (size : Nat) : Except EncodingError Unit :=
  if size = 1 ∨ size = 2 ∨ size = 4 ∨ size = 8 then .ok ()
  else .error (.invalidCellSize size)

/-- The number of sub-indices of an encoding on cells of the given size: one for each
bit, one for each byte, and a single one for wider fields, which have to fit the
cell. -/
def subIndexLimit (size : Nat) (e : Encoding) : Except EncodingError Nat :=
  if e.isBit then .ok (size * 8)
  else if e = .byte then .ok size
  else if size * 8 < e.width then .error (.unsupportedWidth e.width size)
  else .ok 1

/-- Whether an encoding and a sub-index fit cells of the given size. -/
def checkAccess (size : Nat) (e : Encoding) (sub : Nat) :
    Except EncodingError Unit := do
  checkSize size
  let limit ← subIndexLimit size e
  if sub < limit then .ok () else .error (.subIndexOutOfRange sub limit)

/-- The value of a field, without the access check. -/
def field (cell : Cell) (e : Encoding) (sub : Nat) : Word :=
  let whole := cell.toWord e.order
  if e.isBit then (whole >>> UInt64.ofNat sub) &&& 1
  else if e = .byte then (cell.getD sub 0).toUInt64
  else e.reorder (e.truncate whole)

/-- The cell with a field replaced, without the access check.  All other bits stay.  A
field that fills its cell is written without reading the cell. -/
def setField (cell : Cell) (e : Encoding) (sub : Nat) (value : Word) : Cell :=
  if e.isBit then
    let whole := cell.toWord e.order
    let bit : Word := 1 <<< UInt64.ofNat sub
    ofWord e.order cell.length
      (if value.isTrue then whole ||| bit else whole &&& ~~~bit)
  else if e = .byte then cell.set sub value.toUInt8
  else
    let updated := e.reorder (e.truncate value)
    if e.width = cell.length * 8 then ofWord e.order cell.length updated
    else ofWord e.order cell.length ((cell.toWord e.order &&& ~~~e.mask) ||| updated)

def decode (cell : Cell) (e : Encoding) (sub : Nat) : Except EncodingError Word := do
  checkAccess cell.length e sub
  return cell.field e sub

def encode (cell : Cell) (e : Encoding) (sub : Nat) (value : Word) :
    Except EncodingError Cell := do
  checkAccess cell.length e sub
  return cell.setField e sub value

end Cell

end CyclicStack
