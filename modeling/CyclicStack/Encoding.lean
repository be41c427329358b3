import CyclicStack.Word

/-!
# Field encodings

An encoding says how a value lies in a memory cell: how many bits it has, in which byte
order, and whether its 16-bit or 32-bit registers come in reverse order.  Bits and bytes
are picked out of a cell by a sub-index; the wider fields start at the low end of the
cell.
-/

namespace CyclicStack

/-- How a value lies in a memory cell.  The letters give the byte order, the number the
width in bits; a final `r` reverses the 16-bit registers of the field and `r4` its
32-bit registers. -/
inductive Encoding where
  | le1 | be1 | byte
  | le16 | be16
  | le32 | be32 | le32r | be32r
  | le64 | be64 | le64r | be64r | le64r4 | be64r4
deriving DecidableEq, Repr

/-- Which byte of a cell is the least significant one: the first or the last. -/
inductive ByteOrder where
  | little
  | big
deriving DecidableEq, Repr

/-- The order of the registers of a field. -/
inductive RegisterOrder where
  | natural
  | reversed16
  | reversed32
deriving DecidableEq, Repr

/-- Why an encoding cannot be used on a cell. -/
inductive EncodingError where
  | unknownEncoding (tag : String)
  | invalidCellSize (bytes : Nat)
  | unsupportedWidth (bits cellSize : Nat)
  | subIndexOutOfRange (index limit : Nat)
deriving DecidableEq, Repr

namespace EncodingError

def message : EncodingError → String
  | .unknownEncoding tag => s!"Unknown encoding: {tag}"
  | .invalidCellSize bytes => s!"Invalid cell size: {bytes} bytes (valid: 1, 2, 4, 8)"
  | .unsupportedWidth bits cellSize =>
    s!"Unsupported width: {bits}-bit access on {cellSize}-byte cells"
  | .subIndexOutOfRange index limit =>
    s!"Sub-index out of range: {index} (limit {limit})"

end EncodingError

namespace Encoding

def all : List Encoding :=
  [.le1, .be1, .byte, .le16, .be16, .le32, .be32, .le32r, .be32r,
    .le64, .be64, .le64r, .be64r, .le64r4, .be64r4]

def tag : Encoding → String
  | .le1 => "le1"
  | .be1 => "be1"
  | .byte => "byte"
  | .le16 => "le16"
  | .be16 => "be16"
  | .le32 => "le32"
  | .be32 => "be32"
  | .le32r => "le32r"
  | .be32r => "be32r"
  | .le64 => "le64"
  | .be64 => "be64"
  | .le64r => "le64r"
  | .be64r => "be64r"
  | .le64r4 => "le64r4"
  | .be64r4 => "be64r4"

def ofTag? (tag : String) : Option Encoding :=
  all.find? (·.tag == tag)

/-- The encoding that a tag names, or the complaint that it names none. -/
def ofTag (tag : String) : Except EncodingError Encoding :=
  match ofTag? tag with
  | some e => .ok e
  | none => .error (.unknownEncoding tag)

/-- Width of the field in bits. -/
def width : Encoding → Nat
  | .le1 | .be1 => 1
  | .byte => 8
  | .le16 | .be16 => 16
  | .le32 | .be32 | .le32r | .be32r => 32
  | .le64 | .be64 | .le64r | .be64r | .le64r4 | .be64r4 => 64

def isBit : Encoding → Bool
  | .le1 | .be1 => true
  | _ => false

def usesSubIndex : Encoding → Bool
  | .le1 | .be1 | .byte => true
  | _ => false

def order : Encoding → ByteOrder
  | .be1 | .be16 | .be32 | .be32r | .be64 | .be64r | .be64r4 => .big
  | _ => .little

/-- The order of the registers of the field. -/
def registers : Encoding → RegisterOrder
  | .le32r | .be32r | .le64r | .be64r => .reversed16
  | .le64r4 | .be64r4 => .reversed32
  | _ => .natural

/-- The word with the low `width` bits set. -/
def mask (e : Encoding) : Word :=
  UInt64.ofNat (Nat.pow 2 e.width - 1)

/-- The low bits of a word that the field can hold. -/
def truncate (e : Encoding) (w : Word) : Word :=
  w &&& e.mask

/-- Puts the registers of a field into the opposite order.  Doing so twice gives the
field back, so the same rule serves for reading and for writing.  A 32-bit reversal
drops the upper half of a wider word. -/
def reorder (e : Encoding) (w : Word) : Word :=
  let low : Word := 0xffff
  let second : Word := 0xffff0000
  match e.registers, e.width with
  | .reversed16, 32 => (w &&& low) <<< (16 : Word) ||| w >>> (16 : Word) &&& low
  | .reversed16, 64 =>
    (w &&& low) <<< (48 : Word) ||| (w &&& second) <<< (16 : Word)
      ||| w >>> (16 : Word) &&& second ||| w >>> (48 : Word)
  | .reversed32, 64 => w <<< (32 : Word) ||| w >>> (32 : Word)
  | _, _ => w

end Encoding

end CyclicStack
