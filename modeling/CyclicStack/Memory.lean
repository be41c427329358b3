import CyclicStack.Memory.Words

/-!
# Memory

The memory of a program is a list of named regions.  A private region is a row of words
that only the program sees.  A shared region is a window on a segment; several regions,
also of different cell sizes, can lie on one segment, and others may write into the
segment between two instructions.
-/

namespace CyclicStack

/-- A named segment of bytes that is shared with others. -/
structure Segment where
  name : String
  bytes : Bytes
deriving DecidableEq, Repr

/-- Where the cells of a region are. -/
inductive Storage where
  /-- Words that only the program sees. -/
  | owned (words : Words)
  /-- Cells of the given size on the segment of the given position. -/
  | shared (segment cellSize : Nat)
deriving DecidableEq, Repr

/-- A named region of memory. -/
structure Region where
  name : String
  storage : Storage
deriving DecidableEq, Repr

/-- All regions of a program and the segments below them. -/
structure Memory where
  segments : Array Segment := #[]
  regions : Array Region := #[]
deriving DecidableEq, Repr

namespace Memory

/-- The bytes of a segment, none for a position without segment. -/
def segmentBytes (m : Memory) (segment : Nat) : Bytes :=
  match m.segments[segment]? with
  | some s => s.bytes
  | none => []

def setSegmentBytes (m : Memory) (segment : Nat) (bytes : Bytes) : Memory :=
  { m with segments := m.segments.modify segment fun s => { s with bytes } }

def segmentIndex? (m : Memory) (name : String) : Option Nat :=
  m.segments.findIdx? (·.name == name)

def regionIndex? (m : Memory) (name : String) : Option Nat :=
  m.regions.findIdx? (·.name == name)

def cells (m : Memory) : Storage → Nat
  | .owned words => words.cells
  | .shared segment cellSize => Window.cells cellSize (m.segmentBytes segment)

/-- Loads a field of a cell of a region. -/
def load (m : Memory) (region cell : Nat) (e : Encoding) (sub : Option Nat) :
    Except Failure Word :=
  match m.regions[region]? with
  | none => .error (.missingRegion region)
  | some ⟨_, .owned words⟩ => words.load cell sub
  | some ⟨_, .shared segment cellSize⟩ =>
    Window.load cellSize (m.segmentBytes segment) cell e sub

def setWords (m : Memory) (region : Nat) (words : Words) : Memory :=
  { m with
    regions := m.regions.modify region fun r => { r with storage := .owned words } }

/-- Stores a field of a cell of a region. -/
def store (region cell : Nat) (e : Encoding) (sub : Option Nat) (value : Word) :
    Action Memory Unit := fun m =>
  match m.regions[region]? with
  | none => .error (.missingRegion region) m
  | some ⟨_, .owned words⟩ =>
    Action.zoom (fun _ => words) (fun words m => m.setWords region words)
      (Words.store cell e sub value) m
  | some ⟨_, .shared segment cellSize⟩ =>
    Action.zoom (segmentBytes · segment)
      (fun bytes m => m.setSegmentBytes segment bytes)
      (Window.store cellSize cell e sub value) m

/-- Others write into a segment: the bytes from `offset` on are overwritten.  The
segment keeps its length. -/
def poke (m : Memory) (segment offset : Nat) (patch : Bytes) : Memory :=
  let bytes := m.segmentBytes segment
  m.setSegmentBytes segment ((Window.overwrite bytes offset patch).take bytes.length)

end Memory

end CyclicStack
