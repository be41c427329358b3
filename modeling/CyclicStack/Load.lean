import CyclicStack.Load.Assembly
import CyclicStack.SystemError

/-!
# Loading a program

A program text is divided into sections, which are interpreted in the order in which
they depend on each other, whatever their order in the text.
-/

namespace CyclicStack

namespace Load

/-- The segments that a program text can name, and why others cannot be opened. -/
structure Segments where
  existing : Array Segment := #[]
  refusal : Refusal

namespace Segments

/-- Why the system does not open a segment that does not exist.  The name has a slash in
front and no zero character, whose place is counted in bytes; what follows the slashes
in front is the name of a file, without further slashes.  A name that does not even fit
where names of segments are kept is refused as an argument, before it is looked up as a
file. -/
def systemRefusal (name : String) : String :=
  let path := if name.startsWith "/" then name else "/" ++ name
  let head := path.toList.takeWhile (· != '\x00')
  let file := path.toList.dropWhile (· == '/')
  if head.length < path.length then
    s!"nul byte found in provided data at position: {(String.ofList head).utf8ByteSize}"
  else if '/' ∈ file ∨ file = [] ∨ file = ['.'] ∨ file = ['.', '.'] ∨
      SystemError.maxSegmentNameBytes < (String.ofList file).utf8ByteSize then
    SystemError.invalidArgument.message
  else if SystemError.maxNameBytes < (String.ofList file).utf8ByteSize then
    SystemError.nameTooLong.message
  else SystemError.noEntry.message

/-- A system without shared segments. -/
def none : Segments :=
  { refusal := systemRefusal }

/-- Segments that exist only within the process. -/
def ofList (segments : List Segment) : Segments :=
  { existing := segments.toArray, refusal := fun _ => "no such segment" }

end Segments

/-- Interprets the sections in front of the program section. -/
def draft (segments : Segments) (placed : List Text.Placed) : Except Error Draft := do
  let part := Text.linesOf placed
  let settings ← settings (part .settings)
  let empty : Draft :=
    { program := { settings, memory := { segments := segments.existing } } }
  let draft ← eachLine (Draft.declareMemory segments.refusal) empty (part .memory)
  let draft ← eachLine Draft.declare draft (part .vars)
  eachLine Draft.addInit draft (part .inits)

def interpret (segments : Segments) (placed : List Text.Placed) :
    Except Error Program := do
  let draft ← draft segments placed
  let constants ← draft.constantValues.mapError fun cause => { cause }
  let names : Names := { constants, vars := draft.program.vars }
  let (code, labels) ← assemble names (Text.linesOf placed .program)
  return { draft.program with code, labels }

end Load

/-- Loads a program text. -/
def load (segments : Load.Segments) (text : String) : Except Load.Error Program := do
  let placed ← Text.sections text.toList
  Load.interpret segments placed

end CyclicStack
