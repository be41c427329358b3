import CyclicStack.Load.Settings
import CyclicStack.Program
import CyclicStack.Text.Address

/-!
# Loading the declarations

Memory regions, constants, variables and their initial values are added to a draft one
line after the other.  A name is declared once, and never a reserved one.
-/

namespace CyclicStack

namespace Load

/-- How the value of a constant is written. -/
inductive Domain where
  | unsigned
  | signed
  | floating
deriving DecidableEq, Repr

namespace Domain

def ofTag? : String → Option Domain
  | "u" => some .unsigned
  | "i" => some .signed
  | "f" => some .floating
  | _ => none

def description : Domain → String
  | .unsigned => "unsigned integer"
  | .signed => "signed integer"
  | .floating => "floating point number"

def read? : Domain → List Char → Option Word
  | .unsigned, s => Text.unsigned? s
  | .signed, s => (Text.signed? s).map Word.ofSigned
  | .floating, s => Text.double? s

end Domain

/-- A declared constant and its value, once it has one. -/
structure Constant where
  name : String
  domain : Domain
  value : Option Word := none
deriving DecidableEq, Repr

/-- What has been declared so far. -/
structure Draft where
  program : Program
  constants : List Constant := []
deriving DecidableEq, Repr

/-- Why a segment of a name cannot be opened, when it is not among those that exist. -/
abbrev Refusal := String → String

namespace Draft

def constant? (d : Draft) (name : String) : Option Constant :=
  d.constants.find? (·.name == name)

/-- Fails if a name is reserved or declared. -/
def checkNewName (d : Draft) (name : String) : Except Cause Unit :=
  if isReserved name then .error (.reservedName name)
  else if (d.constant? name).isSome then .error (.duplicateName name "constant")
  else if (d.program.variableId? name).isSome then
    .error (.duplicateName name "variable")
  else .ok ()

/-- Fails if a region of the name has been declared. -/
def checkNewRegion (d : Draft) (name : String) : Except Cause Unit :=
  if (d.program.memory.regionIndex? name).isSome then .error (.duplicateMemory name)
  else .ok ()

def addRegion (d : Draft) (name : String) (storage : Storage) : Draft :=
  { d with program := d.program.addRegion ⟨name, storage⟩ }

def declareOwned (d : Draft) (name cells : String) : Except Cause Draft := do
  d.checkNewRegion name
  let cells ← unsigned cells
  match Words.zeros? cells with
  | some words => return d.addRegion name (.owned words)
  | none => throw (.regionTooLarge cells)

def declareShared (refusal : Refusal) (d : Draft) (segment name cellSize : String) :
    Except Cause Draft := do
  d.checkNewRegion name
  let cellSize ← unsigned cellSize
  (Cell.checkSize cellSize).mapError .encoding
  match d.program.memory.segmentIndex? segment with
  | some index => return d.addRegion name (.shared index cellSize)
  | none => throw (.memory (.segment segment (refusal segment)))

/-- Reads the declaration of a region. -/
def declareMemory (refusal : Refusal) (d : Draft) (line : Text.Line) :
    Except Cause Draft :=
  match line.words with
  | ["local", name, cells] => d.declareOwned name cells
  | ["shm", segment, name, cellSize] => d.declareShared refusal segment name cellSize
  | kind :: _ =>
    if kind = "local" ∨ kind = "shm" then .error (.malformed "memory")
    else .error (.unknownMemoryKind kind)
  | [] => .error (.malformed "memory")

def addressNumber (address reason : String) (literal : List Char) : Except Cause Nat :=
  match Text.unsigned? literal with
  | some w => .ok w.toNat
  | none => .error (.invalidAddress address reason)

/-- The encoding that a tag names on a private region, where an unknown tag means a full
word and a sub-index is out of place. -/
def ownedEncoding (address tag : String) (sub : Option Nat) : Except Cause Encoding :=
  if sub.isSome then
    .error (.invalidAddress address "sub-index not allowed on local memory")
  else .ok ((Encoding.ofTag? tag).getD .le64)

/-- The encoding that a tag names on a shared region.  A bit needs a sub-index, a byte
may have one, and wider fields have none; the field must fit the cells. -/
def sharedEncoding (cellSize : Nat) (address tag : String) (sub : Option Nat) :
    Except Cause Encoding := do
  let e ← (Encoding.ofTag tag).mapError .encoding
  if e.isBit && sub.isNone then
    .error (.invalidAddress address "bit encodings require a sub-index")
  else if !e.usesSubIndex && sub.isSome then
    .error (.invalidAddress address "sub-index only allowed for bit and byte encodings")
  else
    (Cell.checkAccess cellSize e (sub.getD 0)).mapError .encoding
    return e

/-- The encoding that a tag names on the region at a position. -/
def encodingAt (d : Draft) (region : Nat) (address tag : String) (sub : Option Nat) :
    Except Cause Encoding :=
  match d.program.memory.regions[region]? with
  | some ⟨_, .shared _ cellSize⟩ => sharedEncoding cellSize address tag sub
  | _ => ownedEncoding address tag sub

/-- Reads the sub-index of an address that has one. -/
def addressSubIndex (address : String) : Option (List Char) → Except Cause (Option Nat)
  | none => .ok none
  | some sub =>
    some <$> addressNumber address "sub-index is not an unsigned integer" sub

/-- Finds the field that an address and a tag describe. -/
def locate (d : Draft) (address tag name : String) : Except Cause Variable := do
  let some parts := Text.Address.parse? address.toList
    | throw (.invalidAddress address "expected <memory>@<cell>[.<sub-index>]")
  let memory := String.ofList parts.memory
  let some region := d.program.memory.regionIndex? memory
    | throw (.unknownMemory memory)
  let cell ← addressNumber address "cell is not an unsigned integer" parts.cell
  let subIndex ← addressSubIndex address parts.sub
  let encoding ← d.encodingAt region address tag subIndex
  return { name, region, encoding, cell, subIndex }

def declareConstant (d : Draft) (tag name : String) : Except Cause Draft := do
  let some domain := Domain.ofTag? tag | throw (.unknownConstType tag)
  d.checkNewName name
  return { d with constants := d.constants ++ [{ name, domain }] }

def declareVariable (d : Draft) (address tag name : String) : Except Cause Draft := do
  let v ← d.locate address tag name
  d.checkNewName name
  return { d with program := d.program.addVariable v }

/-- Reads the declaration of a constant or a variable. -/
def declare (d : Draft) (line : Text.Line) : Except Cause Draft :=
  match line.words with
  | [first, second, name] =>
    if first = "const" then d.declareConstant second name
    else d.declareVariable first second name
  | _ => .error (.malformed "declaration")

def setConstant (d : Draft) (name : String) (value : Word) : Draft :=
  { d with
    constants := d.constants.map fun c =>
      if c.name = name then { c with value := some value } else c }

def initConstant (d : Draft) (c : Constant) (literal : String) : Except Cause Draft :=
  if c.value.isSome then .error (.duplicateInit c.name)
  else
    match c.domain.read? literal.toList with
    | some value => .ok (d.setConstant c.name value)
    | none => .error (.invalidLiteral literal c.domain.description)

def initVariable (d : Draft) (name literal : String) : Except Cause Draft := do
  let some id := d.program.variableId? name | throw (.unknownName name)
  let some value := Text.variableValue? literal.toList
    | throw (.invalidLiteral literal "number")
  let some v := d.program.vars[id]? | throw (.unknownName name)
  if v.init.isSome then throw (.duplicateInit name)
  let vars := d.program.vars.setIfInBounds id { v with init := some value }
  return { d with program := { d.program with vars } }

/-- Reads an initial value. -/
def addInit (d : Draft) (line : Text.Line) : Except Cause Draft :=
  match line.words with
  | [name, literal] =>
    match d.constant? name with
    | some c => d.initConstant c literal
    | none => d.initVariable name literal
  | _ => .error (.malformed "init")

/-- The values of all constants, or the first constant that has none. -/
def constantValues (d : Draft) : Except Cause (List (String × Word)) :=
  d.constants.mapM fun c =>
    match c.value with
    | some value => .ok (c.name, value)
    | none => .error (.uninitializedConstant c.name)

end Draft

end Load

end CyclicStack
