import CyclicStack.Instruction
import CyclicStack.Memory

/-!
# Programs

A program is what a machine runs: settings, memory, variables, instructions and labels.
The settings say how often and how many times it is to run.  A variable is a named field
of a cell of a region.
-/

namespace CyclicStack

/-- The cycle time in milliseconds and the number of cycles, zero for no end. -/
structure Settings where
  cycleMs : Nat := 1000
  cycles : Nat := 0
deriving DecidableEq, Repr

namespace Settings

def unlimited (s : Settings) : Bool :=
  s.cycles == 0

def periodNs (s : Settings) : Nat :=
  s.cycleMs * 1000000

def text (s : Settings) : String :=
  let cycles := if s.unlimited then "unlimited" else toString s.cycles
  s!"Settings \x7b cycle: {s.cycleMs} ms, cycles: {cycles} \x7d"

end Settings

/-- A named field of memory. -/
structure Variable where
  name : String
  /-- Position of the region. -/
  region : Nat
  encoding : Encoding
  cell : Nat
  subIndex : Option Nat := none
  /-- The value stored before the first cycle. -/
  init : Option Word := none
deriving DecidableEq, Repr

structure Program where
  settings : Settings := {}
  memory : Memory := {}
  vars : Array Variable := #[]
  code : Array Instruction := #[]
  labels : List (String × Nat) := []
deriving DecidableEq, Repr

namespace Program

def variableId? (p : Program) (name : String) : Option Nat :=
  p.vars.findIdx? (·.name == name)

def label? (p : Program) (name : String) : Option Nat :=
  p.labels.lookup name

def addRegion (p : Program) (region : Region) : Program :=
  { p with memory := { p.memory with regions := p.memory.regions.push region } }

/-- Adds a region of its own over new bytes that no other region sees. -/
def addBytes (p : Program) (name : String) (bytes : Bytes) (cellSize : Nat) : Program :=
  let segment := p.memory.segments.size
  { p with
    memory := { p.memory with segments := p.memory.segments.push ⟨name, bytes⟩ } }
    |>.addRegion ⟨name, .shared segment cellSize⟩

def addVariable (p : Program) (v : Variable) : Program :=
  { p with vars := p.vars.push v }

def append (p : Program) (i : Instruction) : Program :=
  { p with code := p.code.push i }

/-- Points a name at a position, unless it is a label already. -/
def addLabel? (p : Program) (name : String) (position : Nat) : Option Program :=
  match p.label? name with
  | some _ => none
  | none => some { p with labels := p.labels ++ [(name, position)] }

/-- Moves a variable to another cell of its region. -/
def moveVariable (p : Program) (id cell : Nat) : Program :=
  { p with vars := p.vars.modify id fun v => { v with cell } }

/-- The value of a variable. -/
def load (p : Program) (id : Nat) : Except Failure Word :=
  match p.vars[id]? with
  | none => .error (.unknownVariable id)
  | some v => p.memory.load v.region v.cell v.encoding v.subIndex

/-- Stores a value in a variable. -/
def store (id : Nat) (value : Word) : Action Program Unit := fun p =>
  match p.vars[id]? with
  | none => .error (.unknownVariable id) p
  | some v =>
    Action.zoom Program.memory (fun memory p => { p with memory })
      (Memory.store v.region v.cell v.encoding v.subIndex value) p

/-- The name of a variable, or its position where there is none. -/
def variableName (p : Program) (id : Nat) : String :=
  match p.vars[id]? with
  | some v => v.name
  | none => anonymousVariable id

/-- The text of the instruction at a position, with variables by name. -/
def describe (p : Program) (ip : Nat) : String :=
  match p.code[ip]? with
  | some i => i.textWith p.variableName
  | none => s!"<ip {ip} out of range>"

/-- Variables with an initial value, in the order of declaration. -/
def inits (p : Program) : List (Nat × Word) :=
  p.vars.toList.zipIdx.filterMap fun (v, id) => v.init.map (id, ·)

end Program

end CyclicStack
