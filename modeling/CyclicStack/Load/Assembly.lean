import CyclicStack.Load.Declaration

/-!
# Assembly

The lines of the program section become instructions, one for each line and a final
`halt`.  Names of constants, variables, sources and sinks are resolved line by line.  A
jump may name a label further down, so its target is filled in after all labels are
known.
-/

namespace CyclicStack

namespace Load

/-- What the names of a program stand for. -/
structure Names where
  constants : List (String × Word)
  vars : Array Variable
deriving DecidableEq, Repr

namespace Names

def variableId? (names : Names) (name : String) : Option Nat :=
  names.vars.findIdx? (·.name == name)

/-- The instruction that pushes what a name stands for. -/
def push (names : Names) (name : String) : Except Cause Instruction :=
  match names.constants.lookup name, names.variableId? name, Source.ofName? name with
  | some value, _, _ => .ok (.pushConst value)
  | none, some id, _ => .ok (.pushVar id)
  | none, none, some source => .ok (.pushSource source)
  | none, none, none => .error (.unknownName name)

/-- The instruction that pops into what a name stands for. -/
def pop (names : Names) (name : String) : Except Cause Instruction :=
  match names.variableId? name, names.constants.lookup name, Sink.ofName? name with
  | some id, _, _ => .ok (.popVar id)
  | none, some _, _ => .error (.constantTarget name)
  | none, none, some sink => .ok (.popSink sink)
  | none, none, none => .error (.unknownName name)

end Names

/-- A line of the program section before the labels are known. -/
inductive Statement where
  | ready (instruction : Instruction)
  | branch (condition : Condition) (label : String)
deriving DecidableEq, Repr

namespace Statement

def ofOperation (names : Names) (operation operand : String) : Except Cause Statement :=
  match operation with
  | "PUSH" | "L" => .ready <$> names.push operand
  | "POP" | "S" => .ready <$> names.pop operand
  | "J" => .ok (.branch .always operand)
  | "JZ" => .ok (.branch .ifZero operand)
  | "JNZ" => .ok (.branch .ifNotZero operand)
  | _ => .error (.unknownInstruction operation)

/-- The statement of a line, when the labels of the lines above it are known. -/
def ofLine (names : Names) (labels : List (String × Nat)) (line : Text.Line) :
    Except Cause Statement :=
  match line.first, line.more with
  | .label name, [] =>
    if name = "" then .error .emptyLabel
    else if (labels.lookup name).isSome then .error (.duplicateLabel name)
    else .ok (.ready (.label name))
  | .word operation, [operand] => ofOperation names operation operand.text
  | .word mnemonic, [] =>
    match Operator.ofMnemonic? mnemonic with
    | some op => .ok (.ready (.apply op))
    | none => .error (.unknownInstruction mnemonic)
  | first, _ => .error (.unknownInstruction first.text)

def label? : Statement → Option String
  | .ready (.label name) => some name
  | _ => none

/-- The instruction of a statement, when all labels are known. -/
def link (labels : List (String × Nat)) : Statement → Except Cause Instruction
  | .ready instruction => .ok instruction
  | .branch condition label =>
    match labels.lookup label with
    | some target => .ok (.jump condition target)
    | none => .error (.undefinedLabel label)

end Statement

/-- The statements read so far with their lines, and the positions of the labels among
them. -/
structure Listing where
  statements : Array (Text.Line × Statement) := #[]
  labels : List (String × Nat) := []
deriving DecidableEq, Repr

namespace Listing

def add (names : Names) (l : Listing) (line : Text.Line) : Except Cause Listing := do
  let statement ← Statement.ofLine names l.labels line
  let labels := match statement.label? with
    | some name => l.labels ++ [(name, l.statements.size)]
    | none => l.labels
  return ⟨l.statements.push (line, statement), labels⟩

/-- The instructions of a listing, with a final `halt`. -/
def link (l : Listing) : Except Error (Array Instruction) := do
  let code ← l.statements.toList.mapM fun (line, statement) =>
    (statement.link l.labels).mapError line.blame
  return code.toArray.push .halt

end Listing

def assemble (names : Names) (lines : List Text.Line) :
    Except Error (Array Instruction × List (String × Nat)) := do
  let listing ← eachLine (Listing.add names) {} lines
  let code ← listing.link
  return (code, listing.labels)

end Load

end CyclicStack
