import CyclicStack.Failure
import CyclicStack.Text.Token

/-!
# Load errors

Why a program text is refused, and at which line.
-/

namespace CyclicStack

namespace Load

inductive Cause where
  | unreadable (path reason : String)
  | unrecognized (c : Char)
  | duplicateSection (header : Text.Header)
  | outsideSection
  | unknownSetting (key : String)
  | duplicateSetting (key : String)
  | malformed (kind : String)
  | unknownMemoryKind (kind : String)
  | duplicateMemory (name : String)
  | unknownMemory (name : String)
  /-- More cells are asked for than can be addressed. -/
  | regionTooLarge (cells : Nat)
  | invalidAddress (address reason : String)
  | unknownConstType (tag : String)
  | reservedName (name : String)
  | duplicateName (name existing : String)
  | duplicateInit (name : String)
  | uninitializedConstant (name : String)
  | invalidLiteral (literal expected : String)
  | unknownInstruction (text : String)
  | unknownName (name : String)
  | constantTarget (name : String)
  | emptyLabel
  | duplicateLabel (name : String)
  | undefinedLabel (name : String)
  | encoding (error : EncodingError)
  | memory (failure : Failure)
deriving DecidableEq, Repr

namespace Cause

def message : Cause → String
  | .unreadable path reason => s!"Cannot read {path}: {reason}"
  | .unrecognized c => s!"Unrecognized input: {c}"
  | .duplicateSection header => s!"Section {header.text} appears more than once"
  | .outsideSection => "Content outside of any section"
  | .unknownSetting key => s!"Unknown setting: {key}"
  | .duplicateSetting key => s!"Setting {key} given more than once"
  | .malformed kind => s!"Malformed {kind} line"
  | .unknownMemoryKind kind => s!"Unknown memory kind: {kind}"
  | .duplicateMemory name => s!"Memory {name} declared more than once"
  | .unknownMemory name => s!"Unknown memory: {name}"
  | .regionTooLarge cells => s!"Region size out of range: {cells}"
  | .invalidAddress address reason => s!"Invalid address {address}: {reason}"
  | .unknownConstType tag => s!"Unknown constant type: {tag} (expected u, i or f)"
  | .reservedName name => s!"Name {name} is reserved"
  | .duplicateName name existing => s!"Name {name} already declared as a {existing}"
  | .duplicateInit name => s!"{name} initialized more than once"
  | .uninitializedConstant name => s!"Constant {name} is never initialized"
  | .invalidLiteral literal expected =>
    s!"Invalid literal {literal}: expected {expected}"
  | .unknownInstruction text => s!"Unknown instruction: {text}"
  | .unknownName name => s!"Unknown name: {name}"
  | .constantTarget name => s!"Cannot POP into constant {name}"
  | .emptyLabel => "Empty label"
  | .duplicateLabel name => s!"Duplicate label: {name}"
  | .undefinedLabel name => s!"Undefined label: {name}"
  | .encoding error => error.message
  | .memory failure => failure.message

/-- The text of a cause and of everything below it, outermost first. -/
def chain : Cause → List String
  | .unreadable path reason => [(Cause.unreadable path reason).message, reason]
  | .memory failure => failure.chain
  | cause => [cause.message]

/-- Whether the surroundings failed and not the text. -/
def isSystemFailure : Cause → Bool
  | .unreadable .. => true
  | .memory failure => failure.isSystemFailure
  | _ => false

end Cause

/-- A line of a text that an error points at, by its number and its content. -/
structure Place where
  number : Nat
  content : String
deriving DecidableEq, Repr

/-- A load error: its cause and, where there is one, the line. -/
structure Error where
  cause : Cause
  place : Option Place := none
deriving DecidableEq, Repr

namespace Error

def message (e : Error) : String :=
  match e.place with
  | some p => s!"Line {p.number} ({p.content}): {e.cause.message}"
  | none => e.cause.message

/-- The text of a load error and of everything below it, outermost first. -/
def chain (e : Error) : List String :=
  match e.place with
  | some _ => e.message :: e.cause.chain
  | none => e.cause.chain

def line? (e : Error) : Option Nat :=
  e.place.map (·.number)

end Error

end Load

end CyclicStack
