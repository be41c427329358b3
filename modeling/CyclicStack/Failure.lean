import CyclicStack.Encoding

/-!
# Failures of a machine

Everything that can go wrong while a machine is built or run, with its text, its root
below the wrappers, and the chain of texts that a report prints.  An action works on a
state and may fail.  A failing action also leaves a state behind, which need not be the
state it started from.
-/

namespace CyclicStack

/-- Why an operation of a machine failed. -/
inductive Failure where
  | encoding (error : EncodingError)
  | stackFull (capacity : Nat)
  | stackEmpty
  | tooFewOperands (required available : Nat)
  | divisionByZero
  | cellOutOfRange (cell cells : Nat)
  | localSubIndex
  | stackTooSmall (requested : Nat)
  /-- More words are asked for than can be addressed. -/
  | stackTooLarge (requested : Nat)
  | segment (name reason : String)
  | clock (reason : String)
  | output (reason : String)
  | stepLimitExceeded (limit : Nat)
  | unknownVariable (id : Nat)
  /-- A variable names a region that the program does not have. -/
  | missingRegion (index : Nat)
  | outsideProgram (ip : Nat)
  /-- A failure of the instruction at `ip`, whose text is `instruction`. -/
  | atInstruction (ip : Nat) (instruction : String) (source : Failure)
  /-- A failure to store the initial value of a variable. -/
  | atInit (name : String) (source : Failure)
deriving DecidableEq, Repr

/-- The least capacity of a stack. -/
def minStackCapacity : Nat := 2

namespace Failure

def message : Failure → String
  | .encoding error => s!"Spec error: {error.message}"
  | .stackFull capacity => s!"Stack full (capacity {capacity})"
  | .stackEmpty => "Stack empty"
  | .tooFewOperands required available =>
    s!"Too few operands: need {required}, have {available}"
  | .divisionByZero => "Division by zero"
  | .cellOutOfRange cell cells =>
    s!"Cell out of range: {cell} (region has {cells} cells)"
  | .localSubIndex => "Sub-index not supported on local memory"
  | .stackTooSmall requested =>
    s!"Stack size must be at least {minStackCapacity}, got {requested}"
  | .stackTooLarge requested => s!"Stack size out of range: {requested}"
  | .segment name reason => s!"Shared memory segment '{name}': {reason}"
  | .clock reason => s!"Clock read failed: {reason}"
  | .output reason => s!"I/O error: {reason}"
  | .stepLimitExceeded limit => s!"Step limit exceeded: {limit}"
  | .unknownVariable id => s!"unknown variable var#{id}"
  | .missingRegion index => s!"Region index out of range: {index}"
  | .outsideProgram ip => s!"instruction pointer {ip} out of range"
  | .atInstruction ip instruction source =>
    s!"Instruction {ip} ({instruction}): {source.message}"
  | .atInit name source => s!"Failed to initialize '{name}': {source.message}"

/-- The failure below the wrappers that say where it happened. -/
def root : Failure → Failure
  | .atInstruction _ _ source => source.root
  | .atInit _ source => source.root
  | failure => failure

/-- Whether the surroundings failed and not the program. -/
def isSystemFailure (failure : Failure) : Bool :=
  match failure.root with
  | .segment .. | .clock .. | .output .. => true
  | _ => false

/-- The text of a failure and of everything below it, outermost first. -/
def chain : Failure → List String
  | .atInstruction ip instruction source =>
    (Failure.atInstruction ip instruction source).message :: source.chain
  | .atInit name source => (Failure.atInit name source).message :: source.chain
  | .encoding error => [(Failure.encoding error).message, error.message]
  | .segment name reason => [(Failure.segment name reason).message, reason]
  | .clock reason => [(Failure.clock reason).message, reason]
  | .output reason => [(Failure.output reason).message, reason]
  | failure => [failure.message]

end Failure

/-- An action on a state of type `σ` with a result of type `α`. -/
abbrev Action (σ α : Type) := EStateM Failure σ α

namespace Action

variable {σ τ α : Type}

/-- A computation that does not look at the state. -/
def lift : Except Failure α → Action σ α
  | .ok a => pure a
  | .error failure => throw failure

/-- An action on a part of a larger state. -/
def zoom (part : τ → σ) (replace : σ → τ → τ) (action : Action σ α) :
    Action τ α := fun t =>
  match action (part t) with
  | .ok a s => .ok a (replace s t)
  | .error failure s => .error failure (replace s t)

/-- An action with its failures reported in another way, which may depend on the state
left behind. -/
def report (wrap : σ → Failure → Failure) (action : Action σ α) : Action σ α := fun s =>
  match action s with
  | .ok a s => .ok a s
  | .error failure s => .error (wrap s failure) s

end Action

end CyclicStack
