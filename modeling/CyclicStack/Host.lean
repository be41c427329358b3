import CyclicStack.Failure
import CyclicStack.Number.General
import CyclicStack.Reserved
import CyclicStack.Word.Real

/-!
# The host

What a machine meets outside its program: clocks, process identities, a random source
and an output writer.  What the outside will answer is given beforehand, by the number
of questions asked so far, so that a run is a function of the program and its host.

Writing a line with its end and flushing the writer are one step here, which is done or
refused.  So the writer is assumed to take a line whole: what it refuses leaves nothing
behind, neither a part of the line nor a line that was written but could not be flushed.
-/

namespace CyclicStack

inductive Clock where
  | wall
  | monotonic
  | processTime
  | threadTime
deriving DecidableEq, Repr

structure Identity where
  process : Word := 0
  parent : Word := 0
  user : Word := 0
  effectiveUser : Word := 0
deriving DecidableEq, Repr

/-- The surroundings of a machine. -/
structure Host where
  /-- The seconds that a clock shows at its `n`-th reading as the word of a double, or
  why it fails. -/
  clock : Nat → Clock → Except String Word := fun _ _ => .ok 0
  /-- Number of clock readings so far. -/
  readings : Nat := 0
  identity : Identity := {}
  /-- The random words, in the order in which they are drawn. -/
  draws : Nat → Word := fun _ => 0
  /-- Number of words drawn so far. -/
  drawn : Nat := 0
  /-- Why the writer refuses a line after `n` lines, if it does. -/
  refusal : Nat → Option String := fun _ => none
  /-- The lines written so far. -/
  lines : Array String := #[]

namespace Host

def readClock (c : Clock) : Action Host Word := fun h =>
  match h.clock h.readings c with
  | .ok w => .ok w { h with readings := h.readings + 1 }
  | .error reason => .error (.clock reason) h

def readIdentity (part : Identity → Word) : Action Host Word := fun h =>
  .ok (part h.identity) h

/-- Draws a random word and puts it to use. -/
def draw (use : Word → Word) : Action Host Word := fun h =>
  .ok (use (h.draws h.drawn)) { h with drawn := h.drawn + 1 }

/-- A number in `[0, 1)` in single precision, from 24 of the low 32 bits of a random
word. -/
def unitSingle (w : Word) : Word :=
  ((w.toUInt32 >>> 8).toUInt64.toFloat32 / 16777216).toBits.toUInt64

/-- A number in `[0, 1)` in double precision, from the upper 53 bits of a random
word. -/
def unitDouble (w : Word) : Word :=
  ((w >>> (11 : Word)).toFloat / 9007199254740992).toBits

/-- The word that a source delivers. -/
def read : Source → Action Host Word
  | .stime => readClock .wall
  | .mtime => readClock .monotonic
  | .ctime => readClock .processTime
  | .ttime => readClock .threadTime
  | .pid => readIdentity Identity.process
  | .ppid => readIdentity Identity.parent
  | .uid => readIdentity Identity.user
  | .euid => readIdentity Identity.effectiveUser
  | .rand => draw id
  | .randf => draw unitSingle
  | .randd => draw unitDouble

def writeLine (line : String) : Action Host Unit := fun h =>
  match h.refusal h.lines.size with
  | some reason => .error (.output reason) h
  | none => .ok () { h with lines := h.lines.push line }

/-- Hands a word to a sink. -/
def write (sink : Sink) (w : Word) : Action Host Unit :=
  match sink with
  | .null => pure ()
  | .stdout => writeLine w.decimal
  | .stdouts => writeLine w.signedDecimal
  | .stdoutf => writeLine w.generalSingle
  | .stdoutd => writeLine w.generalDouble

/-- Everything written so far, each line with its end. -/
def contents (h : Host) : String :=
  String.join (h.lines.toList.map (· ++ "\n"))

end Host

end CyclicStack
