import CyclicStack.Host
import CyclicStack.Program
import CyclicStack.Stack

/-!
# Execution of one instruction

An instruction works on a program, a stack and a host, and says where to go next.
-/

namespace CyclicStack

/-- Where execution goes after an instruction. -/
inductive Flow where
  | next
  | jump (target : Nat)
  | halt
deriving DecidableEq, Repr

/-- What instructions work on. -/
structure State where
  program : Program
  stack : Stack
  host : Host

namespace State

def onProgram {α : Type} (action : Action Program α) : Action State α :=
  Action.zoom State.program (fun program s => { s with program }) action

def onStack {α : Type} (action : Action Stack α) : Action State α :=
  Action.zoom State.stack (fun stack s => { s with stack }) action

def onHost {α : Type} (action : Action Host α) : Action State α :=
  Action.zoom State.host (fun host s => { s with host }) action

end State

namespace Condition

/-- Whether a jump under a condition is taken; the tested word is popped. -/
def test : Condition → Action Stack Bool
  | .always => return true
  | .ifZero => return !(← Stack.pop).isTrue
  | .ifNotZero => return (← Stack.pop).isTrue

end Condition

open State in
/-- Executes one instruction.  A source is asked only if its word will find room, and a
word is popped only after it has been stored or written. -/
def execute : Instruction → Action State Flow
  | .apply op => do
    onStack (Stack.apply op)
    return .next
  | .pushConst value => do
    onStack (Stack.push value)
    return .next
  | .pushVar id => do
    let value ← Action.lift ((← get).program.load id)
    onStack (Stack.push value)
    return .next
  | .pushSource source => do
    onStack Stack.requireRoom
    let value ← onHost (Host.read source)
    onStack (Stack.push value)
    return .next
  | .popVar id => do
    let value ← onStack Stack.peek
    onProgram (Program.store id value)
    let _ ← onStack Stack.pop
    return .next
  | .popSink sink => do
    let value ← onStack Stack.peek
    onHost (Host.write sink value)
    let _ ← onStack Stack.pop
    return .next
  | .jump condition target => do
    if ← onStack condition.test then return .jump target else return .next
  | .label _ => return .next
  | .halt => return .halt

end CyclicStack
