import CyclicStack.Operator
import CyclicStack.Reserved
import CyclicStack.Word

/-!
# Instructions

The instructions of a loaded program.  Names are resolved: a variable is its position in
the variable table and a jump target a position in the instruction list.
-/

namespace CyclicStack

/-- When a jump is taken.  The conditional jumps pop the word they test. -/
inductive Condition where
  | always
  | ifZero
  | ifNotZero
deriving DecidableEq, Repr

inductive Instruction where
  | apply (op : Operator)
  | pushConst (value : Word)
  | pushVar (id : Nat)
  | pushSource (source : Source)
  | popVar (id : Nat)
  | popSink (sink : Sink)
  | jump (condition : Condition) (target : Nat)
  | label (name : String)
  | halt
deriving DecidableEq, Repr

namespace Condition

def mnemonic : Condition → String
  | .always => "J"
  | .ifZero => "JZ"
  | .ifNotZero => "JNZ"

end Condition

/-- The text of a variable that is known by its position only. -/
def anonymousVariable (id : Nat) : String :=
  s!"var#{id}"

namespace Instruction

def mnemonic : Instruction → String
  | .apply op => op.mnemonic
  | .pushConst _ | .pushVar _ | .pushSource _ => "PUSH"
  | .popVar _ | .popSink _ => "POP"
  | .jump condition _ => condition.mnemonic
  | .label _ => "$"
  | .halt => "END"

def target? : Instruction → Option Nat
  | .jump _ target => some target
  | _ => none

/-- The text of an instruction, with a text for each variable. -/
def textWith (name : Nat → String) : Instruction → String
  | .apply op => op.mnemonic
  | .pushConst value => s!"PUSH {value.hex}"
  | .pushVar id => s!"PUSH {name id}"
  | .pushSource source => s!"PUSH {source.name}"
  | .popVar id => s!"POP {name id}"
  | .popSink sink => s!"POP {sink.name}"
  | .jump condition target => s!"{condition.mnemonic} @{target}"
  | .label name => s!"${name}"
  | .halt => "END"

/-- The text of an instruction, with variables known by position only. -/
def text : Instruction → String :=
  textWith anonymousVariable

end Instruction

end CyclicStack
