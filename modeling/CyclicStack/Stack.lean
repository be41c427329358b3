import CyclicStack.Failure
import CyclicStack.Operator.Effect

/-!
# The stack

A stack of words with a fixed capacity, and the actions on it.  That a failing action
leaves the stack as it was is a fact about these definitions, not about their types.
-/

namespace CyclicStack

/-- A bounded stack of words, the top word first. -/
structure Stack where
  capacity : Nat
  words : List Word := []
deriving DecidableEq, Repr

namespace Stack

/-- Capacities are below `2 ^ 60`: words are eight bytes, and an allocation has less
than `2 ^ 63` of them. -/
def capacityLimit : Nat := 0x1000000000000000

def ofCapacity (capacity : Nat) : Except Failure Stack :=
  if capacity < minStackCapacity then .error (.stackTooSmall capacity)
  else if capacityLimit ≤ capacity then .error (.stackTooLarge capacity)
  else .ok { capacity }

def size (s : Stack) : Nat :=
  s.words.length

def push (w : Word) : Action Stack Unit := fun s =>
  if s.capacity ≤ s.size then .error (.stackFull s.capacity) s
  else .ok () { s with words := w :: s.words }

def peek : Action Stack Word := fun s =>
  match s.words with
  | [] => .error .stackEmpty s
  | w :: _ => .ok w s

def pop : Action Stack Word := fun s =>
  match s.words with
  | [] => .error .stackEmpty s
  | w :: rest => .ok w { s with words := rest }

def requireRoom : Action Stack Unit := fun s =>
  if s.capacity ≤ s.size then .error (.stackFull s.capacity) s else .ok () s

def clear : Action Stack Unit := fun s =>
  .ok () { s with words := [] }

def duplicate : Action Stack Unit := fun s =>
  match s.words with
  | w :: _ => push w s
  | [] => .error (.tooFewOperands 1 0) s

def unary (f : Word → Word) : Action Stack Unit := fun s =>
  match s.words with
  | w :: rest => .ok () { s with words := f w :: rest }
  | [] => .error (.tooFewOperands 1 0) s

/-- Replaces the two topmost words by `f left right`, the right one being the top. -/
def binary (f : Word → Word → Word) : Action Stack Unit := fun s =>
  match s.words with
  | r :: l :: rest => .ok () { s with words := f l r :: rest }
  | words => .error (.tooFewOperands 2 words.length) s

/-- Replaces the two topmost words by `f left right` unless the right one is zero. -/
def quotient (f : Word → Word → Word) : Action Stack Unit := fun s =>
  match s.words with
  | r :: l :: rest =>
    if r = 0 then .error .divisionByZero s else .ok () { s with words := f l r :: rest }
  | words => .error (.tooFewOperands 2 words.length) s

def apply (op : Operator) : Action Stack Unit :=
  match op.effect with
  | .unary f => unary f
  | .binary f => binary f
  | .quotient f => quotient f
  | .duplicate => duplicate

end Stack

end CyclicStack
