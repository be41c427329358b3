import CyclicStack.Memory.Window

/-!
# Private words

A private region is a row of words that only the program sees.  All of them are zero at
first, and only the cells that have been written to are kept, so that the size of a
region costs nothing.
-/

namespace CyclicStack

structure Words where
  /-- Number of words. -/
  cells : Nat
  /-- The words that have been written, each cell once. -/
  written : List (Nat × Word) := []
deriving DecidableEq, Repr

namespace Words

/-- A row of `cells` zero words, of which there are less than `2 ^ 60`: words are eight
bytes, and an allocation has less than `2 ^ 63` of them. -/
def zeros? (cells : Nat) : Option Words :=
  if cells < 0x1000000000000000 then some { cells } else none

def get (words : Words) (cell : Nat) : Word :=
  (words.written.lookup cell).getD 0

/-- A list of written words with one of them replaced or added. -/
def write (cell : Nat) (w : Word) : List (Nat × Word) → List (Nat × Word)
  | [] => [(cell, w)]
  | (c, v) :: rest =>
    if c = cell then (cell, w) :: rest else (c, v) :: write cell w rest

def set (words : Words) (cell : Nat) (w : Word) : Words :=
  { words with written := write cell w words.written }

/-- Fails on an access with a sub-index, and on a cell outside the row. -/
def check (words : Words) (cell : Nat) (sub : Option Nat) : Except Failure Unit :=
  if sub.isSome then .error .localSubIndex else checkCell words.cells cell

/-- Loads a word.  The encoding plays no part: it was applied when the word was
stored. -/
def load (words : Words) (cell : Nat) (sub : Option Nat) : Except Failure Word := do
  words.check cell sub
  return words.get cell

/-- Stores a word, cut to the width of the encoding. -/
def store (cell : Nat) (e : Encoding) (sub : Option Nat) (value : Word) :
    Action Words Unit :=
  fun words =>
    match words.check cell sub with
    | .ok _ => .ok () (words.set cell (e.truncate value))
    | .error failure => .error failure words

end Words

end CyclicStack
