/-!
# Addresses

The place of a variable is written `memory@cell` or `memory@cell.sub`.
-/

namespace CyclicStack

namespace Text

/-- The parts of an address, as they are written. -/
structure Address where
  memory : List Char
  cell : List Char
  sub : Option (List Char)
deriving DecidableEq, Repr

namespace Address

/-- Divides an address at the first `@` and at the first point after it.  Memory and
cell are not empty. -/
def parse? (s : List Char) : Option Address :=
  let memory := s.takeWhile (· != '@')
  match s.dropWhile (· != '@') with
  | '@' :: rest =>
    let cell := rest.takeWhile (· != '.')
    if memory.isEmpty || cell.isEmpty then none
    else
      match rest.dropWhile (· != '.') with
      | [] => some ⟨memory, cell, none⟩
      | _ :: sub => some ⟨memory, cell, some sub⟩
  | _ => none

def text (a : Address) : List Char :=
  a.memory ++ '@' :: a.cell ++ match a.sub with
    | some sub => '.' :: sub
    | none => []

end Address

end Text

end CyclicStack
