import CyclicStack.Load.Error

/-!
# Sections

A program text is divided into sections by lines that hold a single header.  Each header
occurs at most once, in any order.  Lines without tokens are dropped; every other line
belongs to the section of the nearest header above it.
-/

namespace CyclicStack

namespace Text

/-- A line with its number, counted from one, and its tokens, of which there is at least
one. -/
structure Line where
  number : Nat
  first : Token
  more : List Token
deriving DecidableEq, Repr

namespace Line

def tokens (l : Line) : List Token :=
  l.first :: l.more

def words (l : Line) : List String :=
  l.tokens.map Token.text

/-- The line in normal form: its tokens with single spaces between them. -/
def text (l : Line) : String :=
  String.intercalate " " l.words

def place (l : Line) : Load.Place :=
  ⟨l.number, l.text⟩

def blame (l : Line) (cause : Load.Cause) : Load.Error :=
  ⟨cause, some l.place⟩

end Line

/-- A line in the section of a header. -/
structure Placed where
  header : Header
  line : Line
deriving DecidableEq, Repr

/-- The lines of a text, without their line feeds. -/
def lines : List Char → List (List Char)
  | [] => [[]]
  | c :: rest =>
    if c = '\n' then [] :: lines rest
    else
      match lines rest with
      | [] => [[c]]
      | first :: more => (c :: first) :: more

/-- Places the lines from `number` on, below the header `current`, when the headers
`seen` have occurred. -/
def placeFrom (number : Nat) (current : Option Header) (seen : List Header) :
    List (List Char) → Except Load.Error (List Placed)
  | [] => .ok []
  | raw :: rest =>
    match tokenize raw with
    | .error c => .error ⟨.unrecognized c, some ⟨number, String.ofList (trim raw)⟩⟩
    | .ok [] => placeFrom (number + 1) current seen rest
    | .ok [.header h] =>
      if h ∈ seen then .error ⟨.duplicateSection h, some ⟨number, h.text⟩⟩
      else placeFrom (number + 1) (some h) (h :: seen) rest
    | .ok (first :: more) =>
      match current with
      | none => .error ((Line.mk number first more).blame .outsideSection)
      | some h =>
        match placeFrom (number + 1) current seen rest with
        | .ok placed => .ok (⟨h, number, first, more⟩ :: placed)
        | .error e => .error e

/-- Divides a text into sections: every line with tokens that is no header, with its
section. -/
def sections (text : List Char) : Except Load.Error (List Placed) :=
  placeFrom 1 none [] (lines text)

/-- The lines of one section. -/
def linesOf (placed : List Placed) (h : Header) : List Line :=
  (placed.filter (·.header = h)).map (·.line)

end Text

end CyclicStack
