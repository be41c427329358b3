/-!
# Tokens

A line is a sequence of tokens between separators, up to a `#` that starts a comment.
Of the characters that Unicode counts as white space only a few are separators; each of
the others is a blank that belongs to no token and makes the line unreadable.  A comment
goes up to a line feed, which is such a blank.
-/

namespace CyclicStack

namespace Text

/-- The characters with the Unicode property `White_Space`. -/
def isBlank (c : Char) : Bool :=
  let n := c.toNat
  (0x09 ≤ n && n ≤ 0x0d) || n == 0x20 || n == 0x85 || n == 0xa0 || n == 0x1680 ||
    (0x2000 ≤ n && n ≤ 0x200a) || n == 0x2028 || n == 0x2029 || n == 0x202f ||
    n == 0x205f || n == 0x3000

/-- The blanks that separate tokens: space, tab, carriage return, form feed and vertical
tab. -/
def isSeparator (c : Char) : Bool :=
  let n := c.toNat
  n == 0x20 || n == 0x09 || n == 0x0d || n == 0x0c || n == 0x0b

/-- A text without the blanks at its ends. -/
def trim (s : List Char) : List Char :=
  ((s.dropWhile isBlank).reverse.dropWhile isBlank).reverse

/-- The headers that open the sections of a program text. -/
inductive Header where
  | settings
  | memory
  | vars
  | inits
  | program
deriving DecidableEq, Repr

namespace Header

/-- All headers, in the order in which their sections are interpreted. -/
def all : List Header :=
  [.settings, .memory, .vars, .inits, .program]

def text : Header → String
  | .settings => "__SETTINGS"
  | .memory => "__MEM"
  | .vars => "__VAR"
  | .inits => "__INIT"
  | .program => "__PROGRAM"

def ofText? (text : String) : Option Header :=
  all.find? (·.text == text)

end Header

inductive Token where
  | header (header : Header)
  /-- A label, without the dollar sign in front. -/
  | label (name : String)
  | word (text : String)
deriving DecidableEq, Repr

namespace Token

def text : Token → String
  | .header h => h.text
  | .label name => "$" ++ name
  | .word text => text

/-- The token that a run of characters is: a dollar sign in front makes a label, and
only a whole run is a header. -/
def ofChars : List Char → Token
  | '$' :: name => .label (String.ofList name)
  | chars =>
    let text := String.ofList chars
    match Header.ofText? text with
    | some h => .header h
    | none => .word text

end Token

/-- The token whose characters have been read, last one first, if there are any. -/
def pendingToken : List Char → List Token
  | [] => []
  | chars => [Token.ofChars chars.reverse]

/-- Reads the rest of a line.  `pending` holds the characters of the token that is being
read, last one first.  Fails with the first blank that is no separator. -/
def scan (pending : List Char) : List Char → Except Char (List Token)
  | [] => .ok (pendingToken pending)
  | c :: rest =>
    if c = '#' then
      if '\n' ∈ rest then .error '\n' else .ok (pendingToken pending)
    else if isSeparator c then
      match scan [] rest with
      | .ok tokens => .ok (pendingToken pending ++ tokens)
      | .error blank => .error blank
    else if isBlank c then .error c
    else scan (c :: pending) rest

/-- The tokens of a line, or the character that belongs to none. -/
def tokenize (line : List Char) : Except Char (List Token) :=
  scan [] line

end Text

end CyclicStack
