import CyclicStack.Number.Binary

/-!
# Numerals

How numbers are written in program text.  Integers follow their first characters: `0x`
for hexadecimal, another leading `0` for octal, decimal otherwise.  Floating-point
numbers are decimals with an optional point and exponent, or one of the special values.
A numeral is the whole text or it is none.
-/

namespace CyclicStack

namespace Text

/-- The value of a digit of a base up to sixteen. -/
def digit? (base : Nat) (c : Char) : Option Nat :=
  let value? :=
    if '0' ≤ c ∧ c ≤ '9' then some (c.toNat - '0'.toNat)
    else if 'a' ≤ c ∧ c ≤ 'f' then some (c.toNat - 'a'.toNat + 10)
    else if 'A' ≤ c ∧ c ≤ 'F' then some (c.toNat - 'A'.toNat + 10)
    else none
  value?.filter (· < base)

/-- The value of digits that follow digits of value `acc`. -/
def digitsFrom? (base acc : Nat) : List Char → Option Nat
  | [] => some acc
  | c :: rest =>
    match digit? base c with
    | some d => digitsFrom? base (acc * base + d) rest
    | none => none

/-- The value of one or more digits. -/
def digits? (base : Nat) : List Char → Option Nat
  | [] => none
  | chars => digitsFrom? base 0 chars

/-- The value of an integer without sign. -/
def magnitude? : List Char → Option Nat
  | ['0'] => some 0
  | '0' :: 'x' :: digits => digits? 16 digits
  | '0' :: 'X' :: digits => digits? 16 digits
  | '0' :: digits => digits? 8 digits
  | digits => digits? 10 digits

/-- Whether a text has a minus in front, and the text after its sign. -/
def splitSign : List Char → Bool × List Char
  | '+' :: rest => (false, rest)
  | '-' :: rest => (true, rest)
  | rest => (false, rest)

/-- Reads an integer below `2 ^ 64` that may have a plus in front. -/
def unsigned? (s : List Char) : Option Word :=
  let body := match s with
    | '+' :: rest => rest
    | rest => rest
  (magnitude? body).bind fun m =>
    if m < UInt64.size then some (UInt64.ofNat m) else none

/-- Reads an integer from `-2 ^ 63` up to `2 ^ 63 - 1` that may have a sign in front. -/
def signed? (s : List Char) : Option Int :=
  let (negative, body) := splitSign s
  (magnitude? body).bind fun m =>
    let v : Int := if negative then -m else m
    if -0x8000000000000000 ≤ v ∧ v < 0x8000000000000000 then some v else none

/-- Reads the exponent of a decimal, zero if there is none. -/
def exponent? : List Char → Option Int
  | [] => some 0
  | c :: rest =>
    if c = 'e' ∨ c = 'E' then
      let (negative, digits) := splitSign rest
      (digits? 10 digits).map fun n => if negative then -(n : Int) else n
    else none

/-- Reads a decimal without sign, as a number and a power of ten. -/
def decimal? (s : List Char) : Option (Nat × Int) :=
  let whole := s.takeWhile Char.isDigit
  let (fraction, rest) := match s.dropWhile Char.isDigit with
    | '.' :: rest => (rest.takeWhile Char.isDigit, rest.dropWhile Char.isDigit)
    | rest => ([], rest)
  match digits? 10 (whole ++ fraction), exponent? rest with
  | some m, some e => some (m, e - fraction.length)
  | _, _ => none

/-- Reads a floating-point number without sign. -/
def unsignedDouble? (s : List Char) : Option Word :=
  let lower := s.map Char.toLower
  if lower = ['i', 'n', 'f'] ∨ lower = ['i', 'n', 'f', 'i', 'n', 'i', 't', 'y'] then
    some Word.infinity
  else if lower = ['n', 'a', 'n'] then some Word.nan
  else (decimal? s).map fun (m, e) => Word.ofDecimal m e

/-- Reads a floating-point number as the word of the nearest double.  A minus in front
sets the sign bit. -/
def double? (s : List Char) : Option Word :=
  let (negative, body) := splitSign s
  (unsignedDouble? body).map fun w => if negative then w ^^^ Word.signBit else w

/-- Reads the initial value of a variable.  A text with a minus in front is tried as a
signed integer, any other as an unsigned one; what is neither is tried as a
floating-point number. -/
def variableValue? (s : List Char) : Option Word :=
  let integer := match s with
    | '-' :: _ => (signed? s).map Word.ofSigned
    | _ => unsigned? s
  integer.or (double? s)

end Text

end CyclicStack
