/-!
# Words

A word is a pattern of 64 bits without a type of its own: every instruction decides
whether it reads the pattern as an unsigned number, a signed number or a floating-point
number.  This file holds the integer readings, the powers and the two ways in which a
word is written down.  Products wrap, so that a power is exact modulo `2 ^ 64`.
-/

namespace CyclicStack

/-- An untyped pattern of 64 bits. -/
abbrev Word := UInt64

namespace Word

def ofBool (b : Bool) : Word :=
  if b then 1 else 0

/-- Every word but zero counts as true. -/
def isTrue (w : Word) : Bool :=
  w != 0

/-- The two's complement reading of a word. -/
def toSigned (w : Word) : Int :=
  w.toInt64.toInt

/-- The word whose two's complement reading is `v`, for `v` in the range of 64-bit
numbers. -/
def ofSigned (v : Int) : Word :=
  UInt64.ofInt v

/-- Quotient of the signed readings, truncated toward zero.  The one quotient that is
out of range wraps to the least number. -/
def divSigned (l r : Word) : Word :=
  (l.toInt64 / r.toInt64).toUInt64

/-- Remainder of the signed readings, zero or of the sign of `l`. -/
def modSigned (l r : Word) : Word :=
  (l.toInt64 % r.toInt64).toUInt64

/-- Product of the signed readings, wrapping. -/
def mulSigned (l r : Word) : Word :=
  (l.toInt64 * r.toInt64).toUInt64

/-- The power `base ^ exp` by repeated squaring: the exponent is halved until it is `0`
or `1`. -/
def power (base : Word) (exp : Nat) : Word :=
  if exp = 0 then 1
  else if exp = 1 then base
  else
    let half := power base (exp / 2)
    let square := half * half
    if exp % 2 = 0 then square else base * square
termination_by exp
decreasing_by omega

def pow (base exp : Word) : Word :=
  power base exp.toNat

/-- The power of words read as signed numbers.  A negative base gives zero, and a
negative exponent acts by its magnitude, because halving truncates toward zero. -/
def powSigned (base exp : Word) : Word :=
  if toSigned base < 0 then 0 else power base (toSigned exp).natAbs

def decimal (w : Word) : String :=
  String.ofList (Nat.toDigits 10 w.toNat)

/-- The two's complement reading of a word in decimal, with a leading minus when
negative. -/
def signedDecimal (w : Word) : String :=
  let v := toSigned w
  if v < 0 then "-" ++ String.ofList (Nat.toDigits 10 v.natAbs)
  else String.ofList (Nat.toDigits 10 v.natAbs)

/-- A word in lower-case hexadecimal after `0x`, without leading zeros. -/
def hex (w : Word) : String :=
  "0x" ++ String.ofList (Nat.toDigits 16 w.toNat)

end Word

end CyclicStack
