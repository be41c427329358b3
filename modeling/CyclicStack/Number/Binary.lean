import CyclicStack.Word
import CyclicStack.Number.Ratio

/-!
# Binary floating-point patterns

A pattern of a binary format is read as a sign and a magnitude, where a finite magnitude
is an exact ratio.  In the other direction, an exact ratio is rounded to the nearest
double-precision pattern.  Both directions use natural numbers only.
-/

namespace CyclicStack

/-- What a floating-point pattern denotes apart from its sign. -/
inductive Magnitude where
  | finite (value : Ratio)
  | infinite
  | notANumber
deriving DecidableEq, Repr

/-- A binary floating-point format: the widths of its two fields below the sign bit. -/
structure BinaryFormat where
  exponentBits : Nat
  fractionBits : Nat

namespace BinaryFormat

def single : BinaryFormat := ⟨8, 23⟩

def double : BinaryFormat := ⟨11, 52⟩

def fractionSize (f : BinaryFormat) : Nat :=
  Nat.pow 2 f.fractionBits

def exponentSize (f : BinaryFormat) : Nat :=
  Nat.pow 2 f.exponentBits

def isNegative (f : BinaryFormat) (pattern : Nat) : Bool :=
  pattern.testBit (f.exponentBits + f.fractionBits)

/-- The exponent of the last fraction bit of the smallest numbers. -/
def minExponent (f : BinaryFormat) : Int :=
  2 - (f.exponentSize / 2 : Nat) - f.fractionBits

def magnitude (f : BinaryFormat) (pattern : Nat) : Magnitude :=
  let fraction := pattern % f.fractionSize
  let exponent := pattern / f.fractionSize % f.exponentSize
  if exponent = f.exponentSize - 1 then
    if fraction = 0 then .infinite else .notANumber
  else if exponent = 0 then
    .finite (.ofScaled fraction 2 f.minExponent)
  else
    .finite (.ofScaled (f.fractionSize + fraction) 2 (f.minExponent + exponent - 1))

/-- The pattern of positive infinity. -/
def infinity (f : BinaryFormat) : Nat :=
  (f.exponentSize - 1) * f.fractionSize

/-- The pattern without a sign that is nearest to a positive ratio; ties go to the even
pattern, and a ratio beyond the largest finite number gives infinity.

The significand is an integer multiple of the last fraction bit.  Its leading bit adds
one to the exponent field below it, so that a carry out of the significand needs no case
of its own. -/
def ofRatio (f : BinaryFormat) (x : Ratio) : Nat :=
  let last := max (x.binaryExponent - f.fractionBits) f.minExponent
  let significand := (x.scale 2 (-last)).nearest
  min ((last - f.minExponent).toNat * f.fractionSize + significand) f.infinity

end BinaryFormat

namespace Word

/-- The sign bit of a word read as a double. -/
def signBit : Word := 0x8000000000000000

/-- Positive infinity in double precision. -/
def infinity : Word := 0x7ff0000000000000

/-- The quiet not-a-number without a sign in double precision. -/
def nan : Word := 0x7ff8000000000000

/-- The double nearest to `m * 10 ^ e`.  A decimal whose leading digit stands far
outside the range of doubles is settled by its digit count alone. -/
def ofDecimal (m : Nat) (e : Int) : Word :=
  let leading : Int := digitCount m + e
  if m = 0 ∨ leading < -400 then 0
  else if 400 < leading then infinity
  else UInt64.ofNat (BinaryFormat.double.ofRatio (.ofScaled m 10 e))

end Word

end CyclicStack
