import CyclicStack.Number.Binary

/-!
# General notation

The notation in which floating-point words are printed: six significant digits, plain
below a million and down to a ten-thousandth, otherwise with an exponent of at least two
digits, and never a trailing zero in the fraction.  All rounding is done on the exact
value, ties to even.
-/

namespace CyclicStack

namespace General

def precision : Nat := 6

/-- A positive ratio rounded to `precision` significant digits: the digits as one number
and the decimal exponent of the first of them, taken after rounding. -/
def scientific (x : Ratio) : Nat × Int :=
  let e := x.decimalExponent
  let digits := (x.scale 10 ((precision : Int) - 1 - e)).nearest
  if digits = Nat.pow 10 precision then (Nat.pow 10 (precision - 1), e + 1)
  else (digits, e)

/-- A ratio rounded to the given number of decimals, in units of the last decimal. -/
def fixed (x : Ratio) (decimals : Nat) : Nat :=
  (x.scale 10 decimals).nearest

/-- The decimal digits of `n`, filled with leading zeros to at least `width`. -/
def padded (width n : Nat) : List Char :=
  let digits := Nat.toDigits 10 n
  List.replicate (width - digits.length) '0' ++ digits

/-- `units / 10 ^ decimals` with all its decimals but trailing zeros, and no bare
point. -/
def plain (units decimals : Nat) : List Char :=
  let unit := Nat.pow 10 decimals
  let whole := Nat.toDigits 10 (units / unit)
  let fraction :=
    (padded decimals (units % unit)).reverse.dropWhile (· == '0') |>.reverse
  if decimals = 0 ∨ fraction.isEmpty then whole else whole ++ '.' :: fraction

def positive (x : Ratio) : List Char :=
  let (digits, e) := scientific x
  if e < -4 ∨ (precision : Int) ≤ e then
    plain digits (precision - 1) ++ 'e' :: (if e < 0 then '-' else '+') ::
      padded 2 e.natAbs
  else
    let decimals := ((precision : Int) - 1 - e).toNat
    plain (fixed x decimals) decimals

def ofMagnitude : Magnitude → List Char
  | .notANumber => ['n', 'a', 'n']
  | .infinite => ['i', 'n', 'f']
  | .finite x => if x.num = 0 then ['0'] else positive x

/-- The text of a pattern of a floating-point format; a set sign bit shows as a leading
minus, also of zeros and of patterns that are not numbers. -/
def ofPattern (f : BinaryFormat) (pattern : Nat) : List Char :=
  let body := ofMagnitude (f.magnitude pattern)
  if f.isNegative pattern then '-' :: body else body

end General

namespace Word

/-- The general notation of a word read as a double. -/
def generalDouble (w : Word) : String :=
  String.ofList (General.ofPattern .double w.toNat)

/-- The general notation of the low half of a word read as a single. -/
def generalSingle (w : Word) : String :=
  String.ofList (General.ofPattern .single (w.toNat % UInt32.size))

end Word

end CyclicStack
