/-!
# Exact ratios

Rounding of a ratio of natural numbers, and the scaling of numerator and denominator by
powers.  Decimal and binary notations of a floating-point number are both computed from
its exact ratio.
-/

namespace CyclicStack

/-- The natural number nearest to `n / d`.  Of two equally near ones the even one is
taken. -/
def divNearest (n d : Nat) : Nat :=
  let q := n / d
  let r := n % d
  if 2 * r < d then q
  else if d < 2 * r then q + 1
  else if q % 2 = 0 then q
  else q + 1

/-- The number of decimal digits of `n`, none for zero. -/
def digitCount (n : Nat) : Nat :=
  if n = 0 then 0 else (Nat.toDigits 10 n).length

/-- A ratio of natural numbers; the denominator is positive in every use. -/
structure Ratio where
  num : Nat
  den : Nat
deriving DecidableEq, Repr

namespace Ratio

/-- The ratio `m * b ^ e`. -/
def ofScaled (m b : Nat) (e : Int) : Ratio :=
  ⟨m * Nat.pow b e.toNat, Nat.pow b (-e).toNat⟩

/-- The ratio `x * b ^ e`. -/
def scale (x : Ratio) (b : Nat) (e : Int) : Ratio :=
  ⟨x.num * Nat.pow b e.toNat, x.den * Nat.pow b (-e).toNat⟩

/-- The natural number nearest to a ratio, ties to even. -/
def nearest (x : Ratio) : Nat :=
  divNearest x.num x.den

/-- The exponent `e` with `10 ^ e ≤ x < 10 ^ (e + 1)`, for a positive ratio. -/
def decimalExponent (x : Ratio) : Int :=
  if x.den ≤ x.num then
    (digitCount (x.num / x.den) : Int) - 1
  else
    -(digitCount ((x.den + x.num - 1) / x.num - 1) : Int)

/-- The exponent `e` with `2 ^ e ≤ x < 2 ^ (e + 1)`, for a positive ratio. -/
def binaryExponent (x : Ratio) : Int :=
  let e : Int := (x.num.log2 : Int) - (x.den.log2 : Int)
  let y := x.scale 2 (-e)
  if y.den ≤ y.num then e else e - 1

end Ratio

end CyclicStack
