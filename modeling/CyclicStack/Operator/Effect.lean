import CyclicStack.Operator
import CyclicStack.Word.Real

/-!
# Effects of operators

What an operator does to the words on top of the stack.  The left operand of a binary
operator lies below the right one.
-/

namespace CyclicStack

/-- What an operator does to the top of the stack. -/
inductive Effect where
  /-- Replaces the top word. -/
  | unary (f : Word → Word)
  /-- Replaces the two topmost words. -/
  | binary (f : Word → Word → Word)
  /-- Replaces the two topmost words, and refuses a zero on top. -/
  | quotient (f : Word → Word → Word)
  /-- Pushes the top word once more. -/
  | duplicate

namespace Effect

/-- A comparison, which leaves one for true and zero for false. -/
def test (p : Word → Word → Bool) : Effect :=
  .binary fun l r => .ofBool (p l r)

/-- A comparison of the signed readings. -/
def testSigned (p : Int64 → Int64 → Bool) : Effect :=
  test fun l r => p l.toInt64 r.toInt64

/-- A comparison of the double-precision readings; it fails when one of them is not a
number. -/
def testDouble (p : Float → Float → Bool) : Effect :=
  test fun l r => p l.toDouble r.toDouble

end Effect

namespace Operator

/-- The effect of an operator.  `atanxy` takes the abscissa from below and the ordinate
from the top. -/
def effect : Operator → Effect
  | .add => .binary (· + ·)
  | .sub => .binary (· - ·)
  | .mul => .binary (· * ·)
  | .muls => .binary Word.mulSigned
  | .div => .quotient (· / ·)
  | .divs => .quotient Word.divSigned
  | .mod => .quotient (· % ·)
  | .mods => .quotient Word.modSigned
  | .pow => .binary Word.pow
  | .pows => .binary Word.powSigned
  | .addf => .binary (Word.liftSingle₂ (· + ·))
  | .subf => .binary (Word.liftSingle₂ (· - ·))
  | .mulf => .binary (Word.liftSingle₂ (· * ·))
  | .divf => .binary (Word.liftSingle₂ (· / ·))
  | .powf => .binary (Word.liftSingle₂ Float32.pow)
  | .addd => .binary (Word.liftDouble₂ (· + ·))
  | .subd => .binary (Word.liftDouble₂ (· - ·))
  | .muld => .binary (Word.liftDouble₂ (· * ·))
  | .divd => .binary (Word.liftDouble₂ (· / ·))
  | .powd => .binary (Word.liftDouble₂ Float.pow)
  | .not => .unary fun w => .ofBool (!w.isTrue)
  | .and => .test fun l r => l.isTrue && r.isTrue
  | .or => .test fun l r => l.isTrue || r.isTrue
  | .xor => .test fun l r => l.isTrue != r.isTrue
  | .inv => .unary (~~~ ·)
  | .band => .binary (· &&& ·)
  | .bor => .binary (· ||| ·)
  | .bxor => .binary (· ^^^ ·)
  | .itof => .unary fun w => w.toFloat32.toBits.toUInt64
  | .itod => .unary fun w => w.toFloat.toBits
  | .ftoi => .unary fun w => w.toSingle.toUInt64
  | .dtoi => .unary fun w => w.toDouble.toUInt64
  | .ftod => .unary Word.singleToDouble
  | .dtof => .unary Word.doubleToSingle
  | .eq => .test fun l r => l == r
  | .ne => .test fun l r => l != r
  | .lt => .test fun l r => l < r
  | .gt => .test fun l r => l > r
  | .le => .test fun l r => l ≤ r
  | .ge => .test fun l r => l ≥ r
  | .lts => .testSigned fun l r => l < r
  | .gts => .testSigned fun l r => l > r
  | .les => .testSigned fun l r => l ≤ r
  | .ges => .testSigned fun l r => l ≥ r
  | .ltd => .testDouble fun l r => l < r
  | .gtd => .testDouble fun l r => l > r
  | .led => .testDouble fun l r => l ≤ r
  | .ged => .testDouble fun l r => l ≥ r
  | .dup => .duplicate
  | .abs => .unary Word.absDouble
  | .sqrt => .unary (Word.liftDouble Float.sqrt)
  | .cbrt => .unary (Word.liftDouble Float.cbrt)
  | .ln => .unary (Word.liftDouble Float.log)
  | .log => .unary (Word.liftDouble Float.log10)
  | .lg => .unary (Word.liftDouble Float.log2)
  | .sin => .unary (Word.liftDouble Float.sin)
  | .cos => .unary (Word.liftDouble Float.cos)
  | .tan => .unary (Word.liftDouble Float.tan)
  | .asin => .unary (Word.liftDouble Float.asin)
  | .acos => .unary (Word.liftDouble Float.acos)
  | .atan => .unary (Word.liftDouble Float.atan)
  | .atanxy => .binary (Word.liftDouble₂ fun x y => Float.atan2 y x)

end Operator

end CyclicStack
