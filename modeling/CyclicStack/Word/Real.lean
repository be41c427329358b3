import CyclicStack.Word

/-!
# Floating-point readings of words

A word is read as a double by all its bits and as a single by its low half.  Results are
written back the same way, a single with a zero upper half.

A result that is not a number is written by one rule: if an operand is not a number, the
first such operand is passed on, made quiet; otherwise the pattern with the sign bit and
the quiet bit is taken.
-/

namespace CyclicStack

namespace Word

def toDouble (w : Word) : Float :=
  Float.ofBits w

def toSingle (w : Word) : Float32 :=
  Float32.ofBits w.toUInt32

def isDoubleNaN (w : Word) : Bool :=
  0x7ff0000000000000 < (w &&& 0x7fffffffffffffff)

/-- Whether the low half of a word read as a single is not a number. -/
def isSingleNaN (w : Word) : Bool :=
  0x7f800000 < (w &&& 0x7fffffff)

/-- The word of a double that was computed from the given operands. -/
def ofDouble (operands : List Word) (x : Float) : Word :=
  if x.isNaN then
    match operands.find? isDoubleNaN with
    | some w => w ||| 0x0008000000000000
    | none => 0xfff8000000000000
  else x.toBits

/-- The word of a single that was computed from the given operands. -/
def ofSingle (operands : List Word) (x : Float32) : Word :=
  if x.isNaN then
    match operands.find? isSingleNaN with
    | some w => (w &&& 0xffffffff) ||| 0x00400000
    | none => 0xffc00000
  else x.toBits.toUInt64

def liftDouble (f : Float → Float) (w : Word) : Word :=
  ofDouble [w] (f (toDouble w))

def liftDouble₂ (f : Float → Float → Float) (l r : Word) : Word :=
  ofDouble [l, r] (f (toDouble l) (toDouble r))

def liftSingle₂ (f : Float32 → Float32 → Float32) (l r : Word) : Word :=
  ofSingle [l, r] (f (toSingle l) (toSingle r))

/-- The double of the same value as a single.  A pattern that is not a number keeps its
sign and its payload in the leading fraction bits. -/
def singleToDouble (w : Word) : Word :=
  if isSingleNaN w then
    (w &&& 0x80000000) <<< (32 : Word) ||| 0x7ff8000000000000 |||
    (w &&& 0x007fffff) <<< (29 : Word)
  else (toSingle w).toFloat.toBits

/-- The single nearest to a double.  A pattern that is not a number keeps its sign and
the leading bits of its payload. -/
def doubleToSingle (w : Word) : Word :=
  if isDoubleNaN w then
    w >>> (32 : Word) &&& 0x80000000 ||| 0x7fc00000 ||| w >>> (29 : Word) &&& 0x003fffff
  else (toDouble w).toFloat32.toBits.toUInt64

/-- The absolute value of a double: the sign bit is cleared, whatever the other bits
are. -/
def absDouble (w : Word) : Word :=
  w &&& 0x7fffffffffffffff

end Word

end CyclicStack
