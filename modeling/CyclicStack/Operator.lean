/-!
# Operators

The operators of the stack machine, their mnemonics and the number of operands that each
takes.
-/

namespace CyclicStack

/-- An operator of the stack machine.  A final `s` marks the signed, `f` the
single-precision and `d` the double-precision form of an operator. -/
inductive Operator where
  | add | sub | mul | muls | div | divs | mod | mods | pow | pows
  | addf | subf | mulf | divf | powf
  | addd | subd | muld | divd | powd
  | not | and | or | xor
  | inv | band | bor | bxor
  | itof | itod | ftoi | dtoi | ftod | dtof
  | eq | ne | lt | gt | le | ge | lts | gts | les | ges | ltd | gtd | led | ged
  | dup
  | abs | sqrt | cbrt | ln | log | lg | sin | cos | tan | asin | acos | atan | atanxy
deriving DecidableEq, Repr

namespace Operator

def all : List Operator :=
  [.add, .sub, .mul, .muls, .div, .divs, .mod, .mods, .pow, .pows,
    .addf, .subf, .mulf, .divf, .powf,
    .addd, .subd, .muld, .divd, .powd,
    .not, .and, .or, .xor,
    .inv, .band, .bor, .bxor,
    .itof, .itod, .ftoi, .dtoi, .ftod, .dtof,
    .eq, .ne, .lt, .gt, .le, .ge, .lts, .gts, .les, .ges, .ltd, .gtd, .led, .ged,
    .dup,
    .abs, .sqrt, .cbrt, .ln, .log, .lg, .sin, .cos, .tan, .asin, .acos, .atan, .atanxy]

def mnemonic : Operator → String
  | .add => "ADD" | .sub => "SUB" | .mul => "MUL" | .muls => "MULS"
  | .div => "DIV" | .divs => "DIVS" | .mod => "MOD" | .mods => "MODS"
  | .pow => "POW" | .pows => "POWS"
  | .addf => "ADDF" | .subf => "SUBF" | .mulf => "MULF"
  | .divf => "DIVF" | .powf => "POWF"
  | .addd => "ADDD" | .subd => "SUBD" | .muld => "MULD"
  | .divd => "DIVD" | .powd => "POWD"
  | .not => "NOT" | .and => "AND" | .or => "OR" | .xor => "XOR"
  | .inv => "INV" | .band => "BAND" | .bor => "BOR" | .bxor => "BXOR"
  | .itof => "ITOF" | .itod => "ITOD" | .ftoi => "FTOI" | .dtoi => "DTOI"
  | .ftod => "FTOD" | .dtof => "DTOF"
  | .eq => "EQ" | .ne => "NE" | .lt => "LT" | .gt => "GT" | .le => "LE" | .ge => "GE"
  | .lts => "LTS" | .gts => "GTS" | .les => "LES" | .ges => "GES"
  | .ltd => "LTD" | .gtd => "GTD" | .led => "LED" | .ged => "GED"
  | .dup => "DUP"
  | .abs => "ABS" | .sqrt => "SQRT" | .cbrt => "CBRT"
  | .ln => "LN" | .log => "LOG" | .lg => "LG"
  | .sin => "SIN" | .cos => "COS" | .tan => "TAN"
  | .asin => "ASIN" | .acos => "ACOS" | .atan => "ATAN" | .atanxy => "ATANXY"

/-- The operator that a mnemonic names.  `ATAN2` is a second name of `ATANXY`. -/
def ofMnemonic? (name : String) : Option Operator :=
  if name = "ATAN2" then some .atanxy else all.find? (·.mnemonic == name)

def operands : Operator → Nat
  | .not | .inv
  | .itof | .itod | .ftoi | .dtoi | .ftod | .dtof
  | .dup
  | .abs | .sqrt | .cbrt | .ln | .log | .lg
  | .sin | .cos | .tan | .asin | .acos | .atan => 1
  | _ => 2

end Operator

end CyclicStack
