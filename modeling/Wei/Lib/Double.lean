import Mathlib.Data.Int.Notation

/-!
# The C type double

The operations that C code applies to a `double`, with no law assumed. Code
that is written over this class can be read over IEEE numbers as well as over
an exact field; only results that need the laws choose an instance.
-/
namespace Wei.Lib

class CDouble (D : Type) extends Add D, Sub D, Mul D, Div D, Neg D where
  /-- Conversion of an integer value, and integer-valued literals. -/
  ofInt : Int → D
  lt : D → D → Bool
  le : D → D → Bool
  sqrt : D → D
  exp : D → D
  /-- Conversion to an integer type, which discards the fraction. -/
  trunc : D → Int
  /-- Nearest integer, halves away from zero. -/
  lround : D → Int

end Wei.Lib
