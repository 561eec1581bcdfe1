import Mathlib.Data.Int.Log
import Mathlib.Data.Rat.Floor

/-!
# Rounding to a 53-bit significand

A finite double is the rational number it denotes. `round` is rounding to the nearest number with a
53-bit significand, ties to the even significand; the exponent is not bounded, so neither overflow
nor subnormal numbers are represented.
-/

namespace Binary64

/-- The nearest integer, ties to even. -/
def roundToInt (x : ℚ) : ℤ :=
  let n := ⌊x⌋
  if x - n < 1 / 2 then n
  else if 1 / 2 < x - n then n + 1
  else if n % 2 = 0 then n
  else n + 1

/-- The weight of the last of the 53 significant bits of `x`. -/
def ulp (x : ℚ) : ℚ := 2 ^ (Int.log 2 |x| - 52)

/-- The double nearest to `x`. -/
def round (x : ℚ) : ℚ := if x = 0 then 0 else roundToInt (x / ulp x) * ulp x

/-- The integer part, towards zero: what a cast to an integer type keeps of a double. -/
def truncate (x : ℚ) : ℤ := if 0 ≤ x then ⌊x⌋ else ⌈x⌉

end Binary64

/-- A double: a finite one is the rational it denotes; infinities and NaN are not told apart. -/
inductive Double where
  | finite (x : ℚ)
  | special
  deriving DecidableEq

namespace Double

/-- The double nearest to an integer. -/
def ofInt (i : ℤ) : Double := .finite (Binary64.round i)

/-- The double nearest to the product, which does not overflow. -/
def mul : Double → Double → Double
  | .finite x, .finite y => .finite (Binary64.round (x * y))
  | _, _ => .special

end Double
