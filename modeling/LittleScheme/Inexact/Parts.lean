/-!
# Inexact reals as exact numbers

An inexact real is a double. A finite one is exactly `± m · 2 ^ q` for a natural `m` and an integer
`q`, read off its bits here, so that rounding and printing can be done in exact integer arithmetic.
-/
namespace LittleScheme.Inexact

/-- The sign, mantissa and binary exponent of a finite double. -/
structure Parts where
  negative : Bool
  mantissa : Nat
  exponent : Int
  deriving DecidableEq, Repr

/-- The number of fractions that share an exponent field, `2 ^ 52`. -/
def fractionCount : Nat := 4503599627370496

/-- The number of exponent fields, `2 ^ 11`. -/
def fieldCount : Nat := 2048

/-- The least exponent of a double, shared by zero and the subnormal numbers. -/
def leastExponent : Int := -1074

/-- The exact parts of a finite double; infinities and NaN have none. -/
def parts? (x : Float) : Option Parts :=
  let bits : Nat := x.toBits.toNat
  let negative := decide (fieldCount * fractionCount ≤ bits)
  let field := bits / fractionCount % fieldCount
  let fraction := bits % fractionCount
  if field = fieldCount - 1 then none
  else if field = 0 then some ⟨negative, fraction, leastExponent⟩
  else some ⟨negative, fraction + fractionCount, (field : Int) - 1075⟩

namespace Parts

/-- The denominator of the magnitude as a fraction over a power of two. -/
def denominator (p : Parts) : Nat := Nat.pow 2 (-p.exponent).toNat

/-- The numerator of the magnitude over `denominator`. -/
def numerator (p : Parts) : Nat := p.mantissa * Nat.pow 2 p.exponent.toNat

/-- The magnitude is a natural number. -/
def isWhole (p : Parts) : Bool := p.numerator % p.denominator == 0

/-- The magnitude rounded down to a natural number. -/
def magnitude (p : Parts) : Nat := p.numerator / p.denominator

/-- The value rounded toward zero. -/
def toInt (p : Parts) : Int := if p.negative then -p.magnitude else p.magnitude

end Parts

/-- A whole number that is finite. -/
def isWhole (x : Float) : Bool :=
  match parts? x with
  | some p => p.isWhole
  | none => false

/-- A natural number as a double with the given sign, so that a negative zero can be had. -/
def signed (negative : Bool) (n : Nat) : Float :=
  if negative then -(Float.ofNat n) else Float.ofNat n

/-- The order of two doubles; NaN stands in no order to anything. -/
def compare (x y : Float) : Option Ordering :=
  if x < y then some .lt
  else if y < x then some .gt
  else if x == y then some .eq
  else none

end LittleScheme.Inexact
