import LittleScheme.Inexact.Parts

/-!
# The fewest digits that read back

A positive double is the nearest double to every real of an interval around it. Among the decimals
in that interval we take one with the fewest digits, and of those the nearest to the double; when
two are equally near, the larger. For each number of digits only the two neighbours of the double on
the decimal grid need a test, and the test is exact in natural numbers.
-/
namespace LittleScheme.Inexact

/-- The decimal `coefficient · 10 ^ exponent`. -/
structure Decimal where
  coefficient : Nat
  exponent : Int
  deriving DecidableEq, Repr

/-- The interval of reals that round to a double, its ends and the double itself counted in units
of `2 ^ unit`. The ends belong to it when `closed`. -/
structure Interval where
  low : Nat
  middle : Nat
  high : Nat
  unit : Int
  closed : Bool
  deriving DecidableEq, Repr

/-- Doubles just below a power of two are twice as dense as those just above it, so the lower end
is nearer there. A tie between two doubles goes to the even mantissa. -/
def Parts.interval (p : Parts) : Interval :=
  let atPower := p.mantissa == fractionCount && decide (leastExponent < p.exponent)
  { low := 4 * p.mantissa - (if atPower then 1 else 2)
    middle := 4 * p.mantissa
    high := 4 * p.mantissa + 2
    unit := p.exponent - 2
    closed := p.mantissa % 2 == 0 }

namespace Interval

/-- The factor that takes a count of units to the numerator over `denominator k`, in steps of
`10 ^ k`. -/
def factor (i : Interval) (k : Int) : Nat := Nat.pow 2 i.unit.toNat * Nat.pow 10 (-k).toNat

/-- The denominator of counts in steps of `10 ^ k`. -/
def denominator (i : Interval) (k : Int) : Nat := Nat.pow 2 (-i.unit).toNat * Nat.pow 10 k.toNat

/-- The decimal `c · 10 ^ k` lies in the interval. -/
def contains (i : Interval) (k : Int) (c : Nat) : Bool :=
  let point := c * i.denominator k
  let low := i.low * i.factor k
  let high := i.high * i.factor k
  if i.closed then decide (low ≤ point) && decide (point ≤ high)
  else decide (low < point) && decide (point < high)

/-- The multiple of `10 ^ k` in the interval nearest to its middle, the larger of two as near. -/
def onGrid (i : Interval) (k : Int) : Option Nat :=
  let middle := i.middle * i.factor k
  let c := middle / i.denominator k
  if i.contains k c then
    if i.contains k (c + 1) && decide ((2 * c + 1) * i.denominator k ≤ 2 * middle) then some (c + 1)
    else some c
  else if i.contains k (c + 1) then some (c + 1)
  else none

/-- The exponent of the leading decimal digit of the middle. The scale of 340 digits makes every
double at least one. -/
def leadingExponent (i : Interval) : Int :=
  let scaled := i.middle * i.factor (-340) / i.denominator (-340)
  (Nat.toDigits 10 scaled).length - 1 - 340

end Interval

/-- Move trailing zeros, at most `n` of them, into the exponent. -/
def Decimal.trim : Nat → Decimal → Decimal
  | 0, d => d
  | n + 1, d =>
      if d.coefficient % 10 == 0 then trim n ⟨d.coefficient / 10, d.exponent + 1⟩ else d

/-- The shortest decimal for a positive double. Seventeen digits always have a point in the
interval, so the last alternative is never taken. -/
def Parts.shortest (p : Parts) : Decimal :=
  let i := p.interval
  let lead := i.leadingExponent
  let found := (List.range 17).findSome? fun (n : Nat) =>
    (i.onGrid (lead - n)).map fun c => (⟨c, lead - n⟩ : Decimal)
  (found.getD ⟨p.mantissa, p.exponent⟩).trim 17

end LittleScheme.Inexact
