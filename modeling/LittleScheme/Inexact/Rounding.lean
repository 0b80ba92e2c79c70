import LittleScheme.Inexact.Parts

/-!
# Rounding reals to whole numbers

Every rule rounds the exact magnitude `n / d` of a finite double to `⌊n / d⌋` or one more. The sign
stays, also on a zero. Infinities and NaN are returned as they are.
-/
namespace LittleScheme.Inexact

/-- Which of the two neighbouring whole numbers is taken. -/
inductive Rounding where
  | down
  | up
  | towardZero
  /-- To the nearest, a half to the even neighbour. -/
  | halfToEven
  /-- To the nearest, a half away from zero. -/
  | halfAway
  deriving DecidableEq, Repr

namespace Rounding

/-- Whether the magnitude `whole + remainder / denominator` goes to `whole + 1`. -/
def awayFromZero (rule : Rounding) (negative : Bool) (whole remainder denominator : Nat) : Bool :=
  match rule with
  | .down => negative && remainder != 0
  | .up => !negative && remainder != 0
  | .towardZero => false
  | .halfToEven =>
      decide (denominator < 2 * remainder) || (2 * remainder == denominator && whole % 2 == 1)
  | .halfAway => decide (denominator ≤ 2 * remainder)

/-- The magnitude of a finite double after rounding. -/
def magnitude (rule : Rounding) (p : Parts) : Nat :=
  let whole := p.numerator / p.denominator
  let remainder := p.numerator % p.denominator
  if rule.awayFromZero p.negative whole remainder p.denominator then whole + 1 else whole

/-- Round a double to a whole one. -/
def round (rule : Rounding) (x : Float) : Float :=
  match parts? x with
  | none => x
  | some p => if p.isWhole then x else signed p.negative (rule.magnitude p)

end Rounding

/-- The remainder of the division of two whole doubles that truncates; it has the sign of the
dividend, also when it is zero. It is exact: the remainder of two doubles is a double. -/
def remainder (x y : Float) : Float :=
  match parts? x, parts? y with
  | some p, some q => signed p.negative (p.magnitude % q.magnitude)
  | _, _ => x - x

/-- The remainder of two whole doubles that floors: it has the sign of the divisor. -/
def modulo (x y : Float) : Float :=
  let m := remainder x y
  if m != 0 && decide (m < 0) != decide (y < 0) then m + y else m

end LittleScheme.Inexact
