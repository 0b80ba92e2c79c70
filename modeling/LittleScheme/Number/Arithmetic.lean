import LittleScheme.Number.Basic

/-!
# Arithmetic

Exact operations are computed on unbounded integers and then checked against the 64-bit range, so a
result is either exact or a failure, never wrapped.
-/
namespace LittleScheme.Number

/-- The outcome of an operation. -/
abbrev Result := Except ArithmeticFault Number

/-- The integer `n` as the result of an operation. -/
def exact (operation : String) (n : Int) : Result :=
  match fit? n with
  | some n => .ok (.integer n)
  | none => .error (.overflow operation)

/-- The sum of two numbers. -/
def add : Number → Number → Result
  | integer a, integer b => exact "+" (a.toInt + b.toInt)
  | a, b => .ok (.real (a.toFloat + b.toFloat))

/-- The difference of two numbers. -/
def sub : Number → Number → Result
  | integer a, integer b => exact "-" (a.toInt - b.toInt)
  | a, b => .ok (.real (a.toFloat - b.toFloat))

/-- The product of two numbers. -/
def mul : Number → Number → Result
  | integer a, integer b => exact "*" (a.toInt * b.toInt)
  | a, b => .ok (.real (a.toFloat * b.toFloat))

/-- The quotient of two numbers. Integers that divide evenly stay exact. -/
def div : Number → Number → Result
  | integer a, integer b =>
      if b.toInt = 0 then .error (.divisionByZero "/")
      else if a.toInt.tmod b.toInt = 0 then exact "/" (a.toInt.tdiv b.toInt)
      else .ok (.real ((integer a).toFloat / (integer b).toFloat))
  | a, b => .ok (.real (a.toFloat / b.toFloat))

/-- A division of whole numbers. It fails on operands that are not whole, on a zero divisor, and on
integers whose truncated quotient overflows, whichever part of the division is asked for. -/
def wholeDivision (operation : String) (onInt : Int → Int → Int) (onFloat : Float → Float → Float)
    (a b : Number) : Result :=
  if !a.isInteger || !b.isInteger then .error (.notIntegers operation)
  else if b.isZero then .error (.divisionByZero operation)
  else
    match a, b with
    | integer a, integer b =>
        match fit? (a.toInt.tdiv b.toInt) with
        | some _ => exact operation (onInt a.toInt b.toInt)
        | none => .error (.overflow operation)
    | a, b => .ok (.real (onFloat a.toFloat b.toFloat))

/-- The quotient truncated toward zero. -/
def quotient : Number → Number → Result :=
  wholeDivision "quotient" Int.tdiv fun x y => Inexact.Rounding.towardZero.round (x / y)

/-- The remainder of the truncated quotient; it has the sign of the dividend. -/
def remainder : Number → Number → Result :=
  wholeDivision "remainder" Int.tmod Inexact.remainder

/-- The remainder that has the sign of the divisor: the one that is never negative, less a negative
divisor's magnitude unless it is zero. -/
def signedByDivisor (a b : Int) : Int :=
  let m := a % b
  if b < 0 ∧ m ≠ 0 then m + b else m

/-- The remainder of the floored quotient; it has the sign of the divisor. -/
def modulo : Number → Number → Result :=
  wholeDivision "modulo" signedByDivisor Inexact.modulo

/-- The number with the opposite sign, as a difference from zero. -/
def negate (a : Number) : Result := sub (.integer 0) a

/-- Reals from this magnitude on have no exact form. -/
def exactLimit : Float := 9.2e18

/-- The integer equal to a number. -/
def toExact : Number → Result
  | integer n => .ok (.integer n)
  | real x =>
      match Inexact.parts? x with
      | some p =>
          if p.isWhole && decide (x.abs < exactLimit) then .ok (.integer (Int64.ofInt p.toInt))
          else .error (.notExact x)
      | none => .error (.notExact x)

/-- The number as a real. -/
def toInexact (a : Number) : Number := .real a.toFloat

/-- The magnitude of a number. -/
def abs : Number → Result
  | integer n => exact "abs" n.toInt.natAbs
  | real x => .ok (.real x.abs)

/-- The square root. It is exact for the squares whose root the nearest double shows. -/
def sqrt : Number → Number
  | integer n =>
      let root := (integer n).toFloat.sqrt
      if n.toInt < 0 then .real root
      else
        match Inexact.parts? root with
        | some p =>
            let candidate := Inexact.Rounding.halfAway.magnitude p
            if (candidate * candidate : Int) = n.toInt then .integer (Int64.ofInt candidate)
            else .real root
        | none => .real root
  | real x => .real x.sqrt

/-- Exact powers are computed for exponents below this bound, `2 ^ 32`. -/
def exponentLimit : Int := 4294967296

/-- The product of two integers, if it fits in 64 bits. -/
def times? (a b : Int64) : Option Int64 := fit? (a.toInt * b.toInt)

/-- The product of `acc` and the power `base ^ n`, for an `n` from one on, by repeated squaring. Every
product on the way has to fit in 64 bits. -/
def timesPower? (acc base : Int64) (n : Nat) : Option Int64 :=
  if n ≤ 1 then times? acc base
  else do
    let acc ← if n % 2 = 1 then times? acc base else some acc
    timesPower? acc (← times? base base) (n / 2)
termination_by n

/-- The power `a ^ n`, if it fits in 64 bits. -/
def power? (a : Int64) (n : Nat) : Option Int64 := if n = 0 then some 1 else timesPower? 1 a n

/-- The power of two numbers. An integer to a natural power is exact or fails. -/
def expt : Number → Number → Result
  | integer a, integer b =>
      if b.toInt < 0 then .ok (.real ((integer a).toFloat.pow (integer b).toFloat))
      else if exponentLimit ≤ b.toInt then .error (.overflow "expt")
      else
        match power? a b.toInt.toNat with
        | some n => .ok (.integer n)
        | none => .error (.overflow "expt")
  | a, b => .ok (.real (a.toFloat.pow b.toFloat))

/-- The least or greatest of some numbers, real as soon as one of them is, NaN when one is. -/
def extremum (keep : Ordering) (first : Number) (rest : List Number) : Number :=
  let best := rest.foldl (fun best a =>
    match a.compare best with
    | some order => if order == keep then a else best
    | none => .real (0 / 0)) first
  if (first :: rest).any fun a => a matches .real _ then best.toInexact else best

end LittleScheme.Number
