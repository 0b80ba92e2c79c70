import LittleScheme.Inexact.Rounding
import LittleScheme.Inexact.Text

/-!
# Numbers

A number is a 64-bit integer, which is exact, or a double, which is not. There is nothing in
between: an operation on integers gives an integer or fails, and one real operand makes the result
real.
-/
namespace LittleScheme

/-- A number of the language. -/
inductive Number where
  | integer (n : Int64)
  | real (x : Float)
  deriving Repr

/-- The ways in which arithmetic fails. The operation is named as the program wrote it. -/
inductive ArithmeticFault where
  | overflow (operation : String)
  | divisionByZero (operation : String)
  | notIntegers (operation : String)
  | notExact (x : Float)
  deriving Repr

namespace ArithmeticFault

/-- The text of a failure. -/
def message : ArithmeticFault → String
  | overflow operation => operation ++ ": integer overflow"
  | divisionByZero operation => operation ++ ": division by zero"
  | notIntegers operation => operation ++ ": expected integer arguments"
  | notExact x => "inexact->exact: no exact representation of " ++ Inexact.text x

end ArithmeticFault

namespace Number

/-- The least 64-bit integer. -/
def least : Int := -9223372036854775808

/-- The greatest 64-bit integer. -/
def greatest : Int := 9223372036854775807

/-- The 64-bit integer equal to `n`, if there is one. -/
def fit? (n : Int) : Option Int64 :=
  if least ≤ n ∧ n ≤ greatest then some (Int64.ofInt n) else none

/-- The double nearest to an integer: the one nearest to its magnitude, with its sign. -/
def nearest (n : Int64) : Float :=
  let magnitude := n.toInt.natAbs.toUInt64.toFloat
  if n.toInt < 0 then -magnitude else magnitude

/-- The number as a double, the nearest one for a large integer. -/
def toFloat : Number → Float
  | integer n => nearest n
  | real x => x

/-- Integers, and reals that are whole. -/
def isInteger : Number → Bool
  | integer _ => true
  | real x => Inexact.isWhole x

/-- Equal to zero, exactly or not. -/
def isZero (a : Number) : Bool := a.toFloat == 0

/-- The order of two numbers, exact between integers. -/
def compare : Number → Number → Option Ordering
  | integer a, integer b => some (Ord.compare a.toInt b.toInt)
  | a, b => Inexact.compare a.toFloat b.toFloat

/-- Equality of values, where an integer may equal a real. -/
def numericEq (a b : Number) : Bool := a.compare b == some .eq

/-- The text of a number. -/
def text : Number → String
  | integer n => toString n.toInt
  | real x => Inexact.text x

end Number
end LittleScheme
