import LittleScheme.Number.Basic

/-!
# Number literals

A literal is an optional sign and then digits, digits with a point among, before or after them, and
an optional exponent. Digits alone denote an integer when it fits in 64 bits. Everything else that
has the form of a literal, and the four names of infinities and NaN, denotes a real.
-/
namespace LittleScheme.Number

/-- A decimal digit. -/
def isDigit (c : Char) : Bool := decide ('0' ≤ c) && decide (c ≤ '9')

/-- The natural number that a run of digits denotes. -/
def ofDigits (digits : List Char) : Nat :=
  digits.foldl (fun n c => 10 * n + (c.toNat - '0'.toNat)) 0

/-- An optional sign, true for a minus, and what follows it. -/
def takeSign : List Char → Bool × List Char
  | '+' :: rest => (false, rest)
  | '-' :: rest => (true, rest)
  | rest => (false, rest)

/-- An integer with the given sign. -/
def signedInt (negative : Bool) (n : Nat) : Int := if negative then -n else n

/-- The form of a literal: a sign, the digits before and after the point, and the exponent. -/
structure Literal where
  negative : Bool
  whole : List Char
  fraction : List Char
  exponent : Int
  deriving DecidableEq, Repr

/-- The exponent that ends a literal: nothing, or a mark, an optional sign and digits. -/
def exponent? : List Char → Option Int
  | [] => some 0
  | mark :: rest =>
      let (negative, digits) := takeSign rest
      if (mark = 'e' ∨ mark = 'E') ∧ digits ≠ [] ∧ digits.all isDigit then
        some (signedInt negative (ofDigits digits))
      else none

/-- A text as a literal with digits on at least one side of the point. -/
def literal? (cs : List Char) : Option Literal :=
  let (negative, cs) := takeSign cs
  let whole := cs.takeWhile isDigit
  match cs.dropWhile isDigit with
  | '.' :: rest =>
      let fraction := rest.takeWhile isDigit
      if whole = [] ∧ fraction = [] then none
      else (exponent? (rest.dropWhile isDigit)).map fun e => ⟨negative, whole, fraction, e⟩
  | rest =>
      if whole = [] then none
      else (exponent? rest).map fun e => ⟨negative, whole, [], e⟩

/-- The double nearest to a literal. Decimals from `1e310` on are infinite and those below `1e-330`
are zero, whatever their digits, so no large power of ten is computed for them. -/
def Literal.toFloat (l : Literal) : Float :=
  let digits := (l.whole ++ l.fraction).dropWhile (· == '0')
  let scale := l.exponent - l.fraction.length
  let lead := scale + digits.length
  let magnitude :=
    if digits = [] ∨ lead < -330 then 0
    else if 310 < lead then 1 / 0
    else Float.ofScientific (ofDigits digits) (decide (scale < 0)) scale.natAbs
  if l.negative then -magnitude else magnitude

/-- The integer that a text denotes: an optional sign and digits, within the 64-bit range. -/
def integer? (cs : List Char) : Option Int64 :=
  let (negative, digits) := takeSign cs
  if digits ≠ [] ∧ digits.all isDigit then fit? (signedInt negative (ofDigits digits)) else none

/-- The reals that are written by name. -/
def namedReals : List (String × Float) :=
  [("+inf.0", 1 / 0), ("-inf.0", -1 / 0), ("+nan.0", 0 / 0), ("-nan.0", 0 / 0)]

/-- The number that a text denotes, if it denotes one. -/
def parse? (s : String) : Option Number :=
  match namedReals.lookup s with
  | some x => some (.real x)
  | none =>
      match integer? s.toList with
      | some n => some (.integer n)
      | none => (literal? s.toList).map fun l => .real l.toFloat

end LittleScheme.Number
