import LittleScheme.Inexact.Shortest

/-!
# The text of a real

A real is written with the fewest digits that read back, always with a point or an exponent, so that
it never looks like an integer.
-/
namespace LittleScheme.Inexact

/-- The decisions of a notation for reals. -/
structure Format where
  /-- Positional notation is used for leading exponents from this one on. -/
  positionalFrom : Int
  /-- Positional notation is used for leading exponents below this one. -/
  positionalBelow : Int
  /-- Added to a whole number in positional notation. -/
  wholeSuffix : String
  exponentMark : String
  nan : String
  positiveInfinity : String
  negativeInfinity : String

/-- Reals are positional from `1e-4` up to, not including, `1e16`. -/
def standard : Format where
  positionalFrom := -4
  positionalBelow := 16
  wholeSuffix := ".0"
  exponentMark := "e"
  nan := "+nan.0"
  positiveInfinity := "+inf.0"
  negativeInfinity := "-inf.0"

/-- A run of zeros. -/
def zeros (n : Nat) : String := String.ofList (List.replicate n '0')

/-- The digits `digits`, of which the first counts `10 ^ lead`, in positional notation. -/
def Format.positional (style : Format) (digits : List Char) (lead : Int) : String :=
  if lead < 0 then
    "0." ++ zeros (-lead - 1).toNat ++ String.ofList digits
  else
    let whole := lead.toNat + 1
    if digits.length ≤ whole then
      String.ofList digits ++ zeros (whole - digits.length) ++ style.wholeSuffix
    else
      String.ofList (digits.take whole) ++ "." ++ String.ofList (digits.drop whole)

/-- The same digits with an exponent. -/
def Format.scientific (style : Format) (digits : List Char) (lead : Int) : String :=
  let fraction := digits.drop 1
  String.ofList (digits.take 1) ++ (if fraction.isEmpty then "" else "." ++ String.ofList fraction)
    ++ style.exponentMark ++ toString lead

/-- The text of a finite magnitude. -/
def Format.magnitude (style : Format) (p : Parts) : String :=
  if p.mantissa = 0 then "0" ++ style.wholeSuffix
  else
    let d := p.shortest
    let digits := Nat.toDigits 10 d.coefficient
    let lead := d.exponent + digits.length - 1
    if style.positionalFrom ≤ lead ∧ lead < style.positionalBelow then style.positional digits lead
    else style.scientific digits lead

/-- The text of a double. -/
def Format.text (style : Format) (x : Float) : String :=
  match parts? x with
  | some p => (if p.negative then "-" else "") ++ style.magnitude p
  | none =>
      if x.isNaN then style.nan
      else if 0 < x then style.positiveInfinity
      else style.negativeInfinity

/-- The text of a real in the standard notation. -/
def text (x : Float) : String := standard.text x

end LittleScheme.Inexact
