import LittleScheme.Datum.Basic
import LittleScheme.Text.Literal

/-!
# The text of a datum

Data are finite, so the text follows the tree: a pair opens a list, its tail goes on with it, and a
tail that is not a list stands after a point.
-/
namespace LittleScheme.Datum

/-- What comes before a tail that is not a list. -/
def before (asTail : Bool) : String := if asTail then " . " else ""

mutual

/-- The text of a datum. As the tail of a pair, it goes on with a list that is already open. -/
def textAs (style : Text.Style) (asTail : Bool) : Datum → String
  | .nil => if asTail then "" else "()"
  | .pair car cdr =>
      let inner := textAs style false car ++ textAs style true cdr
      if asTail then " " ++ inner else "(" ++ inner ++ ")"
  | .bool b => before asTail ++ (if b then "#t" else "#f")
  | .number n => before asTail ++ n.text
  | .char c => before asTail ++ Text.charText style c
  | .string s => before asTail ++ Text.stringText style s
  | .symbol name => before asTail ++ name
  | .keyword k => before asTail ++ k.name
  | .vector items => before asTail ++ "#(" ++ Text.spaced (texts style items) ++ ")"
  | .bytes items =>
      before asTail ++ "#vu8(" ++ Text.spaced (items.map fun b => toString b.toNat) ++ ")"

/-- The texts of the elements of a vector. -/
def texts (style : Text.Style) : List Datum → List String
  | [] => []
  | d :: rest => textAs style false d :: texts style rest

end

/-- The text of a datum in the given style. -/
def text (style : Text.Style) (d : Datum) : String := textAs style false d

end LittleScheme.Datum
