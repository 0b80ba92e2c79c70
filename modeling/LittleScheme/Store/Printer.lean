import LittleScheme.Store.Chain
import LittleScheme.Text.Literal

/-!
# The text of a value

A pair is written along its chain, so circles through second parts are cut off with a mark. The
elements are written one level deeper. A value that does not contain itself through a first part or
an element of a vector is nested at most as deep as there are pairs and vectors; one that does has
no text of its own.
-/
namespace LittleScheme.Store

/-- The name of a procedure, if it has one. -/
def procedureName? (s : Store) : Value → Option String
  | .native p => some p.name
  | .closure r => (s.closure r).name
  | _ => none

/-- The text of a procedure. -/
def procedureText (s : Store) (v : Value) : String :=
  match s.procedureName? v with
  | some name => "#<procedure " ++ name ++ ">"
  | none => "#<procedure>"

/-- The text of a value that is nested at most so deep. -/
def textWithin (s : Store) (style : Text.Style) : Nat → Value → String
  | 0, _ => "..."
  | depth + 1, v =>
      match v with
      | .nil => "()"
      | .bool b => if b then "#t" else "#f"
      | .number n => n.text
      | .char c => Text.charText style c
      | .string r => Text.stringText style (s.string r)
      | .symbol name => name
      | .keyword k => k.name
      | .pair r =>
          let (items, ending) := s.spine r
          let inner := Text.spaced (items.map (s.textWithin style depth))
          match ending with
          | .proper => "(" ++ inner ++ ")"
          | .dotted tail => "(" ++ inner ++ " . " ++ s.textWithin style depth tail ++ ")"
          | .circular => "(" ++ inner ++ " ...)"
      | .vector r =>
          "#(" ++ Text.spaced ((s.vector r).toList.map (s.textWithin style depth)) ++ ")"
      | .bytes r =>
          "#vu8(" ++ Text.spaced ((s.bytevector r).toList.map fun b => toString b.toNat) ++ ")"
      | .native _ | .closure _ => s.procedureText v
      | .port _ => "#<port>"
      | .eof => "#<eof>"
      | .void => "#<void>"

/-- The values that are written inside a value. -/
def parts (s : Store) : Value → List Value
  | .pair r =>
      let (items, ending) := s.spine r
      match ending with
      | .dotted tail => items ++ [tail]
      | _ => items
  | .vector r => (s.vector r).toList
  | _ => []

/-- A value is nested at most so deep. -/
def nestedWithin (s : Store) : Nat → Value → Bool
  | 0, _ => false
  | depth + 1, v => (s.parts v).all (s.nestedWithin depth)

/-- How deep a value can be nested. -/
def depthLimit (s : Store) : Nat := s.pairs.size + s.vectors.size + 2

/-- The text of a value in the given style, a mark for one that contains itself. -/
def text (s : Store) (style : Text.Style) (v : Value) : String :=
  if s.nestedWithin s.depthLimit v then s.textWithin style s.depthLimit v else "..."

/-- The text of a value as the reader takes it back. -/
def written (s : Store) (v : Value) : String := s.text .write v

/-- The text of a value with strings and characters bare. -/
def displayed (s : Store) (v : Value) : String := s.text .display v

/-- Writing a value, nested at most so deep, comes across an object. -/
def mentionsWithin (s : Store) (target : Value) : Nat → Value → Bool
  | 0, _ => false
  | depth + 1, v => v.same target || (s.parts v).any (s.mentionsWithin target depth)

/-- Writing a value comes across an object. -/
def mentions (s : Store) (target v : Value) : Bool := s.mentionsWithin target s.depthLimit v

end LittleScheme.Store
