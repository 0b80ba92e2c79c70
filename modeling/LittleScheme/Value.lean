import LittleScheme.Keyword
import LittleScheme.Native.Basic
import LittleScheme.Number.Basic

/-!
# Values

A value is an atom or a reference to an object of a store. Two references are the same object
exactly when they are equal.
-/
namespace LittleScheme

/-- The place of an object in the table of its kind. -/
abbrev Ref := Nat

/-- A value of a running program. -/
inductive Value where
  | nil
  | bool (b : Bool)
  | number (n : Number)
  | char (c : Char)
  | string (ref : Ref)
  | symbol (name : String)
  | keyword (k : Keyword)
  | pair (ref : Ref)
  | vector (ref : Ref)
  | bytes (ref : Ref)
  | native (p : Native)
  | closure (ref : Ref)
  | port (ref : Ref)
  | eof
  | void
  deriving Repr

instance : Inhabited Value := ⟨.nil⟩

namespace Value

/-- An integer value. -/
def integer (n : Int64) : Value := number (.integer n)

/-- A natural number as an integer value. -/
def ofNat (n : Nat) : Value := integer (Int64.ofNat n)

/-- Everything but `#f` counts as true. -/
def isTrue : Value → Bool
  | bool false => false
  | _ => true

/-- The empty list. -/
def isNil : Value → Bool
  | nil => true
  | _ => false

/-- A pair, proper list or not. -/
def isPair : Value → Bool
  | pair _ => true
  | _ => false

/-- A procedure of either kind. -/
def isProcedure : Value → Bool
  | native _ | closure _ => true
  | _ => false

/-- The name of the type of a value. -/
def typeName : Value → String
  | nil => "empty list"
  | bool _ => "boolean"
  | number (.integer _) => "integer"
  | number (.real _) => "real"
  | char _ => "character"
  | string _ => "string"
  | symbol _ | keyword _ => "symbol"
  | pair _ => "pair"
  | vector _ => "vector"
  | bytes _ => "bytevector"
  | native _ | closure _ => "procedure"
  | port _ => "port"
  | eof => "eof"
  | void => "void"

/-- Identity of objects, equality of atoms. Numbers are the same only within one kind. -/
def same : Value → Value → Bool
  | nil, nil | eof, eof | void, void => true
  | bool a, bool b => a == b
  | number (.integer a), number (.integer b) => a == b
  | number (.real a), number (.real b) => a == b
  | char a, char b => a == b
  | symbol a, symbol b => a == b
  | keyword a, keyword b => a == b
  | string a, string b => a == b
  | pair a, pair b => a == b
  | vector a, vector b => a == b
  | bytes a, bytes b => a == b
  | native a, native b => a == b
  | closure a, closure b => a == b
  | port a, port b => a == b
  | _, _ => false

end Value
end LittleScheme
