import LittleScheme.Keyword
import LittleScheme.Number.Basic

/-!
# Data

What the reader makes of a text: finite trees without identity. Loaded into a store they become
values whose parts can be shared and changed.
-/
namespace LittleScheme

/-- A readable datum. -/
inductive Datum where
  | nil
  | bool (b : Bool)
  | number (n : Number)
  | char (c : Char)
  | string (s : String)
  | symbol (name : String)
  | keyword (k : Keyword)
  | pair (car cdr : Datum)
  | vector (items : List Datum)
  | bytes (items : List UInt8)
  deriving Repr

namespace Datum

/-- The data `items` in front of `tail`. -/
def listWithTail (items : List Datum) (tail : Datum) : Datum := items.foldr pair tail

/-- The proper list of `items`. -/
def list (items : List Datum) : Datum := listWithTail items nil

/-- The form that stands for the datum itself. -/
def quoted (d : Datum) : Datum := list [keyword .quote, d]

@[simp] theorem listWithTail_nil (tail : Datum) : listWithTail [] tail = tail := rfl

@[simp] theorem listWithTail_cons (d : Datum) (items : List Datum) (tail : Datum) :
    listWithTail (d :: items) tail = pair d (listWithTail items tail) := rfl

end Datum
end LittleScheme
