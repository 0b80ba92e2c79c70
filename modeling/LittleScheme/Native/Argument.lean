import LittleScheme.Eval

/-!
# Arguments of native procedures

Each reader takes one argument as what a procedure expects, or stops with a message that names the
procedure and shows the argument.
-/
namespace LittleScheme.Native.Argument

/-- Stop because an argument is of another type. -/
def wrongType {α : Type} (name : String) (expected : Expected) (v : Value) : Eval α := do
  Eval.fail (.wrongType name expected (← Eval.written v))

/-- Stop because of the number of arguments. -/
def wrongCount {α : Type} (name : String) (arity : Arity) (args : List Value) : Eval α :=
  Eval.fail (.arity name arity args.length)

/-- A number. -/
def number (name : String) : Value → Eval Number
  | .number n => return n
  | v => wrongType name .number v

/-- Numbers, all of them checked before any is used. -/
def numbers (name : String) (args : List Value) : Eval (List Number) := args.mapM (number name)

/-- An integer that is exact. -/
def integer (name : String) : Value → Eval Int
  | .number (.integer n) => return n.toInt
  | v => wrongType name .integer v

/-- An integer from zero on and below `bound`. -/
def index (name : String) (bound : Nat) (v : Value) : Eval Nat := do
  let n ← integer name v
  if 0 ≤ n ∧ n < bound then return n.toNat else Eval.fail (.outOfRange name n)

/-- The length of a new object. -/
def length (name : String) (v : Value) : Eval Nat := do
  let n ← integer name v
  if 0 ≤ n then return n.toNat else Eval.fail (.negativeLength name n)

/-- A byte. -/
def byte (name : String) (v : Value) : Eval UInt8 := do
  let n ← integer name v
  if 0 ≤ n ∧ n < 256 then return UInt8.ofNat n.toNat else Eval.fail (.notByte name n)

/-- The contents of a string. -/
def string (name : String) : Value → Eval String
  | .string r => Eval.ask fun s => s.string r
  | v => wrongType name .string v

/-- A character. -/
def char (name : String) : Value → Eval Char
  | .char c => return c
  | v => wrongType name .character v

/-- The elements of a proper list. -/
def properList (name : String) (expected : Expected) (v : Value) : Eval (List Value) := do
  match ← Eval.ask fun s => s.elements? v with
  | some items => return items
  | none => wrongType name expected v

/-- Every two neighbours are related. -/
def ascending {α : Type} (related : α → α → Bool) : List α → Bool
  | a :: b :: rest => related a b && ascending related (b :: rest)
  | _ => true

end LittleScheme.Native.Argument
