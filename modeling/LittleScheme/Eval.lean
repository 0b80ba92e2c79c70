import LittleScheme.Store.Printer
import LittleScheme.Store.Scope

/-!
# Computations on a store

A computation reads and changes the store and ends in a value or stops early. The store is kept also
when it stops, since what was done before an error stays done.
-/
namespace LittleScheme

/-- Why a computation stopped without a value. -/
inductive Stop where
  /-- An error of the language. -/
  | error (e : Error)
  /-- An object had to be written into a message while one of its elements was being changed. -/
  | aborted
  /-- Standard input has to arrive first. -/
  | waiting
  /-- The steps allowed were used up. -/
  | outOfFuel
  deriving Repr

/-- A computation on a store. -/
abbrev Eval := EStateM Stop Store

namespace Eval

/-- Stop with an error. -/
def raise {α : Type} (e : Error) : Eval α := throw (.error e)

/-- Stop because of a fault of form. -/
def malformed {α : Type} (fault : SyntaxFault) : Eval α := raise (.malformed fault)

/-- Stop because the evaluation failed. -/
def fail {α : Type} (fault : Fault) : Eval α := raise (.failed fault .none)

/-- Stop because a name has no binding. -/
def unbound {α : Type} (name : String) : Eval α := raise (.unbound name .none)

/-- Read the store. -/
def ask {α : Type} (f : Store → α) : Eval α := fun s => .ok (f s) s

/-- Change the store. -/
def update (f : Store → Store) : Eval Unit := fun s => .ok () (f s)

/-- Make an object. -/
def make {α : Type} (f : Store → α × Store) : Eval α := fun s =>
  let (a, s) := f s
  .ok a s

/-- The text of a value, for a message. -/
def written (v : Value) : Eval String := ask fun s => s.written v

/-- The elements of a proper list. -/
def elements (v : Value) : Eval (List Value) := do
  match ← ask fun s => s.elements? v with
  | some items => return items
  | none => fail (.notList (← written v))

/-- The result of arithmetic. -/
def ofArithmetic (result : Except ArithmeticFault Number) : Eval Number :=
  match result with
  | .ok n => pure n
  | .error fault => fail (.arithmetic fault)

/-- The result of an operation on a port. -/
def ofPort {α : Type} (result : Except PortFault α) : Eval α :=
  match result with
  | .ok a => pure a
  | .error fault => fail (.port fault)

/-- The result of reading a text. -/
def ofReader {α : Type} (result : Except Error α) : Eval α :=
  match result with
  | .ok a => pure a
  | .error e => raise e

/-- The value of a name as seen from a scope. -/
def lookup (scope : Ref) (name : String) : Eval Value := do
  match ← ask fun s => s.get? scope name with
  | some v => return v
  | none => unbound name

/-- Bind a name in a scope. The value is the result. -/
def bind (scope : Ref) (name : String) (v : Value) : Eval Value := do
  update fun s => s.bind scope name v
  return v

/-- The innermost scope that binds a name. -/
def find (scope : Ref) (name : String) : Eval Ref := do
  match ← ask fun s => s.find? scope name with
  | some found => return found
  | none => unbound name

/-- Give a new value to a name that is bound, in the scope that binds it. -/
def assign (scope : Ref) (name : String) (v : Value) : Eval Value := do
  Eval.bind (← find scope name) name v

/-- Check the number of arguments of a procedure. -/
def checkArity (name : String) (arity : Arity) (count : Nat) : Eval Unit :=
  if arity.accepts count then pure () else fail (.arity name arity count)

/-- The scope for a call of a closure. -/
def enterCall (closure : Ref) (args : List Value) : Eval Ref := do
  let c ← ask fun s => s.closure closure
  checkArity c.title c.arity args.length
  make fun s => s.enterCall closure args

/-- A form that calls a procedure with values as they are: each is quoted. -/
def callForm (procedure : Value) (args : List Value) : Eval Value := do
  let quoted ← args.mapM fun v => make fun s => s.list [.keyword .quote, v]
  make fun s => s.listWithTail (procedure :: quoted) .nil

/-- A new scope with nothing around it. -/
def newRoot : Eval Ref := make fun s => (s.nextScope, s.pushScope {})

/-- A new scope inside another. -/
def newInside (scope : Ref) : Eval Ref :=
  make fun s => (s.nextScope, s.pushScope { parent := some scope })

end Eval
end LittleScheme
