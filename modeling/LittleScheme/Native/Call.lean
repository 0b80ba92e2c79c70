import LittleScheme.Native.Lists
import LittleScheme.Native.Numeric
import LittleScheme.Native.Ports
import LittleScheme.Native.Texts
import LittleScheme.Native.Vectors

/-!
# Calling native procedures

A native procedure answers with a value. Only `apply` answers with a call that is still to be made:
native procedures do not run the evaluator themselves.
-/
namespace LittleScheme.Native

open Argument

/-- The answer of a native procedure. -/
inductive Reply where
  | value (v : Value)
  /-- The result is that of calling a procedure with these arguments. -/
  | call (procedure : Value) (args : List Value)
  deriving Repr

namespace Control

/-- The call that `apply` asks for: the last argument is a list of arguments. -/
def spreadCall (procedure : Value) (args : List Value) : Eval Reply := do
  unless procedure.isProcedure do wrongType "apply" .procedure procedure
  match args.getLast? with
  | none => return .call procedure []
  | some spread =>
      let items ← properList "apply" .spreadList spread
      return .call procedure (args.dropLast ++ items)

/-- The text of an error raised by a program: the message is displayed, the rest written. -/
def errorText (s : Store) (message : Value) (irritants : List Value) : String :=
  Text.spaced (s.displayed message :: irritants.map s.written)

/-- What the procedures do. -/
def run (p : Control) (args : List Value) : Eval Reply :=
  match p, args with
  | .isProcedure, [v] => return .value (.bool v.isProcedure)
  | .apply, procedure :: args => spreadCall procedure args
  | .error, message :: irritants => do
      Eval.fail (.raised (← Eval.ask fun s => errorText s message irritants))
  | p, args => wrongCount p.name p.arity args

end Control

/-- What a native procedure does with the right number of arguments. -/
def run (p : Native) (args : List Value) : Eval Reply :=
  match p with
  | .numeric p => return .value (← p.run args)
  | .lists p => return .value (← p.run args)
  | .texts p => return .value (← p.run args)
  | .vectors p => return .value (← p.run args)
  | .ports p => return .value (← p.run args)
  | .control p => p.run args

/-- Call a native procedure. -/
def call (p : Native) (args : List Value) : Eval Reply := do
  Eval.checkArity p.name p.arity args.length
  p.run args

end LittleScheme.Native
