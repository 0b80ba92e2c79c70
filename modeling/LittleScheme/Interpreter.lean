import LittleScheme.Direct
import LittleScheme.Machine
import LittleScheme.Prelude
import LittleScheme.Reader

/-!
# Evaluators and environments

Two strategies of evaluation, the environments a program starts from, and the evaluation of whole
texts. The fuel bounds the steps of the stack machine and the depth of the recursion.
-/
namespace LittleScheme

/-- How expressions are evaluated. -/
inductive Strategy where
  /-- By recursion, without traces. -/
  | recursive
  /-- On a stack of frames, with traces and proper tail calls. -/
  | stack
  deriving DecidableEq, Repr

/-- A strategy and the number of frames shown in a trace. -/
structure Evaluator where
  strategy : Strategy := .stack
  traceLimit : Nat := 16
  deriving DecidableEq, Repr

namespace Evaluator

/-- The value of an expression in a scope. -/
def eval (e : Evaluator) (fuel : Nat) (expr : Value) (scope : Ref) : Eval Value :=
  match e.strategy with
  | .recursive => Direct.eval fuel expr scope
  | .stack => Machine.eval e.traceLimit fuel expr scope

/-- The value of a procedure for arguments that are values already: that of the form
`(procedure 'argument ...)` with nothing in scope. -/
def apply (e : Evaluator) (fuel : Nat) (procedure : Value) (args : List Value) : Eval Value := do
  let form ← Eval.callForm procedure args
  e.eval fuel form (← Eval.newRoot)

/-- The value of the last of some expressions, evaluated in order; void if there are none. -/
def evalAll (e : Evaluator) (fuel : Nat) (exprs : List Value) (scope : Ref) : Eval Value :=
  exprs.foldlM (fun _ expr => e.eval fuel expr scope) .void

/-- The value of a text. All of it is read before anything is evaluated. -/
def evalText (e : Evaluator) (fuel : Nat) (text : String) (scope : Ref) : Eval Value := do
  let data ← Eval.ofReader (Reader.parseAll text)
  let exprs ← Eval.make fun s => s.loadAll data
  e.evalAll fuel exprs scope

/-- Define the procedures of the prelude in a scope. -/
def loadPrelude (e : Evaluator) (fuel : Nat) (scope : Ref) : Eval Unit := do
  for definition in Prelude.definitions do
    let _ ← e.evalText fuel definition scope

end Evaluator

/-- A root scope that binds the native procedures and nothing else. -/
def nativeEnvironment : Eval Ref := do
  let scope ← Eval.newRoot
  Eval.update fun s => s.bindAll scope (Native.all.map fun p => (p.name, .native p))
  return scope

/-- A root scope with the native procedures and the prelude. -/
def standardEnvironment (e : Evaluator) (fuel : Nat) : Eval Ref := do
  let scope ← nativeEnvironment
  e.loadPrelude fuel scope
  return scope

/-- An evaluator with the environment in which it evaluates texts. Definitions stay from one text to
the next. -/
structure Interpreter where
  evaluator : Evaluator
  environment : Ref
  deriving Repr

namespace Interpreter

/-- An interpreter with a fresh environment, with or without the prelude. -/
def new (evaluator : Evaluator) (prelude : Bool) (fuel : Nat) : Eval Interpreter := do
  let environment ← if prelude then standardEnvironment evaluator fuel else nativeEnvironment
  return { evaluator, environment }

/-- The value of a text. -/
def evalText (i : Interpreter) (fuel : Nat) (text : String) : Eval Value :=
  i.evaluator.evalText fuel text i.environment

/-- The value of a procedure for some arguments. -/
def apply (i : Interpreter) (fuel : Nat) (procedure : Value) (args : List Value) : Eval Value :=
  i.evaluator.apply fuel procedure args

/-- The value of a name. -/
def get (i : Interpreter) (name : String) : Eval Value := Eval.lookup i.environment name

end Interpreter
end LittleScheme
