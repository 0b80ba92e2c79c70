import LittleScheme.Native.Argument
import LittleScheme.Number.Arithmetic

/-!
# Native procedures on numbers

All arguments are checked to be numbers before anything is computed, except that the first argument
of a difference or quotient is checked first.
-/
namespace LittleScheme.Native.Numeric

open Argument

/-- Combine numbers from left to right. -/
def fold (op : Number → Number → Number.Result) (first : Number) (rest : List Number) :
    Eval Value := do
  let total ← rest.foldlM (fun total n => Eval.ofArithmetic (op total n)) first
  return .number total

/-- An operation that changes the meaning of one argument, such as a difference. -/
def foldFrom (name : String) (alone : Number → Number.Result)
    (op : Number → Number → Number.Result) (first : Value) (rest : List Value) : Eval Value := do
  let first ← number name first
  match rest with
  | [] => return .number (← Eval.ofArithmetic (alone first))
  | rest => fold op first (← numbers name rest)

/-- An operation on two numbers. -/
def binary (name : String) (op : Number → Number → Number.Result) (a b : Value) : Eval Value := do
  let a ← number name a
  let b ← number name b
  return .number (← Eval.ofArithmetic (op a b))

/-- Every two neighbouring numbers stand in one of the given orders. -/
def ordered (name : String) (orders : List Ordering) (args : List Value) : Eval Value := do
  let ns ← numbers name args
  return .bool (ascending (fun a b => (a.compare b).any orders.contains) ns)

/-- The least or greatest number. -/
def extremum (name : String) (keep : Ordering) (first : Value) (rest : List Value) :
    Eval Value := do
  match ← numbers name (first :: rest) with
  | first :: rest => return .number (Number.extremum keep first rest)
  | [] => return .nil

/-- Round a real to a whole one; an integer is whole. -/
def rounding (name : String) (rule : Inexact.Rounding) (v : Value) : Eval Value := do
  match ← number name v with
  | .integer n => return .integer n
  | .real x => return .number (.real (rule.round x))

/-- What the procedures do. -/
def run (p : Numeric) (args : List Value) : Eval Value :=
  match p, args with
  | .add, args => do fold Number.add (.integer 0) (← numbers "+" args)
  | .mul, args => do fold Number.mul (.integer 1) (← numbers "*" args)
  | .sub, first :: rest => foldFrom "-" Number.negate Number.sub first rest
  | .div, first :: rest => foldFrom "/" (Number.div (.integer 1)) Number.div first rest
  | .quotient, [a, b] => binary "quotient" Number.quotient a b
  | .remainder, [a, b] => binary "remainder" Number.remainder a b
  | .modulo, [a, b] => binary "modulo" Number.modulo a b
  | .equal, args => ordered "=" [.eq] args
  | .less, args => ordered "<" [.lt] args
  | .greater, args => ordered ">" [.gt] args
  | .lessEqual, args => ordered "<=" [.lt, .eq] args
  | .greaterEqual, args => ordered ">=" [.gt, .eq] args
  | .abs, [v] => do return .number (← Eval.ofArithmetic (← number "abs" v).abs)
  | .min, first :: rest => extremum "min" .lt first rest
  | .max, first :: rest => extremum "max" .gt first rest
  | .isNumber, [v] | .isReal, [v] => return .bool (v matches .number _)
  | .isInteger, [v] =>
      match v with
      | .number n => return .bool n.isInteger
      | _ => return .bool false
  | .isZero, [v] => do return .bool (← number "zero?" v).isZero
  | .toInexact, [v] => do return .number (← number "exact->inexact" v).toInexact
  | .toExact, [v] => do
      return .number (← Eval.ofArithmetic (← number "inexact->exact" v).toExact)
  | .floor, [v] => rounding "floor" .down v
  | .ceiling, [v] => rounding "ceiling" .up v
  | .round, [v] => rounding "round" .halfToEven v
  | .truncate, [v] => rounding "truncate" .towardZero v
  | .sqrt, [v] => do return .number (← number "sqrt" v).sqrt
  | .expt, [a, b] => binary "expt" Number.expt a b
  | p, args => wrongCount p.name p.arity args

end LittleScheme.Native.Numeric
