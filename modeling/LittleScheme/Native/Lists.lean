import LittleScheme.Native.Argument
import LittleScheme.Store.Equality

/-!
# Native procedures on pairs and lists

A list that is walked to its end has to be proper, which is checked first, so none of these runs
forever on a circle. What a procedure does not have to copy it shares.
-/
namespace LittleScheme.Native.Lists

open Argument

/-- The pair that an argument refers to. -/
def pairRef (name : String) : Value → Eval Ref
  | .pair r => return r
  | v => wrongType name .pair v

/-- The tail of a chain after `n` pairs. -/
def tailAfter? (s : Store) : Nat → Value → Option Value
  | 0, v => some v
  | n + 1, .pair r => tailAfter? s n (s.cdr r)
  | _ + 1, _ => none

/-- The elements of the lists before the last argument in new pairs, in front of the last argument
itself. -/
def joined (args : List Value) : Eval Value := do
  match args.getLast? with
  | none => return .nil
  | some tail =>
      let items ← args.dropLast.mapM (properList "append" .properList)
      Eval.make fun s => s.listWithTail items.flatten tail

/-- A bound on the length of lists, above every integer. -/
def longest : Nat := 18446744073709551615

/-- The part of a chain that is left after some pairs. -/
def tailOf (chain count : Value) : Eval Value := do
  let n ← index "list-tail" longest count
  match ← Eval.ask fun s => tailAfter? s n chain with
  | some tail => return tail
  | none => Eval.fail (.shortList (← Eval.written chain) n)

/-- What the procedures do. -/
def run (p : Lists) (args : List Value) : Eval Value :=
  match p, args with
  | .cons, [a, b] => Eval.make fun s => s.cons a b
  | .car, [v] => do
      let r ← pairRef "car" v
      Eval.ask fun s => s.car r
  | .cdr, [v] => do
      let r ← pairRef "cdr" v
      Eval.ask fun s => s.cdr r
  | .setCar, [target, v] => do
      let r ← pairRef "set-car!" target
      Eval.update fun s => s.setCar r v
      return .void
  | .setCdr, [target, v] => do
      let r ← pairRef "set-cdr!" target
      Eval.update fun s => s.setCdr r v
      return .void
  | .list, args => Eval.make fun s => s.list args
  | .length, [v] => do return .ofNat (← properList "length" .properList v).length
  | .append, args => joined args
  | .reverse, [v] => do
      let items ← properList "reverse" .properList v
      Eval.make fun s => s.list items.reverse
  | .listTail, [chain, count] => tailOf chain count
  | .isNull, [v] => return .bool v.isNil
  | .isPair, [v] => return .bool v.isPair
  | .isList, [v] => return .bool (← Eval.ask fun s => s.isList v)
  | .eq, [a, b] | .eqv, [a, b] => return .bool (a.same b)
  | .equal, [a, b] => return .bool (← Eval.ask fun s => s.equal a b)
  | .not, [v] => return .bool (!v.isTrue)
  | p, args => wrongCount p.name p.arity args

end LittleScheme.Native.Lists
