import LittleScheme.Store.Basic

/-!
# Lexical scope

A name is looked up in a scope and then in the scopes around it, up to the root. The procedure of a
named `let` is found in the scope of that `let` unless the name has been bound there since.
-/
namespace LittleScheme

namespace Scope

/-- The scope has a binding for the name. -/
def contains (c : Scope) (name : String) : Bool :=
  c.bindings.contains name ||
  match c.loop with
  | some (bound, _) => bound == name
  | none => false

/-- The value of a name in this scope alone. -/
def lookup? (c : Scope) (name : String) : Option Value :=
  match c.bindings[name]? with
  | some v => some v
  | none =>
      match c.loop with
      | some (bound, procedure) => if bound == name then some (.closure procedure) else none
      | none => none

/-- Bind a name, new or not. -/
def bind (c : Scope) (name : String) (v : Value) : Scope :=
  { c with bindings := c.bindings.insert name v }

end Scope

namespace Store

/-- The scope at a place. -/
def scope (s : Store) (r : Ref) : Scope := s.scopes.getD r {}

/-- The place of the next scope. -/
def nextScope (s : Store) : Ref := s.scopes.size

/-- A new scope at the place `nextScope`. -/
def pushScope (s : Store) (c : Scope) : Store := { s with scopes := s.scopes.push c }

/-- A scope and the scopes around it, innermost first, at most `n` of them. -/
def chainWithin (s : Store) : Nat → Ref → List Ref
  | 0, _ => []
  | n + 1, r =>
      r :: match (s.scope r).parent with
        | some parent => s.chainWithin n parent
        | none => []

/-- A scope and the scopes around it. A scope is made after the one around it, so its place bounds
the number of scopes. -/
def chain (s : Store) (r : Ref) : List Ref := s.chainWithin (r + 1) r

/-- The innermost scope that binds a name. -/
def find? (s : Store) (r : Ref) (name : String) : Option Ref :=
  (s.chain r).find? fun r => (s.scope r).contains name

/-- The value of a name as seen from a scope. -/
def get? (s : Store) (r : Ref) (name : String) : Option Value :=
  (s.chain r).findSome? fun r => (s.scope r).lookup? name

/-- Bind a name in a scope. -/
def bind (s : Store) (r : Ref) (name : String) (v : Value) : Store :=
  { s with scopes := s.scopes.modify r fun c => c.bind name v }

/-- Bind names in a scope one after the other. -/
def bindAll (s : Store) (r : Ref) (bindings : List (String × Value)) : Store :=
  bindings.foldl (fun s (name, v) => s.bind r name v) s

/-- A closure for a named `let`: its scope, inside `r`, knows it by its name. -/
def newLoop (s : Store) (r : Ref) (name : String) (params : List String) (rest : Option String)
    (body : Value) : Value × Store :=
  let scope := s.nextScope
  let s := s.pushScope { parent := some r, loop := some (name, s.closures.size) }
  s.newClosure { name := some name, params, rest, body, scope }

end Store

namespace Closure

/-- The number of arguments a closure takes. -/
def arity (c : Closure) : Arity :=
  match c.rest with
  | some _ => .atLeast c.params.length
  | none => .exactly c.params.length

/-- The name a closure is called by in messages. -/
def title (c : Closure) : String := c.name.getD "#<procedure>"

end Closure

/-- The scope for a call of a closure: the parameters stand for the arguments in order, the rest
parameter for a new list of those left over. -/
def Store.enterCall (s : Store) (r : Ref) (args : List Value) : Ref × Store :=
  let c := s.closure r
  let scope := s.nextScope
  let s := s.pushScope { parent := some c.scope, caller := some r }
  let s := s.bindAll scope (c.params.zip args)
  match c.rest with
  | none => (scope, s)
  | some rest =>
      let (more, s) := s.list (args.drop c.params.length)
      (scope, s.bind scope rest more)

end LittleScheme
