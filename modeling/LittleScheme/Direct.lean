import LittleScheme.Form
import LittleScheme.Native.Call

/-!
# Evaluation by recursion

The meaning of an expression told directly: every part is evaluated by a recursive call. A list is
followed while its elements are evaluated, so an element sees what those before it have changed. The
first argument bounds the depth of the recursion.
-/
namespace LittleScheme.Direct

mutual

/-- The value of an expression in a scope. Atoms, and pairs that are no proper list, stand for
themselves. -/
def eval : Nat → Value → Ref → Eval Value
  | 0, _, _ => throw .outOfFuel
  | n + 1, v, scope =>
      match v with
      | .symbol name => Eval.lookup scope name
      | .keyword k => Eval.malformed (.keywordExpression k)
      | .pair r => do
          if ← Eval.ask fun s => s.isList v then evalForm n r scope else return v
      | v => return v

/-- The value of a proper list: a special form, or else an application. -/
def evalForm : Nat → Ref → Ref → Eval Value
  | 0, _, _ => throw .outOfFuel
  | n + 1, form, scope => do
      let operands ← Eval.ask fun s => s.cdr form
      match ← Eval.ask fun s => s.car form with
      | .keyword .quote => Form.quotation operands
      | .keyword .ifThen => do
          let parts ← Form.conditional operands
          let test ← eval n (← Eval.ask fun s => s.car parts.test) scope
          if test.isTrue then eval n parts.consequent scope
          else
            match parts.alternate with
            | some alternate => eval n alternate scope
            | none => return .void
      | .keyword .define => do
          match ← Form.definition operands scope with
          | .procedure name closure => Eval.bind scope name closure
          | .variable name cell => do
              let v ← eval n (← Eval.ask fun s => s.car cell) scope
              Eval.bind scope name v
      | .keyword .set => do
          let (name, cell) ← Form.assignment operands
          let v ← eval n (← Eval.ask fun s => s.car cell) scope
          Eval.assign scope name v
      | .keyword .lambda => Form.lambda operands scope
      | .keyword .letIn => do eval n (← Form.letApplication operands scope) scope
      | .keyword .cond => evalClauses n operands scope
      | .keyword .and => evalAnd n (.bool true) operands scope
      | .keyword .or => evalOr n operands scope
      | .keyword .begin => evalBody n .void operands scope
      | .keyword .otherwise => Eval.malformed .strayOtherwise
      | operator => do
          let procedure ← eval n operator scope
          let args ← evalEach n operands scope
          apply n procedure args

/-- The values of the elements of a list, from left to right. -/
def evalEach : Nat → Value → Ref → Eval (List Value)
  | 0, _, _ => throw .outOfFuel
  | n + 1, list, scope =>
      match list with
      | .pair r => do
          let rest ← Eval.ask fun s => s.cdr r
          let v ← eval n (← Eval.ask fun s => s.car r) scope
          let vs ← evalEach n rest scope
          return v :: vs
      | _ => return []

/-- The value of the last element of a list, after those before it; `last` if it has none. -/
def evalBody : Nat → Value → Value → Ref → Eval Value
  | 0, _, _, _ => throw .outOfFuel
  | n + 1, last, body, scope =>
      match body with
      | .pair r => do
          let rest ← Eval.ask fun s => s.cdr r
          let v ← eval n (← Eval.ask fun s => s.car r) scope
          evalBody n v rest scope
      | _ => return last

/-- The value of the first clause whose test is true. -/
def evalClauses : Nat → Value → Ref → Eval Value
  | 0, _, _ => throw .outOfFuel
  | n + 1, clauses, scope =>
      match clauses with
      | .pair r => do
          let rest ← Eval.ask fun s => s.cdr r
          let clause ← Form.clause (← Eval.ask fun s => s.car r)
          let test ← match ← Eval.ask fun s => s.car clause with
            | .keyword .otherwise => pure (.bool true)
            | test => eval n test scope
          if test.isTrue then
            let body ← Eval.ask fun s => s.cdr clause
            if body.isNil then return test else evalBody n .void body scope
          else evalClauses n rest scope
      | _ => return .bool false

/-- The last value when all are true, `#f` at the first that is not; `last` if there are none. -/
def evalAnd : Nat → Value → Value → Ref → Eval Value
  | 0, _, _, _ => throw .outOfFuel
  | n + 1, last, operands, scope =>
      match operands with
      | .pair r => do
          let rest ← Eval.ask fun s => s.cdr r
          let v ← eval n (← Eval.ask fun s => s.car r) scope
          if v.isTrue then evalAnd n v rest scope else return .bool false
      | _ => return last

/-- The first value that is true, `#f` if none is. -/
def evalOr : Nat → Value → Ref → Eval Value
  | 0, _, _ => throw .outOfFuel
  | n + 1, operands, scope =>
      match operands with
      | .pair r => do
          let rest ← Eval.ask fun s => s.cdr r
          let v ← eval n (← Eval.ask fun s => s.car r) scope
          if v.isTrue then return v else evalOr n rest scope
      | _ => return .bool false

/-- The value of a procedure for some arguments. -/
def apply : Nat → Value → List Value → Eval Value
  | 0, _, _ => throw .outOfFuel
  | n + 1, procedure, args =>
      match procedure with
      | .native p => do
          match ← p.call args with
          | .value v => return v
          | .call procedure args => do
              let form ← Eval.callForm procedure args
              eval n form (← Eval.newRoot)
      | .closure r => do
          let scope ← Eval.enterCall r args
          evalBody n .void (← Eval.ask fun s => (s.closure r).body) scope
      | v => do Eval.fail (.notProcedure (← Eval.written v))

end

end LittleScheme.Direct
