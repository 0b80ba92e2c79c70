import LittleScheme.Eval

/-!
# Special forms

The shapes of the special forms, checked and taken apart. Both evaluators go through here, so they
agree on what is malformed and on which of two faults is reported. A form is handed over as the
chain of its operands; parts that an evaluator may have to replace are handed back as the pairs
holding them.
-/
namespace LittleScheme.Form

/-- The operands of a form as they stand in a message, without the parentheses of their list. -/
def operandsText (s : Store) (operands : Value) : String :=
  let text := s.written operands
  if operands.isPair then String.ofList text.toList.tail.dropLast else text

/-- Stop because the operands do not fit the form. -/
def malformed {α : Type} (form : Keyword) (operands : Value) : Eval α := do
  Eval.malformed (.malformedForm form (← Eval.ask fun s => operandsText s operands))

/-- The pairs that hold the operands of a form. There are at least `low` and at most `high`. -/
def operandCells (form : Keyword) (operands : Value) (low : Nat) (high : Option Nat) :
    Eval (List Ref) := do
  if ← Eval.ask fun s => s.isList operands then
    let cells ← Eval.ask fun s => s.cells operands
    if low ≤ cells.length ∧ high.all fun high => cells.length ≤ high then
      return cells
  malformed form operands

/-- A name that may be bound: any symbol, never a keyword. -/
def bindingName : Value → Eval String
  | .symbol name => return name
  | .keyword k => Eval.malformed (.boundKeyword k)
  | v => do Eval.malformed (.notIdentifier (← Eval.written v))

/-- The parameters with one more after them, which is none of those before. -/
def addParameter (params : List String) (v : Value) : Eval (List String) := do
  let name ← bindingName v
  if params.contains name then Eval.malformed (.duplicateParameter name)
  return params ++ [name]

/-- The fixed parameters and the rest parameter of `(a b . rest)`, `(a b)` or a bare `rest`, after
the parameters already taken. -/
def parametersWithin : Nat → List String → Value → Eval (List String × Option String)
  | _, params, .nil => return (params, none)
  | n + 1, params, .pair r => do
      let params ← addParameter params (← Eval.ask fun s => s.car r)
      parametersWithin n params (← Eval.ask fun s => s.cdr r)
  | 0, _, .pair _ => throw .outOfFuel
  | _, params, v => return (params, some (← bindingName v))

/-- The parameters of a procedure. In a circular list a name comes twice before the pairs of the
store are used up. -/
def parameters (spec : Value) : Eval (List String × Option String) := do
  parametersWithin (← Eval.ask fun s => s.pairs.size + 1) [] spec

/-- A body is a list of at least one expression. -/
def checkBody (body : Value) : Eval Unit := do
  if body.isNil || !(← Eval.ask fun s => s.isList body) then
    Eval.malformed (.emptyBody (← Eval.written body))

/-- A closure made in a scope. -/
def makeClosure (name : Option String) (spec body : Value) (scope : Ref) : Eval Value := do
  checkBody body
  let (params, rest) ← parameters spec
  Eval.make fun s => s.newClosure { name, params, rest, body, scope }

/-- The value of `(quote value)`. -/
def quotation (operands : Value) : Eval Value := do
  match ← operandCells .quote operands 1 (some 1) with
  | [value] => Eval.ask fun s => s.car value
  | _ => malformed .quote operands

/-- The value of `(lambda parameters body ...)`. -/
def lambda (operands : Value) (scope : Ref) : Eval Value := do
  match ← operandCells .lambda operands 2 none with
  | spec :: _ =>
      makeClosure none (← Eval.ask fun s => s.car spec) (← Eval.ask fun s => s.cdr spec) scope
  | [] => malformed .lambda operands

/-- What a definition introduces: a variable, with the pair that holds its expression, or a
procedure, which is made already. -/
inductive Definition where
  | variable (name : String) (cell : Ref)
  | procedure (name : String) (closure : Value)
  deriving Repr

/-- The form `(define name value)` or `(define (name . parameters) body ...)`. -/
def definition (operands : Value) (scope : Ref) : Eval Definition := do
  match ← operandCells .define operands 2 none with
  | first :: second :: more =>
      match ← Eval.ask fun s => s.car first with
      | .pair target =>
          let name ← bindingName (← Eval.ask fun s => s.car target)
          let spec ← Eval.ask fun s => s.cdr target
          let closure ← makeClosure (some name) spec (← Eval.ask fun s => s.cdr first) scope
          return .procedure name closure
      | target =>
          if more.isEmpty then return .variable (← bindingName target) second
          else malformed .define operands
  | _ => malformed .define operands

/-- The form `(set! name value)`: the name and the pair that holds the expression. -/
def assignment (operands : Value) : Eval (String × Ref) := do
  match ← operandCells .set operands 2 (some 2) with
  | [name, value] => return (← bindingName (← Eval.ask fun s => s.car name), value)
  | _ => malformed .set operands

/-- A conditional: the pair that holds the test, and the two branches. -/
structure Conditional where
  test : Ref
  consequent : Value
  alternate : Option Value
  deriving Repr

/-- The form `(if test consequent)` or `(if test consequent alternate)`. -/
def conditional (operands : Value) : Eval Conditional := do
  match ← operandCells .ifThen operands 2 (some 3) with
  | [test, consequent] => return ⟨test, ← Eval.ask fun s => s.car consequent, none⟩
  | [test, consequent, alternate] =>
      return ⟨test, ← Eval.ask fun s => s.car consequent,
        some (← Eval.ask fun s => s.car alternate)⟩
  | _ => malformed .ifThen operands

/-- A clause of `cond`: a proper list `(test body ...)`. -/
def clause (v : Value) : Eval Ref := do
  match v with
  | .pair r => if ← Eval.ask fun s => s.isList v then return r
  | _ => pure ()
  Eval.malformed (.notClause (← Eval.written v))

/-- A body as one expression: itself when it holds only one, else a `begin` around it. -/
def sequence (body : Value) : Eval Value := do
  let wrapped : Eval Value := Eval.make fun s => s.cons (.keyword .begin) body
  match body with
  | .pair r =>
      if (← Eval.ask fun s => s.cdr r).isNil then Eval.ask fun s => s.car r else wrapped
  | _ => wrapped

/-- The parts of a `let`: the name of a named one, its bindings and its body. -/
structure LetParts where
  name : Option String
  bindings : Value
  body : Value
  deriving Repr

/-- Tell a named `let` from a plain one. -/
def letParts (operands : Value) : Eval LetParts := do
  match ← operandCells .letIn operands 2 none with
  | first :: second :: more =>
      match ← Eval.ask fun s => s.car first with
      | .symbol name =>
          if more.isEmpty then
            return ⟨none, .symbol name, ← Eval.ask fun s => s.cdr first⟩
          else
            return ⟨some name, ← Eval.ask fun s => s.car second, ← Eval.ask fun s => s.cdr second⟩
      | .keyword k => Eval.malformed (.boundKeyword k)
      | bindings => return ⟨none, bindings, ← Eval.ask fun s => s.cdr first⟩
  | _ => malformed .letIn operands

/-- The name and the expression of one binding of a `let`. -/
def letBinding (binding : Value) : Eval (Value × Value) := do
  match ← Eval.ask fun s => s.elements? binding with
  | some [name, value] => return (name, value)
  | _ => Eval.malformed (.notBinding (← Eval.written binding))

/-- The application that a `let` stands for: a closure with the bound names as its parameters, made
in the scope of the `let`, called with the bound expressions. They are evaluated outside the closure
and bound all at once. The closure of a named `let` is known by its name in a scope of its own. -/
def letApplication (operands : Value) (scope : Ref) : Eval Value := do
  let parts ← letParts operands
  match ← Eval.ask fun s => s.elements? parts.bindings with
  | none => malformed .letIn operands
  | some bindings =>
      let bindings ← bindings.mapM letBinding
      checkBody parts.body
      let params ← bindings.foldlM (fun params binding => addParameter params binding.1) []
      let closure ← match parts.name with
        | some name => Eval.make fun s => s.newLoop scope name params none parts.body
        | none => Eval.make fun s =>
            s.newClosure { name := none, params, rest := none, body := parts.body, scope }
      Eval.make fun s => s.listWithTail (closure :: bindings.map Prod.snd) .nil

end LittleScheme.Form
