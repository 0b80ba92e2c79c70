import LittleScheme.Form
import LittleScheme.Native.Call

/-!
# Evaluation on a stack of frames

A frame is an expression under evaluation, in a copy of its own. When it needs the value of an
operand it puts a frame for the operand on the stack, whose value is written into the pair that
holds the operand in the copy. In tail position nothing is put on the stack: the frame goes on with
the tail expression, or gives way to the body of the procedure it calls.

A call made by the native `apply` starts on an empty stack while the stack below it is suspended, so
an error is traced through the innermost stack only.
-/
namespace LittleScheme

/-- An expression under evaluation. -/
structure Frame where
  expr : Value
  scope : Ref
  /-- The operands have been given to frames above this one. -/
  pushed : Bool := false
  /-- The pair whose first part receives the value; without one it is the result. -/
  destination : Option Ref := none
  deriving Repr

namespace Frame

/-- A frame for an expression, with a copy of the pairs of a list. -/
def new (expr : Value) (scope : Ref) (destination : Option Ref) : Eval Frame := do
  return { expr := ← Eval.make fun s => s.copySpine expr, scope, destination }

/-- Frames for the expressions of a body, the first on top. All have the same destination, so the
last value stays. -/
def ofBody (body : Value) (scope : Ref) (destination : Option Ref) : Eval (List Frame) := do
  (← Eval.ask fun s => s.elements body).mapM fun expr => new expr scope destination

/-- What becomes of a frame in one step. -/
inductive Transition where
  /-- The frame is done. -/
  | value (v : Value)
  /-- The frame stays below the frames of its operands. -/
  | suspend (frame : Frame) (above : List Frame)
  /-- Other frames take over its destination. -/
  | replace (frames : List Frame)
  /-- Its value is that of a call on a stack of its own. -/
  | call (procedure : Value) (args : List Value)
  deriving Repr

/-- Go on with an expression in tail position. -/
def goOn (f : Frame) (expr : Value) : Eval Transition := do
  let expr ← Eval.make fun s => s.copySpine expr
  return .suspend { f with expr, pushed := false } []

/-- Wait for the value of an expression in the pair that is to hold it. -/
def await (f : Frame) (expr : Value) (cell : Ref) : Eval Transition := do
  return .suspend { f with pushed := true } [← new expr f.scope (some cell)]

/-- An expression that does not stand for itself. -/
def needsEvaluation (s : Store) (v : Value) : Bool :=
  match v with
  | .symbol _ | .keyword _ => true
  | .pair _ => s.isList v
  | _ => false

/-- The value of an expression that needs no frame: a variable, or one that stands for itself. -/
def trivialValue (v : Value) (scope : Ref) : Eval (Option Value) := do
  match v with
  | .symbol name => return some (← Eval.lookup scope name)
  | v => if ← Eval.ask fun s => needsEvaluation s v then return none else return some v

/-- The value of an operand that needs no frame, or has had one: then it has arrived. -/
def settledValue (arrived : Bool) (v : Value) (scope : Ref) : Eval (Option Value) :=
  if arrived then pure (some v) else trivialValue v scope

/-- The value of the test of a clause that needs no frame, or has had one. -/
def settledTest (arrived : Bool) (test : Value) (scope : Ref) : Eval (Option Value) :=
  match arrived, test with
  | false, .keyword .otherwise => return some (.bool true)
  | arrived, test => settledValue arrived test scope

/-- The pairs of an application that hold expressions still to be evaluated. -/
def pendingCells (s : Store) (f : Frame) : List Ref :=
  if f.pushed then []
  else (s.cells f.expr).filter fun cell => needsEvaluation s (s.car cell)

/-- A frame for the expression in a pair, whose value goes to that pair. -/
def forCell (scope cell : Ref) : Eval Frame := do
  new (← Eval.ask fun s => s.car cell) scope (some cell)

/-- Call the procedure of an application whose operator and operands are values. -/
def stepCall (f : Frame) (form : Ref) : Eval Transition := do
  let args ← Eval.ask fun s => s.elements (s.cdr form)
  match ← Eval.ask fun s => s.car form with
  | .native p =>
      match ← p.call args with
      | .value v => return .value v
      | .call procedure args => return .call procedure args
  | .closure r =>
      let scope ← Eval.enterCall r args
      return .replace (← ofBody (← Eval.ask fun s => (s.closure r).body) scope f.destination)
  | v => Eval.fail (.notProcedure (← Eval.written v))

/-- An application: first its operator and operands are evaluated, then the procedure is called. -/
def stepApplication (f : Frame) (form : Ref) : Eval Transition := do
  let pending ← Eval.ask fun s => pendingCells s f
  if pending.isEmpty then stepCall f form
  else return .suspend { f with pushed := true } (← pending.mapM (forCell f.scope))

/-- A conditional waits for its test. -/
def stepConditional (f : Frame) (operands : Value) : Eval Transition := do
  let parts ← Form.conditional operands
  let test ← Eval.ask fun s => s.car parts.test
  if !f.pushed then await f test parts.test
  else if test.isTrue then goOn f parts.consequent
  else
    match parts.alternate with
    | some alternate => goOn f alternate
    | none => return .value .void

/-- A definition of a variable waits for its value. -/
def stepDefinition (f : Frame) (operands : Value) : Eval Transition := do
  match ← Form.definition operands f.scope with
  | .procedure name closure => return .value (← Eval.bind f.scope name closure)
  | .variable name cell =>
      let v ← Eval.ask fun s => s.car cell
      if f.pushed then return .value (← Eval.bind f.scope name v) else await f v cell

/-- An assignment waits for its value. -/
def stepAssignment (f : Frame) (operands : Value) : Eval Transition := do
  let (name, cell) ← Form.assignment operands
  let v ← Eval.ask fun s => s.car cell
  if f.pushed then return .value (← Eval.assign f.scope name v) else await f v cell

/-- The forms `and`, where `wanted` is true, and `or`, where it is false. The operands are those
left in the copy of the form; one that has been dealt with is dropped from it, and the last is a
tail expression. When `arrived`, the first of them is a value already. -/
def stepLogical (f : Frame) (form : Ref) (wanted arrived : Bool) : List Ref → Eval Transition
  | [] => return .value (.bool wanted)
  | cell :: rest => do
      let operand ← Eval.ask fun s => s.car cell
      if !arrived && rest.isEmpty then goOn f operand
      else
        match ← settledValue arrived operand f.scope with
        | none => await f operand cell
        | some v =>
            if v.isTrue != wanted then return .value (if wanted then .bool false else v)
            else
              Eval.update fun s => s.setCdr form (s.cdr cell)
              stepLogical f form wanted false rest

/-- The form `cond`. A clause whose test fails is dropped from the copy of the form. The value of a
test is written into a pair made for it, so the clause itself is left alone. When `arrived`, the
test of the first clause is a value already. -/
def stepCond (f : Frame) (form : Ref) (arrived : Bool) : List Ref → Eval Transition
  | [] => return .value (.bool false)
  | cell :: rest => do
      let clause ← Form.clause (← Eval.ask fun s => s.car cell)
      let test ← Eval.ask fun s => s.car clause
      let body ← Eval.ask fun s => s.cdr clause
      match ← settledTest arrived test f.scope with
      | none =>
          let head ← Eval.make fun s => (s.nextPair, s.pushPair test body)
          Eval.update fun s => s.setCar cell (.pair head)
          await f test head
      | some v =>
          if v.isTrue then
            if body.isNil then return .value v else goOn f (← Form.sequence body)
          else
            Eval.update fun s => s.setCdr form (s.cdr cell)
            stepCond f form false rest

/-- A proper list by its head: the special form or the application that it is now. -/
def stepHead (f : Frame) (form : Ref) (operands : Value) : Value → Eval Transition
  | .keyword .quote => do return .value (← Form.quotation operands)
  | .keyword .ifThen => stepConditional f operands
  | .keyword .define => stepDefinition f operands
  | .keyword .set => stepAssignment f operands
  | .keyword .lambda => do return .value (← Form.lambda operands f.scope)
  | .keyword .letIn => do
      return .suspend { f with expr := ← Form.letApplication operands f.scope, pushed := false } []
  | .keyword .cond => do stepCond f form f.pushed (← Eval.ask fun s => s.cells operands)
  | .keyword .and => do stepLogical f form true f.pushed (← Eval.ask fun s => s.cells operands)
  | .keyword .or => do stepLogical f form false f.pushed (← Eval.ask fun s => s.cells operands)
  | .keyword .begin => do
      if operands.isNil then return .value .void
      else return .replace (← ofBody operands f.scope f.destination)
  | .keyword .otherwise => Eval.malformed .strayOtherwise
  | _ => stepApplication f form

/-- A proper list. -/
def stepForm (f : Frame) (form : Ref) : Eval Transition := do
  stepHead f form (← Eval.ask fun s => s.cdr form) (← Eval.ask fun s => s.car form)

/-- One step of a frame. -/
def step (f : Frame) : Eval Transition := do
  match f.expr with
  | .symbol name => return .value (← Eval.lookup f.scope name)
  | .keyword k => Eval.malformed (.keywordExpression k)
  | .pair r => if ← Eval.ask fun s => s.isList f.expr then stepForm f r else return .value f.expr
  | v => return .value v

end Frame

/-- A stack that waits for a call made by its top frame, which is gone, and where the value goes. -/
structure Suspended where
  frames : List Frame
  result : Value
  destination : Option Ref
  deriving Repr

/-- The frames of the innermost evaluation, top first, its result so far and the stacks below. -/
structure Machine where
  frames : List Frame
  result : Value := .void
  suspended : List Suspended := []
  deriving Repr

namespace Machine

/-- A machine that is about to evaluate an expression. -/
def start (expr : Value) (scope : Ref) : Eval Machine := do
  return { frames := [← Frame.new expr scope none] }

/-- The pending frames shown with an error. -/
def trace (s : Store) (limit : Nat) (frames : List Frame) : Trace where
  shown := (frames.take limit).map fun f => s.written f.expr
  omitted := frames.length - limit

/-- Give a value to a destination. -/
def deliver (m : Machine) (destination : Option Ref) (v : Value) : Eval Machine := do
  match destination with
  | some cell =>
      Eval.update fun s => s.setCar cell v
      return m
  | none => return { m with result := v }

/-- The machine after a step of its top frame, which has been taken off. -/
def advance (m : Machine) (destination : Option Ref) : Frame.Transition → Eval Machine
  | .value v => m.deliver destination v
  | .suspend frame above => return { m with frames := above ++ frame :: m.frames }
  | .replace frames => return { m with frames := frames ++ m.frames }
  | .call procedure args => do
      let form ← Eval.callForm procedure args
      let inner ← start form (← Eval.newRoot)
      return { inner with suspended := ⟨m.frames, m.result, destination⟩ :: m.suspended }

/-- A computation whose errors are traced through a stack of frames. -/
def traced {α : Type} (limit : Nat) (frames : List Frame) (x : Eval α) : Eval α := fun s =>
  match x s with
  | .error (.error e) s => .error (.error (e.withTrace (trace s limit frames))) s
  | outcome => outcome

/-- One step: the machine after it, or the value of the whole evaluation. -/
def step (limit : Nat) (m : Machine) : Eval (Machine ⊕ Value) := do
  match m.frames with
  | f :: rest =>
      let transition ← traced limit m.frames f.step
      return .inl (← advance { m with frames := rest } f.destination transition)
  | [] =>
      match m.suspended with
      | outer :: suspended =>
          let m' : Machine := { frames := outer.frames, result := outer.result, suspended }
          return .inl (← m'.deliver outer.destination m.result)
      | [] => return .inr m.result

/-- Run a machine for at most so many steps. -/
def run (limit : Nat) : Nat → Machine → Eval Value
  | 0, _ => throw .outOfFuel
  | n + 1, m => do
      match ← m.step limit with
      | .inl m => run limit n m
      | .inr v => return v

/-- The value of an expression in a scope. -/
def eval (limit fuel : Nat) (expr : Value) (scope : Ref) : Eval Value := do
  run limit fuel (← start expr scope)

end Machine
end LittleScheme
