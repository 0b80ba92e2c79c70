import LittleScheme.Direct
import LittleScheme.Proofs.Traces

/-!
# Recursion without traces

The recursive evaluator raises errors as they arise. It attaches no trace to them.
-/
namespace LittleScheme.Direct

open Eval

theorem stopsFresh_outOfFuel {α : Type} : StopsFresh (throw .outOfFuel : Eval α) := by
  intro s e s' h
  obtain ⟨rfl, -⟩ := EStateM.Result.error.inj h
  trivial

theorem stopsFresh_callForm (procedure : Value) (args : List Value) :
    StopsFresh (callForm procedure args) :=
  (stopsFresh_mapM (fun _ => stopsFresh_make _) args).bind fun _ => stopsFresh_make _

mutual

theorem stopsFresh_eval (n : Nat) (v : Value) (a : Ref) : StopsFresh (eval n v a) := by
  cases n with
  | zero =>
      unfold eval
      exact stopsFresh_outOfFuel
  | succ n =>
      unfold eval
      split
      · exact (checks_lookup _ _).stopsFresh
      · exact (checks_malformed _).stopsFresh
      · refine .after_ask fun list => ?_
        split
        · exact stopsFresh_evalForm n _ a
        · exact stopsFresh_pure _
      · exact stopsFresh_pure _

theorem stopsFresh_evalForm (n : Nat) (form a : Ref) : StopsFresh (evalForm n form a) := by
  cases n with
  | zero =>
      unfold evalForm
      exact stopsFresh_outOfFuel
  | succ n =>
      unfold evalForm
      refine .after_ask fun operands => .after_ask fun head => ?_
      split
      · exact (Form.checks_quotation _).stopsFresh
      · refine (Form.checks_conditional _).stopsFresh.bind fun parts => .after_ask fun test =>
          (stopsFresh_eval n test a).bind fun _ => ?_
        split
        · exact stopsFresh_eval n _ a
        · split
          · exact stopsFresh_eval n _ a
          · exact stopsFresh_pure _
      · refine (Form.stopsFresh_definition _ _).bind fun definition => ?_
        split
        · exact stopsFresh_bind _ _ _
        · exact .after_ask fun expr => (stopsFresh_eval n expr a).bind fun _ => stopsFresh_bind _ _ _
      · exact (Form.checks_assignment _).stopsFresh.bind fun _ => .after_ask fun expr =>
          (stopsFresh_eval n expr a).bind fun _ => stopsFresh_assign _ _ _
      · exact Form.stopsFresh_lambda _ _
      · exact (Form.stopsFresh_letApplication _ _).bind fun call => stopsFresh_eval n call a
      · exact stopsFresh_evalClauses n _ a
      · exact stopsFresh_evalAnd n _ _ a
      · exact stopsFresh_evalOr n _ a
      · exact stopsFresh_evalBody n _ _ a
      · exact (checks_malformed _).stopsFresh
      · exact (stopsFresh_eval n _ a).bind fun procedure => (stopsFresh_evalEach n _ a).bind
          fun args => stopsFresh_apply n procedure args

theorem stopsFresh_evalEach (n : Nat) (list : Value) (a : Ref) : StopsFresh (evalEach n list a) := by
  cases n with
  | zero =>
      unfold evalEach
      exact stopsFresh_outOfFuel
  | succ n =>
      unfold evalEach
      split
      · exact .after_ask fun rest => .after_ask fun expr => (stopsFresh_eval n expr a).bind fun _ =>
          (stopsFresh_evalEach n rest a).bind fun _ => stopsFresh_pure _
      · exact stopsFresh_pure _

theorem stopsFresh_evalBody (n : Nat) (last body : Value) (a : Ref) :
    StopsFresh (evalBody n last body a) := by
  cases n with
  | zero =>
      unfold evalBody
      exact stopsFresh_outOfFuel
  | succ n =>
      unfold evalBody
      split
      · exact .after_ask fun rest => .after_ask fun expr => (stopsFresh_eval n expr a).bind fun v =>
          stopsFresh_evalBody n v rest a
      · exact stopsFresh_pure _

theorem stopsFresh_evalClauses (n : Nat) (clauses : Value) (a : Ref) :
    StopsFresh (evalClauses n clauses a) := by
  cases n with
  | zero =>
      unfold evalClauses
      exact stopsFresh_outOfFuel
  | succ n =>
      unfold evalClauses
      split
      · refine .after_ask fun rest => .after_ask fun v => (Form.checks_clause v).stopsFresh.bind
          fun clause => .after_ask fun head => ?_
        have hbranch (test : Value) : StopsFresh (do
            if test.isTrue then
              let body ← ask fun s => s.cdr clause
              if body.isNil then return test else evalBody n .void body a
            else evalClauses n rest a) := by
          split
          · refine .after_ask fun body => ?_
            split
            · exact stopsFresh_pure _
            · exact stopsFresh_evalBody n _ body a
          · exact stopsFresh_evalClauses n rest a
        split
        · exact (stopsFresh_pure _).bind hbranch
        · exact (stopsFresh_eval n _ a).bind hbranch
      · exact stopsFresh_pure _

theorem stopsFresh_evalAnd (n : Nat) (last operands : Value) (a : Ref) :
    StopsFresh (evalAnd n last operands a) := by
  cases n with
  | zero =>
      unfold evalAnd
      exact stopsFresh_outOfFuel
  | succ n =>
      unfold evalAnd
      split
      · refine .after_ask fun rest => .after_ask fun expr => (stopsFresh_eval n expr a).bind fun v => ?_
        split
        · exact stopsFresh_evalAnd n v rest a
        · exact stopsFresh_pure _
      · exact stopsFresh_pure _

theorem stopsFresh_evalOr (n : Nat) (operands : Value) (a : Ref) :
    StopsFresh (evalOr n operands a) := by
  cases n with
  | zero =>
      unfold evalOr
      exact stopsFresh_outOfFuel
  | succ n =>
      unfold evalOr
      split
      · refine .after_ask fun rest => .after_ask fun expr => (stopsFresh_eval n expr a).bind fun v => ?_
        split
        · exact stopsFresh_pure _
        · exact stopsFresh_evalOr n rest a
      · exact stopsFresh_pure _

theorem stopsFresh_apply (n : Nat) (procedure : Value) (args : List Value) :
    StopsFresh (apply n procedure args) := by
  cases n with
  | zero =>
      unfold apply
      exact stopsFresh_outOfFuel
  | succ n =>
      unfold apply
      split
      · refine (Native.acts_call _ args).stopsFresh.bind fun reply => ?_
        split
        · exact stopsFresh_pure _
        · exact (stopsFresh_callForm _ _).bind fun form => (stopsFresh_make _).bind fun root =>
            stopsFresh_eval n form root
      · exact (stopsFresh_enterCall _ args).bind fun scope => .after_ask fun body =>
          stopsFresh_evalBody n _ body scope
      · exact ((checks_written _).bind fun _ => checks_fail _).stopsFresh

end

end LittleScheme.Direct
