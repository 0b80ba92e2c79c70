import LittleScheme.Form
import LittleScheme.Proofs.Computation

/-!
# Taking special forms apart

Checking a form and finding its parts only reads the store.
-/
namespace LittleScheme.Form

open Eval

theorem checks_malformed {α : Type} (k : Keyword) (operands : Value) :
    Checks (malformed k operands : Eval α) :=
  (checks_ask _).bind fun _ => Eval.checks_malformed _

theorem checks_operandCells (k : Keyword) (operands : Value) (low : Nat) (high : Option Nat) :
    Checks (operandCells k operands low high) := by
  unfold operandCells
  refine (checks_ask _).bind fun list => ?_
  split
  · refine (checks_ask _).bind fun cells => ?_
    split
    · exact checks_pure _
    · exact checks_malformed k operands
  · exact checks_malformed k operands

theorem checks_bindingName (v : Value) : Checks (bindingName v) := by
  unfold bindingName
  split
  · exact checks_pure _
  · exact Eval.checks_malformed _
  · exact (checks_written v).bind fun _ => Eval.checks_malformed _

theorem checks_addParameter (params : List String) (v : Value) : Checks (addParameter params v) := by
  unfold addParameter
  refine (checks_bindingName v).bind fun name => ?_
  split
  · exact (Eval.checks_malformed _).bind fun _ => checks_pure _
  · exact checks_pure _

theorem checks_parametersWithin (n : Nat) (params : List String) (spec : Value) :
    Checks (parametersWithin n params spec) := by
  fun_induction parametersWithin n params spec with
  | case1 => exact checks_pure _
  | case2 n params r ih =>
      exact (checks_ask _).bind fun v => (checks_addParameter params v).bind fun params =>
        (checks_ask _).bind fun rest => ih params rest
  | case3 => exact checks_throw fun _ => trivial
  | case4 => exact (checks_bindingName _).map _

theorem checks_parameters (spec : Value) : Checks (parameters spec) :=
  (checks_ask _).bind fun _ => checks_parametersWithin _ _ _

theorem checks_checkBody (body : Value) : Checks (checkBody body) := by
  unfold checkBody
  refine (checks_ask _).bind fun list => ?_
  split
  · exact (checks_written body).bind fun _ => Eval.checks_malformed _
  · exact checks_pure _

theorem checks_quotation (operands : Value) : Checks (quotation operands) := by
  refine (checks_operandCells _ _ _ _).bind fun cells => ?_
  split
  · exact checks_ask _
  · exact checks_malformed _ _

theorem checks_assignment (operands : Value) : Checks (assignment operands) := by
  refine (checks_operandCells _ _ _ _).bind fun cells => ?_
  split
  · exact (checks_ask _).bind fun v => (checks_bindingName v).map _
  · exact checks_malformed _ _

theorem checks_conditional (operands : Value) : Checks (conditional operands) := by
  refine (checks_operandCells _ _ _ _).bind fun cells => ?_
  split
  · exact (checks_ask _).map _
  · exact (checks_ask _).bind fun _ => (checks_ask _).map _
  · exact checks_malformed _ _

theorem checks_clause (v : Value) : Checks (clause v) := by
  unfold clause
  split
  · refine (checks_ask _).bind fun list => ?_
    split
    · exact checks_pure _
    · exact (checks_written _).bind fun _ => Eval.checks_malformed _
  · exact (checks_written _).bind fun _ => Eval.checks_malformed _

theorem checks_letParts (operands : Value) : Checks (letParts operands) := by
  refine (checks_operandCells _ _ _ _).bind fun cells => ?_
  split
  · refine (checks_ask _).bind fun head => ?_
    split
    · split
      · exact (checks_ask _).map _
      · exact (checks_ask _).bind fun _ => (checks_ask _).map _
    · exact Eval.checks_malformed _
    · exact (checks_ask _).map _
  · exact checks_malformed _ _

theorem checks_letBinding (binding : Value) : Checks (letBinding binding) := by
  refine (checks_ask _).bind fun items => ?_
  split
  · exact checks_pure _
  · exact (checks_written binding).bind fun _ => Eval.checks_malformed _

theorem readOnly_conditional (operands : Value) : ReadOnly (conditional operands) :=
  (checks_conditional operands).readOnly

theorem readOnly_clause (v : Value) : ReadOnly (clause v) := (checks_clause v).readOnly

theorem readOnly_bindingName (v : Value) : ReadOnly (bindingName v) :=
  (checks_bindingName v).readOnly

end LittleScheme.Form
