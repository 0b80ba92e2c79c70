import LittleScheme.Interpreter
import LittleScheme.Proofs.Forms
import LittleScheme.Proofs.Frames
import LittleScheme.Proofs.Reserved
import LittleScheme.Proofs.Untouched

/-!
# Sessions and reserved names

A session is an interpreter that has been given texts, one after the other, whatever became of them.
Both evaluators go through special forms that bind no keyword, so in no session is there a symbol with
a reserved name or a scope that binds one, and a symbol or keyword is what `string->symbol` makes of
its name.
-/
namespace LittleScheme

/-! ### Reading parts of the store -/

namespace Eval

theorem car_preserves (r : Ref) : Preserves (ask fun s => s.car r) Value.Unreserved :=
  .ask fun _ hs => (hs.pair r).car

theorem cdr_preserves (r : Ref) : Preserves (ask fun s => s.cdr r) Value.Unreserved :=
  .ask fun _ hs => (hs.pair r).cdr

theorem elements_preserves (v : Value) :
    Preserves (ask fun s => s.elements v) fun items => ∀ w ∈ items, w.Unreserved :=
  .ask fun _ hs => hs.elements v

theorem elements?_preserves (v : Value) :
    Preserves (ask fun s => s.elements? v) fun found => ∀ items ∈ found, ∀ w ∈ items, w.Unreserved :=
  .ask fun _ hs => hs.elements? v

theorem lookup_preserves (scope : Ref) (name : String) :
    Preserves (lookup scope name) Value.Unreserved := by
  refine ⟨fun s hs => ?_⟩
  rw [run_lookup]
  cases hget : s.get? scope name with
  | none => exact hs
  | some v => exact ⟨hs, hs.get? scope name v hget⟩

theorem bind_preserves (scope : Ref) {name : String} (hname : Keyword.ofName? name = none) {v : Value}
    (hv : v.Unreserved) : Preserves (Eval.bind scope name v) Value.Unreserved :=
  (Preserves.update fun _ hs => hs.bind scope hname hv).bind fun _ _ => .pure hv

/-- The name that is assigned to has been bound, so it is not reserved. -/
theorem assign_preserves (scope : Ref) (name : String) {v : Value} (hv : v.Unreserved) :
    Preserves (assign scope name v) Value.Unreserved := by
  refine ⟨fun s hs => ?_⟩
  rw [run_assign]
  cases hfind : s.find? scope name with
  | none => exact hs
  | some found => exact ⟨hs.bind found (hs.find? hfind) hv, hv⟩

theorem enterCall_preserves (closure : Ref) {args : List Value} (hargs : ∀ v ∈ args, v.Unreserved) :
    Preserves (enterCall closure args) fun _ => True :=
  .after_checks (checks_ask _) fun _ => .after_checks (checks_checkArity _ _ _) fun _ =>
    .make fun _ hs => ⟨hs.enterCall closure hargs, trivial⟩

theorem newRoot_preserves : Preserves newRoot fun _ => True :=
  .make fun _ hs => ⟨hs.pushScope .empty, trivial⟩

theorem callForm_preserves {procedure : Value} (hprocedure : procedure.Unreserved)
    {args : List Value} (hargs : ∀ v ∈ args, v.Unreserved) :
    Preserves (callForm procedure args) Value.Unreserved := by
  have hquoted : Preserves (args.mapM fun v => make fun s => s.list [.keyword .quote, v])
      fun quoted => ∀ w ∈ quoted, w.Unreserved :=
    .mapM fun v hv => .make fun s hs => hs.list (by
      rw [List.forall_mem_cons, List.forall_mem_singleton]
      exact ⟨trivial, hargs v hv⟩)
  exact hquoted.bind fun quoted hquoted => .make fun s hs =>
    hs.listWithTail (List.forall_mem_cons.2 ⟨hprocedure, hquoted⟩) trivial

end Eval

/-! ### Special forms -/

namespace Form

open Eval

theorem malformed_preserves {α : Type} {Q : α → Prop} (k : Keyword) (operands : Value) :
    Preserves (malformed k operands : Eval α) Q := .after_checks (checks_ask _) fun _ => .throw _

/-- A keyword is refused as a name. -/
theorem bindingName_preserves {v : Value} (hv : v.Unreserved) :
    Preserves (bindingName v) fun name => Keyword.ofName? name = none := by
  unfold bindingName
  split
  · exact .pure hv
  · exact .throw _
  · exact .after_checks (checks_written _) fun _ => .throw _

theorem addParameter_preserves {params : List String}
    (hparams : ∀ name ∈ params, Keyword.ofName? name = none) {v : Value} (hv : v.Unreserved) :
    Preserves (addParameter params v) fun names => ∀ name ∈ names, Keyword.ofName? name = none := by
  refine (bindingName_preserves hv).bind fun name hname => ?_
  have hadded : ∀ other ∈ params ++ [name], Keyword.ofName? other = none := by
    intro other hother
    obtain hother | hother := List.mem_append.1 hother
    · exact hparams other hother
    · exact List.mem_singleton.1 hother ▸ hname
  split
  · exact .after_checks (Eval.checks_malformed _) fun _ => .pure hadded
  · exact .pure hadded

theorem parametersWithin_preserves (n : Nat) {params : List String}
    (hparams : ∀ name ∈ params, Keyword.ofName? name = none) {v : Value} (hv : v.Unreserved) :
    Preserves (parametersWithin n params v) fun found =>
      (∀ name ∈ found.1, Keyword.ofName? name = none) ∧
        ∀ name ∈ found.2, Keyword.ofName? name = none := by
  fun_induction parametersWithin n params v with
  | case1 => exact .pure ⟨hparams, by simp⟩
  | case2 n params r ih =>
      exact (car_preserves r).bind fun head hhead =>
        (addParameter_preserves hparams hhead).bind fun more hmore =>
          (cdr_preserves r).bind fun rest hrest => ih more rest hmore hrest
  | case3 => exact .throw _
  | case4 =>
      exact (bindingName_preserves hv).bind fun name hname => .pure ⟨hparams, by simpa using hname⟩

theorem makeClosure_preserves (name : Option String) {spec body : Value} (hspec : spec.Unreserved)
    (hbody : body.Unreserved) (scope : Ref) :
    Preserves (makeClosure name spec body scope) Value.Unreserved := by
  refine .after_checks (checks_checkBody body) fun _ => ?_
  have hparams : Preserves (parameters spec) fun found =>
      (∀ name ∈ found.1, Keyword.ofName? name = none) ∧
        ∀ name ∈ found.2, Keyword.ofName? name = none :=
    .after_checks (checks_ask _) fun n => parametersWithin_preserves n (by simp) hspec
  exact hparams.bind fun found hfound => .make fun s hs =>
    ⟨hs.newClosure ⟨hfound.1, hfound.2, hbody⟩, trivial⟩

theorem quotation_preserves (operands : Value) :
    Preserves (quotation operands) Value.Unreserved := by
  refine .after_checks (checks_operandCells _ _ _ _) fun cells => ?_
  split
  · exact car_preserves _
  · exact malformed_preserves _ _

theorem lambda_preserves (operands : Value) (scope : Ref) :
    Preserves (lambda operands scope) Value.Unreserved := by
  refine .after_checks (checks_operandCells _ _ _ _) fun cells => ?_
  split
  · exact (car_preserves _).bind fun spec hspec => (cdr_preserves _).bind fun body hbody =>
      makeClosure_preserves none hspec hbody scope
  · exact malformed_preserves _ _

/-- What is defined has no reserved name. -/
def Definition.Unreserved : Definition → Prop
  | .variable name _ => Keyword.ofName? name = none
  | .procedure name closure => Keyword.ofName? name = none ∧ closure.Unreserved

theorem definition_preserves (operands : Value) (scope : Ref) :
    Preserves (definition operands scope) Definition.Unreserved := by
  refine .after_checks (checks_operandCells _ _ _ _) fun cells => ?_
  split
  · refine (car_preserves _).bind fun target htarget => ?_
    split
    · exact (car_preserves _).bind fun v hv => (bindingName_preserves hv).bind fun name hname =>
        (cdr_preserves _).bind fun spec hspec => (cdr_preserves _).bind fun body hbody =>
          (makeClosure_preserves (some name) hspec hbody scope).bind fun closure hclosure =>
            .pure ⟨hname, hclosure⟩
    · split
      · exact (bindingName_preserves htarget).bind fun name hname => .pure hname
      · exact malformed_preserves _ _
  · exact malformed_preserves _ _

theorem conditional_preserves (operands : Value) :
    Preserves (conditional operands) fun parts =>
      parts.consequent.Unreserved ∧ ∀ v ∈ parts.alternate, v.Unreserved := by
  refine .after_checks (checks_operandCells _ _ _ _) fun cells => ?_
  split
  · exact (car_preserves _).bind fun consequent hconsequent => .pure ⟨hconsequent, by simp⟩
  · exact (car_preserves _).bind fun consequent hconsequent =>
      (car_preserves _).bind fun alternate halternate =>
        .pure ⟨hconsequent, by simpa using halternate⟩
  · exact malformed_preserves _ _

theorem sequence_preserves {body : Value} (hbody : body.Unreserved) :
    Preserves (sequence body) Value.Unreserved := by
  have hwrapped : Preserves (make fun s => s.cons (.keyword .begin) body) Value.Unreserved :=
    .make fun s hs => ⟨hs.pushPair trivial hbody, trivial⟩
  unfold sequence
  split
  · refine (cdr_preserves _).bind fun rest _ => ?_
    split
    · exact car_preserves _
    · exact hwrapped
  · exact hwrapped

/-- A named `let` has no reserved name. -/
structure LetParts.Unreserved (parts : LetParts) : Prop where
  name : ∀ name ∈ parts.name, Keyword.ofName? name = none
  body : parts.body.Unreserved

theorem letParts_preserves (operands : Value) :
    Preserves (letParts operands) LetParts.Unreserved := by
  refine .after_checks (checks_operandCells _ _ _ _) fun cells => ?_
  split
  · refine (car_preserves _).bind fun head hhead => ?_
    split
    · split
      · exact (cdr_preserves _).bind fun body hbody => .pure ⟨by simp, hbody⟩
      · exact (car_preserves _).bind fun bindings _ => (cdr_preserves _).bind fun body hbody =>
          .pure ⟨by rintro _ ⟨⟩; exact hhead, hbody⟩
    · exact .throw _
    · exact (cdr_preserves _).bind fun body hbody => .pure ⟨by simp, hbody⟩
  · exact malformed_preserves _ _

theorem letBinding_preserves (binding : Value) :
    Preserves (letBinding binding) fun b => b.1.Unreserved ∧ b.2.Unreserved := by
  refine (elements?_preserves binding).bind fun found hfound => ?_
  split
  · have hparts := hfound _ rfl
    exact .pure ⟨hparts _ (by simp), hparts _ (by simp)⟩
  · exact .after_checks (checks_written _) fun _ => .throw _

theorem letApplication_preserves (operands : Value) (scope : Ref) :
    Preserves (letApplication operands scope) Value.Unreserved := by
  refine (letParts_preserves operands).bind fun parts hparts =>
    .after_checks (checks_ask _) fun found => ?_
  split
  · exact malformed_preserves _ _
  · rename_i items
    have hbindings : Preserves (items.mapM letBinding) fun bindings =>
        ∀ b ∈ bindings, b.1.Unreserved ∧ b.2.Unreserved := .mapM fun v _ => letBinding_preserves v
    refine hbindings.bind fun bindings hbindings => .after_checks (checks_checkBody _) fun _ => ?_
    have hnames : Preserves (bindings.foldlM (fun params b => addParameter params b.1) [])
        fun names => ∀ name ∈ names, Keyword.ofName? name = none :=
      .foldlM (fun names hnames b hb => addParameter_preserves hnames (hbindings b hb).1) (by simp)
    refine hnames.bind fun params hparams => ?_
    have hcall (closure : Value) (hclosure : closure.Unreserved) : Preserves
        (make fun s => s.listWithTail (closure :: bindings.map Prod.snd) .nil) Value.Unreserved :=
      .make fun s hs => hs.listWithTail (List.forall_mem_cons.2 ⟨hclosure, fun v hv => by
        obtain ⟨b, hb, rfl⟩ := List.mem_map.1 hv
        exact (hbindings b hb).2⟩) trivial
    split
    · rename_i name hname
      have hloop : Preserves (make fun s => s.newLoop scope name params none parts.body)
          Value.Unreserved := .make fun s hs =>
        ⟨hs.newLoop scope (hparts.name name hname) hparams hparts.body, trivial⟩
      exact hloop.bind hcall
    · have hclosure : Preserves (make fun s => s.newClosure
          { name := none, params, rest := none, body := parts.body, scope }) Value.Unreserved :=
        .make fun s hs => ⟨hs.newClosure ⟨hparams, by simp, hparts.body⟩, trivial⟩
      exact hclosure.bind hcall

end Form

/-! ### Evaluation by recursion -/

namespace Direct

open Eval

mutual

theorem eval_preserves (n : Nat) {v : Value} (hv : v.Unreserved) (scope : Ref) :
    Preserves (eval n v scope) Value.Unreserved := by
  cases n with
  | zero =>
      unfold eval
      exact .throw _
  | succ n =>
      unfold eval
      split
      · exact lookup_preserves _ _
      · exact .throw _
      · refine .after_checks (checks_ask _) fun list => ?_
        split
        · exact evalForm_preserves n _ scope
        · exact .pure trivial
      · exact .pure hv

theorem evalForm_preserves (n : Nat) (form scope : Ref) :
    Preserves (evalForm n form scope) Value.Unreserved := by
  cases n with
  | zero =>
      unfold evalForm
      exact .throw _
  | succ n =>
      unfold evalForm
      refine (cdr_preserves form).bind fun operands hoperands =>
        (car_preserves form).bind fun head hhead => ?_
      split
      · exact Form.quotation_preserves operands
      · refine (Form.conditional_preserves operands).bind fun parts hparts =>
          (car_preserves _).bind fun test htest => (eval_preserves n htest scope).bind fun value _ => ?_
        split
        · exact eval_preserves n hparts.1 scope
        · split
          · rename_i alternate halternate
            exact eval_preserves n (hparts.2 alternate halternate) scope
          · exact .pure trivial
      · refine (Form.definition_preserves operands scope).bind fun definition hdefinition => ?_
        split
        · exact bind_preserves scope hdefinition.1 hdefinition.2
        · exact (car_preserves _).bind fun expr hexpr => (eval_preserves n hexpr scope).bind
            fun v hv => bind_preserves scope hdefinition hv
      · exact .after_checks (Form.checks_assignment operands) fun target =>
          (car_preserves _).bind fun expr hexpr => (eval_preserves n hexpr scope).bind
            fun v hv => assign_preserves scope target.1 hv
      · exact Form.lambda_preserves operands scope
      · exact (Form.letApplication_preserves operands scope).bind fun call hcall =>
          eval_preserves n hcall scope
      · exact evalClauses_preserves n operands scope
      · exact evalAnd_preserves n (by trivial) operands scope
      · exact evalOr_preserves n operands scope
      · exact evalBody_preserves n (by trivial) operands scope
      · exact .throw _
      · exact (eval_preserves n hhead scope).bind fun procedure hprocedure =>
          (evalEach_preserves n operands scope).bind fun args hargs =>
            apply_preserves n hprocedure hargs

theorem evalEach_preserves (n : Nat) (list : Value) (scope : Ref) :
    Preserves (evalEach n list scope) fun vs => ∀ v ∈ vs, v.Unreserved := by
  cases n with
  | zero =>
      unfold evalEach
      exact .throw _
  | succ n =>
      unfold evalEach
      split
      · exact (cdr_preserves _).bind fun rest _ => (car_preserves _).bind fun expr hexpr =>
          (eval_preserves n hexpr scope).bind fun v hv =>
            (evalEach_preserves n rest scope).bind fun vs hvs =>
              .pure (List.forall_mem_cons.2 ⟨hv, hvs⟩)
      · exact .pure (by simp)

theorem evalBody_preserves (n : Nat) {last : Value} (hlast : last.Unreserved) (body : Value)
    (scope : Ref) : Preserves (evalBody n last body scope) Value.Unreserved := by
  cases n with
  | zero =>
      unfold evalBody
      exact .throw _
  | succ n =>
      unfold evalBody
      split
      · exact (cdr_preserves _).bind fun rest _ => (car_preserves _).bind fun expr hexpr =>
          (eval_preserves n hexpr scope).bind fun v hv => evalBody_preserves n hv rest scope
      · exact .pure hlast

theorem evalClauses_preserves (n : Nat) (clauses : Value) (scope : Ref) :
    Preserves (evalClauses n clauses scope) Value.Unreserved := by
  cases n with
  | zero =>
      unfold evalClauses
      exact .throw _
  | succ n =>
      unfold evalClauses
      split
      · refine (cdr_preserves _).bind fun rest _ => .after_checks (checks_ask _) fun v =>
          .after_checks (Form.checks_clause v) fun clause => (car_preserves clause).bind
            fun head hhead => ?_
        have hbranch (test : Value) (htest : test.Unreserved) : Preserves (do
            if test.isTrue then
              let body ← ask fun s => s.cdr clause
              if body.isNil then return test else evalBody n .void body scope
            else evalClauses n rest scope) Value.Unreserved := by
          split
          · refine .after_checks (checks_ask _) fun body => ?_
            split
            · exact .pure htest
            · exact evalBody_preserves n (by trivial) body scope
          · exact evalClauses_preserves n rest scope
        split
        · exact (Preserves.pure (a := Value.bool true) trivial).bind hbranch
        · exact (eval_preserves n hhead scope).bind hbranch
      · exact .pure trivial

theorem evalAnd_preserves (n : Nat) {last : Value} (hlast : last.Unreserved) (operands : Value)
    (scope : Ref) : Preserves (evalAnd n last operands scope) Value.Unreserved := by
  cases n with
  | zero =>
      unfold evalAnd
      exact .throw _
  | succ n =>
      unfold evalAnd
      split
      · refine (cdr_preserves _).bind fun rest _ => (car_preserves _).bind fun expr hexpr =>
          (eval_preserves n hexpr scope).bind fun v hv => ?_
        split
        · exact evalAnd_preserves n hv rest scope
        · exact .pure trivial
      · exact .pure hlast

theorem evalOr_preserves (n : Nat) (operands : Value) (scope : Ref) :
    Preserves (evalOr n operands scope) Value.Unreserved := by
  cases n with
  | zero =>
      unfold evalOr
      exact .throw _
  | succ n =>
      unfold evalOr
      split
      · refine (cdr_preserves _).bind fun rest _ => (car_preserves _).bind fun expr hexpr =>
          (eval_preserves n hexpr scope).bind fun v hv => ?_
        split
        · exact .pure hv
        · exact evalOr_preserves n rest scope
      · exact .pure trivial

theorem apply_preserves (n : Nat) {procedure : Value} (hprocedure : procedure.Unreserved)
    {args : List Value} (hargs : ∀ v ∈ args, v.Unreserved) :
    Preserves (apply n procedure args) Value.Unreserved := by
  cases n with
  | zero =>
      unfold apply
      exact .throw _
  | succ n =>
      unfold apply
      split
      · refine (Native.call_preserves _ hargs).bind fun reply hreply => ?_
        split
        · exact .pure hreply
        · exact (callForm_preserves hreply.1 hreply.2).bind fun form hform =>
            newRoot_preserves.bind fun root _ => eval_preserves n hform root
      · exact (enterCall_preserves _ hargs).bind fun scope _ => .after_checks (checks_ask _)
          fun body => evalBody_preserves n (by trivial) body scope
      · exact .after_checks (checks_written _) fun _ => .throw _

end

end Direct

/-! ### Evaluation on a stack -/

namespace Frame

open Eval

/-- What a step leaves behind has no reserved symbol. -/
def Transition.Unreserved : Transition → Prop
  | .value v => v.Unreserved
  | .suspend frame above => frame.expr.Unreserved ∧ ∀ g ∈ above, g.expr.Unreserved
  | .replace frames => ∀ g ∈ frames, g.expr.Unreserved
  | .call procedure args => procedure.Unreserved ∧ ∀ v ∈ args, v.Unreserved

theorem copySpine_preserves {expr : Value} (hexpr : expr.Unreserved) :
    Preserves (make fun s => s.copySpine expr) Value.Unreserved :=
  .make fun _ hs => hs.copySpine hexpr

theorem new_preserves {expr : Value} (hexpr : expr.Unreserved) (scope : Ref)
    (destination : Option Ref) :
    Preserves (new expr scope destination) fun g => g.expr.Unreserved :=
  (copySpine_preserves hexpr).bind fun _ hcopy => .pure hcopy

theorem ofBody_preserves (body : Value) (scope : Ref) (destination : Option Ref) :
    Preserves (ofBody body scope destination) fun frames => ∀ g ∈ frames, g.expr.Unreserved :=
  (elements_preserves body).bind fun _ hitems =>
    .mapM fun expr hexpr => new_preserves (hitems expr hexpr) scope destination

theorem goOn_preserves (f : Frame) {expr : Value} (hexpr : expr.Unreserved) :
    Preserves (goOn f expr) Transition.Unreserved :=
  (copySpine_preserves hexpr).bind fun _ hcopy => .pure ⟨hcopy, by simp⟩

theorem await_preserves {f : Frame} (hf : f.expr.Unreserved) {expr : Value}
    (hexpr : expr.Unreserved) (cell : Ref) :
    Preserves (await f expr cell) Transition.Unreserved :=
  (new_preserves hexpr f.scope (some cell)).bind fun _ hg => .pure ⟨hf, by simpa using hg⟩

theorem settledValue_preserves (arrived : Bool) {v : Value} (hv : v.Unreserved) (scope : Ref) :
    Preserves (settledValue arrived v scope) fun found => ∀ w ∈ found, w.Unreserved := by
  have hself : ∀ w ∈ some v, w.Unreserved := by
    rintro _ ⟨⟩
    exact hv
  unfold settledValue
  split
  · exact .pure hself
  · unfold trivialValue
    split
    · refine (lookup_preserves scope _).bind fun w hw => .pure ?_
      rintro _ ⟨⟩
      exact hw
    · refine .after_checks (checks_ask _) fun needed => ?_
      split
      · exact .pure (by simp)
      · exact .pure hself

theorem settledTest_preserves (arrived : Bool) {test : Value} (htest : test.Unreserved)
    (scope : Ref) :
    Preserves (settledTest arrived test scope) fun found => ∀ w ∈ found, w.Unreserved := by
  unfold settledTest
  split
  · refine .pure ?_
    rintro _ ⟨⟩
    trivial
  · exact settledValue_preserves _ htest scope

theorem stepCall_preserves (f : Frame) (form : Ref) :
    Preserves (stepCall f form) Transition.Unreserved := by
  have hargs : Preserves (ask fun s => s.elements (s.cdr form)) fun args =>
      ∀ v ∈ args, v.Unreserved := .ask fun _ hs => hs.elements _
  refine hargs.bind fun args hargs => .after_checks (checks_ask _) fun operator => ?_
  split
  · refine (Native.call_preserves _ hargs).bind fun reply hreply => ?_
    split <;> exact .pure hreply
  · exact (enterCall_preserves _ hargs).bind fun scope _ => .after_checks (checks_ask _) fun body =>
      (ofBody_preserves body scope f.destination).bind fun frames hframes => .pure hframes
  · exact .after_checks (checks_written _) fun _ => .throw _

theorem stepApplication_preserves {f : Frame} (hf : f.expr.Unreserved) (form : Ref) :
    Preserves (stepApplication f form) Transition.Unreserved := by
  refine .after_checks (checks_ask _) fun pending => ?_
  split
  · exact stepCall_preserves f form
  · have hcells : Preserves (pending.mapM (forCell f.scope)) fun above =>
        ∀ g ∈ above, g.expr.Unreserved :=
      .mapM fun cell _ => (car_preserves cell).bind fun expr hexpr =>
        new_preserves hexpr f.scope (some cell)
    exact hcells.bind fun above habove => .pure ⟨hf, habove⟩

theorem stepConditional_preserves {f : Frame} (hf : f.expr.Unreserved) (operands : Value) :
    Preserves (stepConditional f operands) Transition.Unreserved := by
  refine (Form.conditional_preserves operands).bind fun parts hparts =>
    (car_preserves _).bind fun test htest => ?_
  split
  · exact await_preserves hf htest _
  · split
    · exact goOn_preserves f hparts.1
    · split
      · rename_i alternate halternate
        exact goOn_preserves f (hparts.2 alternate halternate)
      · exact .pure trivial

theorem stepDefinition_preserves {f : Frame} (hf : f.expr.Unreserved) (operands : Value) :
    Preserves (stepDefinition f operands) Transition.Unreserved := by
  refine (Form.definition_preserves operands f.scope).bind fun definition hdefinition => ?_
  split
  · exact (bind_preserves f.scope hdefinition.1 hdefinition.2).bind fun _ hv => .pure hv
  · refine (car_preserves _).bind fun v hv => ?_
    split
    · exact (bind_preserves f.scope hdefinition hv).bind fun _ hv => .pure hv
    · exact await_preserves hf hv _

theorem stepAssignment_preserves {f : Frame} (hf : f.expr.Unreserved) (operands : Value) :
    Preserves (stepAssignment f operands) Transition.Unreserved := by
  refine .after_checks (Form.checks_assignment operands) fun target =>
    (car_preserves _).bind fun v hv => ?_
  split
  · exact (assign_preserves f.scope _ hv).bind fun _ hv => .pure hv
  · exact await_preserves hf hv _

/-- Drop what has been dealt with from the copy of a form. -/
theorem dropCell_preserves (form cell : Ref) :
    Preserves (update fun s => s.setCdr form (s.cdr cell)) fun _ => True :=
  .update fun _ hs => hs.setCdr form (hs.pair cell).cdr

theorem stepLogical_preserves {f : Frame} (hf : f.expr.Unreserved) (form : Ref)
    (wanted arrived : Bool) (cells : List Ref) :
    Preserves (stepLogical f form wanted arrived cells) Transition.Unreserved := by
  induction cells generalizing arrived with
  | nil => exact .pure trivial
  | cons cell rest ih =>
      refine (car_preserves cell).bind fun operand hoperand => ?_
      split
      · exact goOn_preserves f hoperand
      · refine (settledValue_preserves arrived hoperand f.scope).bind fun found hfound => ?_
        split
        · exact await_preserves hf hoperand _
        · rename_i v
          split
          · refine .pure ?_
            split
            · trivial
            · exact hfound v rfl
          · exact (dropCell_preserves form cell).bind fun _ _ => ih false

theorem stepCond_preserves {f : Frame} (hf : f.expr.Unreserved) (form : Ref) (arrived : Bool)
    (cells : List Ref) : Preserves (stepCond f form arrived cells) Transition.Unreserved := by
  induction cells generalizing arrived with
  | nil => exact .pure trivial
  | cons cell rest ih =>
      refine .after_checks (checks_ask _) fun v => .after_checks (Form.checks_clause v) fun clause =>
        (car_preserves clause).bind fun test htest => (cdr_preserves clause).bind fun body hbody =>
          (settledTest_preserves arrived htest f.scope).bind fun found hfound => ?_
      split
      · have hhead : Preserves (make fun s => (s.nextPair, s.pushPair test body)) fun _ => True :=
          .make fun s hs => ⟨hs.pushPair htest hbody, trivial⟩
        exact hhead.bind fun head _ =>
          (Preserves.update fun s hs => hs.setCar cell (by trivial)).bind fun _ _ =>
            await_preserves hf htest _
      · rename_i w
        split
        · split
          · exact .pure (hfound w rfl)
          · exact (Form.sequence_preserves hbody).bind fun expr hexpr => goOn_preserves f hexpr
        · exact (dropCell_preserves form cell).bind fun _ _ => ih false

theorem step_preserves {f : Frame} (hf : f.expr.Unreserved) :
    Preserves f.step Transition.Unreserved := by
  unfold step
  split
  · exact (lookup_preserves _ _).bind fun _ hv => .pure hv
  · exact .throw _
  · refine .after_checks (checks_ask _) fun list => ?_
    split
    · refine .after_checks (checks_ask _) fun operands => .after_checks (checks_ask _) fun head => ?_
      unfold stepHead
      split
      · exact (Form.quotation_preserves _).bind fun _ hv => .pure hv
      · exact stepConditional_preserves hf _
      · exact stepDefinition_preserves hf _
      · exact stepAssignment_preserves hf _
      · exact (Form.lambda_preserves _ _).bind fun _ hv => .pure hv
      · exact (Form.letApplication_preserves _ _).bind fun _ hv => .pure ⟨hv, by simp⟩
      · exact .after_checks (checks_ask _) fun cells => stepCond_preserves hf _ _ cells
      · exact .after_checks (checks_ask _) fun cells => stepLogical_preserves hf _ _ _ cells
      · exact .after_checks (checks_ask _) fun cells => stepLogical_preserves hf _ _ _ cells
      · split
        · exact .pure trivial
        · exact (ofBody_preserves _ _ _).bind fun frames hframes => .pure hframes
      · exact .throw _
      · exact stepApplication_preserves hf _
    · exact .pure hf
  · exact .pure hf

end Frame

namespace Machine

open Eval

/-- No frame and no result, suspended ones too, is a reserved symbol. -/
structure Unreserved (m : Machine) : Prop where
  frames : ∀ f ∈ m.frames, f.expr.Unreserved
  result : m.result.Unreserved
  suspended : ∀ x ∈ m.suspended, x.result.Unreserved ∧ ∀ f ∈ x.frames, f.expr.Unreserved

theorem start_preserves {expr : Value} (hexpr : expr.Unreserved) (scope : Ref) :
    Preserves (start expr scope) Unreserved :=
  (Frame.new_preserves hexpr scope none).bind fun _ hf =>
    .pure ⟨by simpa using hf, trivial, by simp⟩

theorem deliver_preserves {m : Machine} (hm : m.Unreserved) (destination : Option Ref) {v : Value}
    (hv : v.Unreserved) : Preserves (m.deliver destination v) Unreserved := by
  cases destination with
  | none => exact .pure { hm with result := hv }
  | some cell => exact (Preserves.update fun _ hs => hs.setCar cell hv).bind fun _ _ => .pure hm

theorem advance_preserves {m : Machine} (hm : m.Unreserved) (destination : Option Ref)
    {t : Frame.Transition} (ht : t.Unreserved) :
    Preserves (m.advance destination t) Unreserved := by
  cases t with
  | value v => exact deliver_preserves hm destination ht
  | suspend g above =>
      refine .pure { hm with frames := fun f hf => ?_ }
      obtain hf | hf := List.mem_append.1 hf
      · exact ht.2 f hf
      · obtain rfl | hf := List.mem_cons.1 hf
        · exact ht.1
        · exact hm.frames f hf
  | replace frames =>
      refine .pure { hm with frames := fun f hf => ?_ }
      obtain hf | hf := List.mem_append.1 hf
      · exact ht f hf
      · exact hm.frames f hf
  | call procedure args =>
      exact (callForm_preserves ht.1 ht.2).bind fun form hform => newRoot_preserves.bind
        fun root _ => (start_preserves hform root).bind fun inner hinner => .pure { hinner with
          suspended := List.forall_mem_cons.2 ⟨⟨hm.result, hm.frames⟩, hm.suspended⟩ }

theorem traced_preserves {α : Type} {Q : α → Prop} {x : Eval α} (h : Preserves x Q) (limit : Nat)
    (frames : List Frame) : Preserves (traced limit frames x) Q := by
  refine ⟨fun s hs => ?_⟩
  have hxs := h.outcome s hs
  unfold EStateM.run traced at *
  cases hrun : x s with
  | ok a s' => simpa only [hrun] using hxs
  | error stop s' =>
      simp only [hrun] at hxs
      cases stop <;> exact hxs

theorem step_preserves (limit : Nat) {m : Machine} (hm : m.Unreserved) :
    Preserves (m.step limit) fun next =>
      (∀ m', next = .inl m' → m'.Unreserved) ∧ ∀ v, next = .inr v → v.Unreserved := by
  unfold step
  split
  · rename_i f rest hframes
    obtain ⟨hf, hrest⟩ := List.forall_mem_cons.1 (hframes ▸ hm.frames)
    have hbelow : Unreserved { m with frames := rest } := ⟨hrest, hm.result, hm.suspended⟩
    refine (traced_preserves (Frame.step_preserves hf) limit m.frames).bind fun t ht =>
      (advance_preserves hbelow f.destination ht).bind fun m' hm' => .pure ⟨?_, by simp⟩
    rintro _ ⟨⟩
    exact hm'
  · split
    · rename_i outer suspended hsuspended
      obtain ⟨houter, hrest⟩ := List.forall_mem_cons.1 (hsuspended ▸ hm.suspended)
      have hresumed : Unreserved ⟨outer.frames, outer.result, suspended⟩ :=
        ⟨houter.2, houter.1, hrest⟩
      refine (deliver_preserves hresumed outer.destination hm.result).bind fun m' hm' =>
        .pure ⟨?_, by simp⟩
      rintro _ ⟨⟩
      exact hm'
    · refine .pure ⟨by simp, ?_⟩
      rintro _ ⟨⟩
      exact hm.result

theorem run_preserves (limit n : Nat) {m : Machine} (hm : m.Unreserved) :
    Preserves (run limit n m) Value.Unreserved := by
  induction n generalizing m with
  | zero => exact .throw _
  | succ n ih =>
      refine (step_preserves limit hm).bind fun next hnext => ?_
      split
      · exact ih (hnext.1 _ rfl)
      · exact .pure (hnext.2 _ rfl)

end Machine

/-! ### Texts -/

namespace Evaluator

open Eval

theorem eval_preserves (e : Evaluator) (fuel : Nat) {expr : Value} (hexpr : expr.Unreserved)
    (scope : Ref) : Preserves (e.eval fuel expr scope) Value.Unreserved := by
  unfold eval
  split
  · exact Direct.eval_preserves fuel hexpr scope
  · exact (Machine.start_preserves hexpr scope).bind fun _ hm =>
      Machine.run_preserves e.traceLimit fuel hm

/-- Nothing in a text makes a reserved symbol. -/
theorem evalText_preserves (e : Evaluator) (fuel : Nat) (text : String) (scope : Ref) :
    Preserves (e.evalText fuel text scope) Value.Unreserved := by
  unfold evalText
  cases hparse : Reader.parseAll text with
  | error err => exact .throw _
  | ok data =>
      have hdata : Datum.AllReadable data :=
        Datum.allReadable_iff.2 (Reader.parseAll_readable hparse)
      have hload : Preserves (make fun s => s.loadAll data) fun exprs =>
          ∀ v ∈ exprs, v.Unreserved := .make fun s hs => hs.loadAll data hdata
      exact hload.bind fun exprs hexprs =>
        .foldlM (fun _ _ expr hexpr => e.eval_preserves fuel (hexprs expr hexpr) scope) trivial

theorem loadPrelude_preserves (e : Evaluator) (fuel : Nat) (scope : Ref) :
    Preserves (e.loadPrelude fuel scope) fun _ => True := by
  have hloop (texts : List String) : Preserves (forIn texts PUnit.unit fun text _ => do
      let _ ← e.evalText fuel text scope
      return ForInStep.yield PUnit.unit) fun _ => True := by
    induction texts with
    | nil => exact .pure trivial
    | cons text texts ih =>
        have hfirst : Preserves (do
            let _ ← e.evalText fuel text scope
            return ForInStep.yield PUnit.unit) fun step => step = .yield PUnit.unit :=
          (e.evalText_preserves fuel text scope).bind fun _ _ => .pure rfl
        rw [List.forIn_cons]
        refine hfirst.bind ?_
        rintro _ rfl
        exact ih
  unfold loadPrelude
  -- nothing depends on which definitions they are
  generalize Prelude.definitions = texts
  exact (hloop texts).bind fun _ _ => .pure trivial

end Evaluator

theorem Native.ofName?_name {p : Native} (h : p ∈ Native.all) : Keyword.ofName? p.name = none := by
  have hall : ∀ p ∈ Native.all, Keyword.ofName? p.name = none := by decide +kernel
  exact hall p h

open Eval in
theorem nativeEnvironment_preserves : Preserves nativeEnvironment fun _ => True := by
  refine newRoot_preserves.bind fun scope _ => ?_
  have hbindings : Preserves (update fun s =>
      s.bindAll scope (Native.all.map fun p => (p.name, .native p))) fun _ => True := by
    refine .update fun s hs => hs.bindAll scope fun b hb => ?_
    obtain ⟨p, hp, rfl⟩ := List.mem_map.1 hb
    exact ⟨Native.ofName?_name hp, trivial⟩
  exact hbindings.bind fun _ _ => .pure trivial

theorem standardEnvironment_preserves (e : Evaluator) (fuel : Nat) :
    Eval.Preserves (standardEnvironment e fuel) fun _ => True := by
  unfold standardEnvironment
  exact nativeEnvironment_preserves.bind fun scope _ =>
    (e.loadPrelude_preserves fuel scope).bind fun _ _ => .pure trivial

/-! ### Sessions -/

theorem Eval.Preserves.after {α : Type} {x : Eval α} {Q : α → Prop} (h : x.Preserves Q) {s : Store}
    (hs : s.Unreserved) : (x.after s).Unreserved := by
  have hxs := h.outcome s hs
  rw [Eval.after]
  cases hrun : x.run s with
  | ok a s' =>
      simp only [hrun] at hxs
      exact hxs.1
  | error e s' =>
      simp only [hrun] at hxs
      exact hxs

/-- A value stands somewhere in the store: in a pair, in a vector, as the body of a closure or as the
value of a name. -/
inductive Store.Holds (s : Store) : Value → Prop
  | car (r : Ref) : s.Holds (s.car r)
  | cdr (r : Ref) : s.Holds (s.cdr r)
  | slot (r : Ref) {v : Value} (h : v ∈ s.vector r) : s.Holds v
  | body (r : Ref) : s.Holds (s.closure r).body
  | bound (r : Ref) {name : String} {v : Value} (h : (s.scope r).lookup? name = some v) : s.Holds v

theorem Store.Unreserved.holds {s : Store} (h : s.Unreserved) {v : Value} (hv : s.Holds v) :
    v.Unreserved := by
  cases hv with
  | car r => exact (h.pair r).car
  | cdr r => exact (h.pair r).cdr
  | slot r hslot => exact h.vector r v hslot
  | body r => exact (h.closure r).body
  | bound r hbound => exact (h.scope r _ v hbound).2

theorem Store.Unreserved.contains_eq_false {s : Store} (h : s.Unreserved) (r : Ref) (k : Keyword) :
    (s.scope r).contains k.name = false := by
  rw [Scope.contains_eq_isSome]
  cases hlookup : (s.scope r).lookup? k.name with
  | none => rfl
  | some v =>
      have hname := (h.scope r k.name v hlookup).1
      rw [Keyword.ofName?_name] at hname
      cases hname

theorem Value.Unreserved.ne_keyword {v : Value} (h : v.Unreserved) (k : Keyword) :
    v ≠ .symbol k.name := by
  rintro rfl
  rw [Unreserved, Keyword.ofName?_name] at h
  cases h

namespace Interpreter

/-- The interpreter and the store after some texts, each of which ended in a value or stopped, be it
in the middle of an evaluation. -/
inductive Session : Interpreter → Store → Prop
  | start {evaluator : Evaluator} {prelude : Bool} {fuel : Nat} {console : Console}
      {i : Interpreter} {s : Store}
      (h : (Interpreter.new evaluator prelude fuel).run (.ofConsole console) = .ok i s) : Session i s
  | text {i : Interpreter} {s : Store} (h : Session i s) (fuel : Nat) (text : String) :
      Session i ((i.evalText fuel text).after s)

/-- The values of a session: those that stand in its store, and the last answer. -/
def Session.HasValue (i : Interpreter) (s : Store) (v : Value) : Prop :=
  s.Holds v ∨ ∃ s₀ fuel text, Session i s₀ ∧ (i.evalText fuel text).run s₀ = .ok v s

theorem new_preserves (evaluator : Evaluator) (prelude : Bool) (fuel : Nat) :
    Eval.Preserves (Interpreter.new evaluator prelude fuel) fun _ => True := by
  unfold Interpreter.new
  split
  · exact (standardEnvironment_preserves evaluator fuel).bind fun _ _ => .pure trivial
  · exact nativeEnvironment_preserves.bind fun _ _ => .pure trivial

theorem Session.unreserved {i : Interpreter} {s : Store} (h : Session i s) : s.Unreserved := by
  induction h with
  | @start evaluator prelude fuel console i s hnew =>
      have hstart := (new_preserves evaluator prelude fuel).outcome _ (.ofConsole console)
      rw [hnew] at hstart
      exact hstart.1
  | @text i s _ fuel text ih =>
      exact (i.evaluator.evalText_preserves fuel text i.environment).after ih

theorem Session.HasValue.unreserved {i : Interpreter} {s : Store} {v : Value} (h : Session i s)
    (hv : Session.HasValue i s v) : v.Unreserved := by
  obtain hv | ⟨s₀, fuel, text, h₀, hrun⟩ := hv
  · exact h.unreserved.holds hv
  · have hanswer := (i.evaluator.evalText_preserves fuel text i.environment).outcome s₀ h₀.unreserved
    rw [evalText] at hrun
    simp only [hrun] at hanswer
    exact hanswer.2

/-- From a value to its name and back: `(eqv? (string->symbol (symbol->string v)) v)` is true. -/
def NamesItself (s : Store) (v : Value) : Prop :=
  ∃ name w s₁ s₂, ((Native.texts .symbolToString).call [v]).run s = .ok (.value name) s₁ ∧
    ((Native.texts .stringToSymbol).call [name]).run s₁ = .ok (.value w) s₂ ∧
    ((Native.lists .eqv).call [w, v]).run s₂ = .ok (.value (.bool true)) s₂

theorem namesItself_of_symbolOf {name : String} {v : Value} (s : Store)
    (hname : ((Native.texts .symbolToString).call [v]).run s =
      .ok (.value (s.newString name).1) (s.newString name).2)
    (hself : Native.Texts.symbolOf name = v) (hsame : v.same v = true) : NamesItself s v := by
  have hstring : (s.newString name).2.string s.strings.size = name := getD_push_self _ _ _
  have hback : ((Native.texts .stringToSymbol).call [(s.newString name).1]).run (s.newString name).2 =
      .ok (.value (Native.Texts.symbolOf ((s.newString name).2.string s.strings.size)))
        (s.newString name).2 := rfl
  have heqv : ((Native.lists .eqv).call [v, v]).run (s.newString name).2 =
      .ok (.value (.bool (v.same v))) (s.newString name).2 := rfl
  rw [hstring, hself] at hback
  rw [hsame] at heqv
  exact ⟨_, v, _, _, hname, hback, heqv⟩

/-- Reserved names are never symbols and never bound. In every session, by either strategy, with or
without the prelude and whatever became of the texts: no value is a symbol with a reserved name, no
scope binds a reserved name and no closure has one as a parameter. So a symbol or keyword is what its
own name stands for. -/
theorem reserved_names_stay_reserved {i : Interpreter} {s : Store} (h : Session i s) :
    (∀ v, Session.HasValue i s v → ∀ k : Keyword, v ≠ .symbol k.name) ∧
    (∀ r, ∀ k : Keyword, (s.scope r).contains k.name = false) ∧
    (∀ r, ∀ k : Keyword, k.name ∉ (s.closure r).params ∧ (s.closure r).rest ≠ some k.name) ∧
    (∀ name, Session.HasValue i s (.symbol name) → NamesItself s (.symbol name)) ∧
    ∀ k, NamesItself s (.keyword k) := by
  have hs := h.unreserved
  have hparameter {name : String} (hname : Keyword.ofName? name = none) (k : Keyword) :
      k.name ≠ name := by
    rintro rfl
    rw [Keyword.ofName?_name] at hname
    cases hname
  refine ⟨fun v hv k => (hv.unreserved h).ne_keyword k, hs.contains_eq_false,
    fun r k => ⟨fun hk => ?_, fun hk => ?_⟩, fun name hname => ?_, fun k => ?_⟩
  · exact hparameter ((hs.closure r).params _ hk) k rfl
  · exact hparameter ((hs.closure r).rest _ hk) k rfl
  · have hfree : Keyword.ofName? name = none := hname.unreserved h
    exact namesItself_of_symbolOf s rfl (by rw [Native.Texts.symbolOf, hfree]) (by simp [Value.same])
  · exact namesItself_of_symbolOf s rfl (by simp [Native.Texts.symbolOf]) (by simp [Value.same])

/-- The text fails, since it tries to bind `else`. It has left a symbol in the store, which is what its
name stands for, and `else` is not bound. -/
theorem reserved_names_stay_reserved_define :
    let s₀ := (Interpreter.new {} false 0).after (.ofConsole {})
    let s := (evalText ⟨{}, 0⟩ 9 "(define else 'iff)").after s₀
    (Session ⟨{}, 0⟩ s ∧ Session.HasValue ⟨{}, 0⟩ s (.symbol "iff")) ∧
      (s.scope 0).contains "else" = false ∧ NamesItself s (.symbol "iff") := by
  have hatoms : Reader.atom "define" = .keyword .define ∧ Reader.atom "else" = .keyword .otherwise ∧
      Reader.atom "iff" = .symbol "iff" := by
    refine ⟨Reader.atom_keyword .define, Reader.atom_keyword .otherwise, ?_⟩
    have hnumber : Number.parse? "iff" = none := by decide +kernel
    have hkeyword : Keyword.ofName? "iff" = none := by decide +kernel
    rw [Reader.atom, hnumber, hkeyword]
  have hread : Reader.parseAll "(define else 'iff)" =
      .ok [.list [.keyword .define, .keyword .otherwise, Datum.quoted (.symbol "iff")]] := by
    have hsplit : Token.split "(define else 'iff)" = .ok [.leftParen, .atom "define", .atom "else",
        .quote, .atom "iff", .rightParen] := by rfl
    rw [Reader.parseAll, hsplit]
    simp [bind, Except.bind, Reader.readAll, Reader.step, Reader.other, Reader.close, Reader.deliver,
      hatoms, Except.map]
  have hcar : ((evalText ⟨{}, 0⟩ 9 "(define else 'iff)").after
      ((Interpreter.new {} false 0).after (.ofConsole {}))).car 0 = .symbol "iff" := by
    rw [evalText, Evaluator.evalText, hread]
    rfl
  intro s₀ s
  have hstart : (Interpreter.new {} false 0).run (.ofConsole {}) = .ok ⟨{}, 0⟩ s₀ := rfl
  have hsession : Session ⟨{}, 0⟩ s := .text (.start hstart) 9 _
  have hvalue : Session.HasValue ⟨{}, 0⟩ s (.symbol "iff") := .inl (hcar ▸ .car 0)
  obtain ⟨-, hscopes, -, hsymbols, -⟩ := reserved_names_stay_reserved hsession
  exact ⟨⟨hsession, hvalue⟩, hscopes 0 .otherwise, hsymbols "iff" hvalue⟩

end Interpreter

end LittleScheme
