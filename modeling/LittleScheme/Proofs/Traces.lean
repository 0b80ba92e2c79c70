import LittleScheme.Proofs.Effects
import LittleScheme.Proofs.Forms
import LittleScheme.Proofs.Frames
import LittleScheme.Proofs.Run

/-!
# Traces

An error has no trace when it arises. The stack machine attaches one when the step of a frame fails,
and whatever the limit is, the trace is not empty then: at least the frame itself is pending. Nothing
else depends on the limit, so two runs with different limits go through the same configurations.
-/
namespace LittleScheme

/-! ### Errors without their traces -/

namespace Error

/-- An error without its trace. -/
def untraced : Error → Error
  | unbound name _ => unbound name .none
  | failed fault _ => failed fault .none
  | error => error

/-- Failed evaluations carry a trace, faults of form do not. -/
def carriesTrace : Error → Bool
  | unbound _ _ | failed _ _ => true
  | malformed _ | incomplete => false

theorem untraced_withTrace (e : Error) (trace : Trace) : (e.withTrace trace).untraced = e.untraced := by
  cases e <;> rfl

/-- The text of an error that has received its trace. -/
theorem message_withTrace {e : Error} (h : e.untraced = e) (trace : Trace) :
    (e.withTrace trace).message = e.message ++ if e.carriesTrace then trace.text else "" := by
  have hnone : Trace.none.text = "" := rfl
  cases e with
  | malformed fault | incomplete => exact (String.append_empty).symm
  | unbound name old =>
      obtain rfl : Trace.none = old := (Error.unbound.inj h).2
      change _ ++ trace.text = _ ++ Trace.none.text ++ trace.text
      rw [hnone, String.append_empty]
  | failed fault old =>
      obtain rfl : Trace.none = old := (Error.failed.inj h).2
      change _ ++ trace.text = _ ++ Trace.none.text ++ trace.text
      rw [hnone, String.append_empty]

end Error

namespace Stop

/-- A reason to stop without the trace of its error. -/
def untraced : Stop → Stop
  | .error e => .error e.untraced
  | stop => stop

/-- Attach a trace to the error, if it is one. -/
def withTrace (trace : Trace) : Stop → Stop
  | .error e => .error (e.withTrace trace)
  | stop => stop

theorem untraced_withTrace (e : Stop) (trace : Trace) : (e.withTrace trace).untraced = e.untraced := by
  cases e with
  | error e => exact congrArg Stop.error (e.untraced_withTrace trace)
  | aborted | waiting | outOfFuel => rfl

theorem Fresh.untraced_eq {e : Error} (h : (Stop.error e).Fresh) : e.untraced = e := by
  cases e with
  | malformed fault | incomplete => rfl
  | unbound name trace | failed fault trace =>
      obtain rfl : trace = .none := h
      rfl

end Stop

/-! ### Computations whose errors have no trace yet -/

namespace Eval

variable {α β : Type}

/-- Whatever stops the computation arises in it. -/
def StopsFresh (x : Eval α) : Prop := ∀ ⦃s e s'⦄, x.run s = .error e s' → e.Fresh

theorem ChecksFor.stopsFresh {x : Eval α} (h : Checks x) : StopsFresh x := by
  intro s e s' hrun
  obtain ⟨a, ha⟩ | ⟨e', hfresh, he⟩ := h.fresh s
  · rw [ha] at hrun
    cases hrun
  · rw [he] at hrun
    obtain ⟨rfl, -⟩ := EStateM.Result.error.inj hrun
    exact hfresh

theorem ActsFor.stopsFresh {x : Eval α} (h : Acts x) : StopsFresh x :=
  fun _ _ _ hrun => (h.stop hrun).1.elim (·.fresh) id

theorem StopsFresh.bind {x : Eval α} {f : α → Eval β} (hx : StopsFresh x)
    (hf : ∀ a, StopsFresh (f a)) : StopsFresh (x >>= f) := by
  intro s e s' hrun
  cases hrun' : x.run s with
  | ok a s₁ =>
      rw [run_bind_ok hrun'] at hrun
      exact hf a hrun
  | error e' s₁ =>
      rw [run_bind_error hrun'] at hrun
      obtain ⟨rfl, -⟩ := EStateM.Result.error.inj hrun
      exact hx hrun'

theorem stopsFresh_pure (a : α) : StopsFresh (pure a : Eval α) := (checks_pure a).stopsFresh

theorem stopsFresh_make (f : Store → α × Store) : StopsFresh (make f) := by
  intro s e s' hrun
  cases hrun

theorem stopsFresh_update (f : Store → Store) : StopsFresh (update f) := by
  intro s e s' hrun
  cases hrun

theorem StopsFresh.after_ask {g : Store → α} {f : α → Eval β} (hf : ∀ a, StopsFresh (f a)) :
    StopsFresh (ask g >>= f) := (checks_ask g).stopsFresh.bind hf

theorem stopsFresh_mapM {f : α → Eval β} (hf : ∀ a, StopsFresh (f a)) (items : List α) :
    StopsFresh (items.mapM f) := by
  induction items with
  | nil => exact stopsFresh_pure []
  | cons a items ih =>
      rw [List.mapM_cons]
      exact (hf a).bind fun b => ih.bind fun bs => stopsFresh_pure (b :: bs)

theorem stopsFresh_bind (scope : Ref) (name : String) (v : Value) :
    StopsFresh (Eval.bind scope name v) :=
  (stopsFresh_update _).bind fun _ => stopsFresh_pure v

theorem stopsFresh_assign (scope : Ref) (name : String) (v : Value) :
    StopsFresh (assign scope name v) := by
  refine StopsFresh.bind (.after_ask fun found => ?_) fun found => stopsFresh_bind found name v
  split
  · exact stopsFresh_pure _
  · exact (checks_unbound name).stopsFresh

theorem stopsFresh_enterCall (closure : Ref) (args : List Value) :
    StopsFresh (enterCall closure args) :=
  .after_ask fun _ => (checks_checkArity _ _ _).stopsFresh.bind fun _ => stopsFresh_make _

end Eval

namespace Form

open Eval

theorem stopsFresh_makeClosure (name : Option String) (spec body : Value) (scope : Ref) :
    StopsFresh (makeClosure name spec body scope) :=
  (checks_checkBody body).stopsFresh.bind fun _ => (checks_parameters spec).stopsFresh.bind fun _ =>
    stopsFresh_make _

theorem stopsFresh_lambda (operands : Value) (scope : Ref) : StopsFresh (lambda operands scope) := by
  refine (checks_operandCells _ _ _ _).stopsFresh.bind fun cells => ?_
  split
  · exact .after_ask fun spec => .after_ask fun body => stopsFresh_makeClosure none spec body scope
  · exact (checks_malformed _ _).stopsFresh

theorem stopsFresh_definition (operands : Value) (scope : Ref) :
    StopsFresh (definition operands scope) := by
  refine (checks_operandCells _ _ _ _).stopsFresh.bind fun cells => ?_
  split
  · refine .after_ask fun head => ?_
    split
    · exact .after_ask fun v => (checks_bindingName v).stopsFresh.bind fun name =>
        .after_ask fun spec => .after_ask fun body =>
          (stopsFresh_makeClosure (some name) spec body scope).bind fun _ => stopsFresh_pure _
    · split
      · exact ((checks_bindingName _).map _).stopsFresh
      · exact (checks_malformed _ _).stopsFresh
  · exact (checks_malformed _ _).stopsFresh

theorem stopsFresh_sequence (body : Value) : StopsFresh (sequence body) := by
  unfold sequence
  split
  · refine .after_ask fun rest => ?_
    split
    · exact (checks_ask _).stopsFresh
    · exact stopsFresh_make _
  · exact stopsFresh_make _

theorem stopsFresh_letApplication (operands : Value) (scope : Ref) :
    StopsFresh (letApplication operands scope) := by
  refine (checks_letParts operands).stopsFresh.bind fun parts => .after_ask fun bindings => ?_
  split
  · exact (checks_malformed _ _).stopsFresh
  · refine (checks_mapM checks_letBinding _).stopsFresh.bind fun bindings =>
      (checks_checkBody _).stopsFresh.bind fun _ =>
        (checks_foldlM (fun _ _ => checks_addParameter _ _) _ _).stopsFresh.bind fun params => ?_
    split <;> exact (stopsFresh_make _).bind fun _ => stopsFresh_make _

end Form

namespace Frame

open Eval

theorem stopsFresh_new (expr : Value) (scope : Ref) (destination : Option Ref) :
    StopsFresh (new expr scope destination) :=
  (stopsFresh_make _).bind fun _ => stopsFresh_pure _

theorem stopsFresh_ofBody (body : Value) (scope : Ref) (destination : Option Ref) :
    StopsFresh (ofBody body scope destination) :=
  .after_ask fun items => stopsFresh_mapM (fun expr => stopsFresh_new expr scope destination) items

theorem stopsFresh_goOn (f : Frame) (expr : Value) : StopsFresh (goOn f expr) :=
  (stopsFresh_make _).bind fun _ => stopsFresh_pure _

theorem stopsFresh_await (f : Frame) (expr : Value) (cell : Ref) : StopsFresh (await f expr cell) :=
  (stopsFresh_new _ _ _).bind fun _ => stopsFresh_pure _

theorem stopsFresh_stepApplication (f : Frame) (form : Ref) : StopsFresh (stepApplication f form) := by
  refine .after_ask fun pending => ?_
  split
  · refine .after_ask fun args => .after_ask fun operator => ?_
    split
    · refine (Native.acts_call _ args).stopsFresh.bind fun reply => ?_
      split <;> exact stopsFresh_pure _
    · exact (stopsFresh_enterCall _ args).bind fun scope => .after_ask fun body =>
        (stopsFresh_ofBody body scope _).bind fun _ => stopsFresh_pure _
    · exact ((checks_written _).bind fun _ => checks_fail _).stopsFresh
  · have hoperand (cell : Ref) : StopsFresh (forCell f.scope cell) :=
      .after_ask fun expr => stopsFresh_new expr f.scope (some cell)
    exact (stopsFresh_mapM hoperand pending).bind fun _ => stopsFresh_pure _

theorem stopsFresh_stepConditional (f : Frame) (operands : Value) :
    StopsFresh (stepConditional f operands) := by
  refine (Form.checks_conditional operands).stopsFresh.bind fun parts => .after_ask fun test => ?_
  split
  · exact stopsFresh_await _ _ _
  · split
    · exact stopsFresh_goOn _ _
    · split
      · exact stopsFresh_goOn _ _
      · exact stopsFresh_pure _

theorem stopsFresh_stepDefinition (f : Frame) (operands : Value) :
    StopsFresh (stepDefinition f operands) := by
  refine (Form.stopsFresh_definition operands f.scope).bind fun definition => ?_
  split
  · exact (stopsFresh_bind _ _ _).bind fun _ => stopsFresh_pure _
  · refine .after_ask fun v => ?_
    split
    · exact (stopsFresh_bind _ _ _).bind fun _ => stopsFresh_pure _
    · exact stopsFresh_await _ _ _

theorem stopsFresh_stepAssignment (f : Frame) (operands : Value) :
    StopsFresh (stepAssignment f operands) := by
  refine (Form.checks_assignment operands).stopsFresh.bind fun target => .after_ask fun v => ?_
  split
  · exact (stopsFresh_assign _ _ _).bind fun _ => stopsFresh_pure _
  · exact stopsFresh_await _ _ _

theorem stopsFresh_stepLogical (f : Frame) (form : Ref) (wanted arrived : Bool) (cells : List Ref) :
    StopsFresh (stepLogical f form wanted arrived cells) := by
  induction cells generalizing arrived with
  | nil => exact stopsFresh_pure _
  | cons cell rest ih =>
      refine .after_ask fun operand => ?_
      split
      · exact stopsFresh_goOn _ _
      · refine (checks_settledValue arrived operand f.scope).stopsFresh.bind fun value => ?_
        split
        · exact stopsFresh_await _ _ _
        · split
          · exact stopsFresh_pure _
          · exact (stopsFresh_update _).bind fun _ => ih false

theorem stopsFresh_stepCond (f : Frame) (form : Ref) (arrived : Bool) (cells : List Ref) :
    StopsFresh (stepCond f form arrived cells) := by
  induction cells generalizing arrived with
  | nil => exact stopsFresh_pure _
  | cons cell rest ih =>
      refine .after_ask fun v => (Form.checks_clause v).stopsFresh.bind fun clause =>
        .after_ask fun test => .after_ask fun body =>
          (checks_settledTest arrived test f.scope).stopsFresh.bind fun value => ?_
      split
      · exact (stopsFresh_make _).bind fun _ => (stopsFresh_update _).bind fun _ =>
          stopsFresh_await _ _ _
      · split
        · split
          · exact stopsFresh_pure _
          · exact (Form.stopsFresh_sequence body).bind fun expr => stopsFresh_goOn _ expr
        · exact (stopsFresh_update _).bind fun _ => ih false

theorem stopsFresh_step (f : Frame) : StopsFresh f.step := by
  unfold step
  split
  · exact ((checks_lookup _ _).map _).stopsFresh
  · exact (checks_malformed _).stopsFresh
  · refine .after_ask fun list => ?_
    split
    · refine .after_ask fun operands => .after_ask fun head => ?_
      unfold stepHead
      split
      · exact ((Form.checks_quotation _).map _).stopsFresh
      · exact stopsFresh_stepConditional _ _
      · exact stopsFresh_stepDefinition _ _
      · exact stopsFresh_stepAssignment _ _
      · exact (Form.stopsFresh_lambda _ _).bind fun _ => stopsFresh_pure _
      · exact (Form.stopsFresh_letApplication _ _).bind fun _ => stopsFresh_pure _
      · exact .after_ask fun cells => stopsFresh_stepCond _ _ _ cells
      · exact .after_ask fun cells => stopsFresh_stepLogical _ _ _ _ cells
      · exact .after_ask fun cells => stopsFresh_stepLogical _ _ _ _ cells
      · split
        · exact stopsFresh_pure _
        · exact (stopsFresh_ofBody _ _ _).bind fun _ => stopsFresh_pure _
      · exact (checks_malformed _).stopsFresh
      · exact stopsFresh_stepApplication _ _
    · exact stopsFresh_pure _
  · exact stopsFresh_pure _

end Frame

/-! ### Two limits -/

/-- An outcome without the trace of its error. -/
def Eval.untraced {α : Type} : EStateM.Result Stop Store α → EStateM.Result Stop Store α
  | .ok a s => .ok a s
  | .error e s => .error e.untraced s

theorem Eval.untraced_bind {α β : Type} {x y : Eval α} {f g : α → Eval β} {s : Store}
    (h : untraced (x.run s) = untraced (y.run s))
    (hf : ∀ a s', untraced ((f a).run s') = untraced ((g a).run s')) :
    untraced ((x >>= f).run s) = untraced ((y >>= g).run s) := by
  rw [run_bind, run_bind]
  cases hx : x.run s with
  | ok a s₁ =>
      cases hy : y.run s with
      | ok b s₂ =>
          rw [hx, hy] at h
          obtain ⟨rfl, rfl⟩ := EStateM.Result.ok.inj h
          exact hf a s₁
      | error e s₂ =>
          rw [hx, hy] at h
          cases h
  | error e s₁ =>
      cases hy : y.run s with
      | ok b s₂ =>
          rw [hx, hy] at h
          cases h
      | error e' s₂ =>
          rw [hx, hy] at h
          obtain ⟨he, rfl⟩ := EStateM.Result.error.inj h
          exact congrArg (EStateM.Result.error · s₁) he

namespace Machine

open Eval

variable {limit limit' : Nat}

/-- A traced computation fails when the computation does, with its trace attached. -/
theorem run_traced {α : Type} (frames : List Frame) (x : Eval α) (s : Store) :
    (traced limit frames x).run s = match x.run s with
      | .ok a s' => .ok a s'
      | .error e s' => .error (e.withTrace (trace s' limit frames)) s' := by
  cases h : x.run s with
  | ok a s' => exact run_traced_ok frames h
  | error e s' =>
      unfold traced EStateM.run at *
      cases e <;> simp only [h] <;> rfl

theorem untraced_traced {α : Type} (frames : List Frame) (x : Eval α) (s : Store) :
    untraced ((traced limit frames x).run s) = untraced (x.run s) := by
  rw [run_traced]
  cases x.run s with
  | ok a s' => rfl
  | error e s' => exact congrArg (EStateM.Result.error · s') (e.untraced_withTrace _)

theorem untraced_step (m : Machine) (s : Store) :
    untraced ((m.step limit).run s) = untraced ((m.step limit').run s) := by
  unfold step
  split
  · refine untraced_bind ?_ fun _ _ => rfl
    rw [untraced_traced, untraced_traced]
  · rfl

theorem untraced_run (n : Nat) (m : Machine) (s : Store) :
    untraced ((run limit n m).run s) = untraced ((run limit' n m).run s) := by
  induction n generalizing m s with
  | zero => rfl
  | succ n ih =>
      refine untraced_bind (untraced_step m s) fun next s' => ?_
      cases next with
      | inl m' => exact ih m' s'
      | inr v => rfl

theorem untraced_eval (fuel : Nat) (expr : Value) (scope : Ref) (s : Store) :
    untraced ((eval limit fuel expr scope).run s) = untraced ((eval limit' fuel expr scope).run s) :=
  untraced_bind rfl fun m s' => untraced_run fuel m s'

/-! ### Failing runs -/

theorem run_advance_ok (m : Machine) (d : Option Ref) (transition : Frame.Transition) (s : Store) :
    ∃ m' s', (m.advance d transition).run s = .ok m' s' := by
  cases transition with
  | value v => cases d <;> exact ⟨_, _, rfl⟩
  | suspend g frames => exact ⟨_, _, rfl⟩
  | replace frames => exact ⟨_, _, rfl⟩
  | call procedure args =>
      rw [advance, Eval.run_bind_ok (Eval.run_callForm procedure args s)]
      exact ⟨_, _, rfl⟩

/-- Only the step of the top frame fails, and the trace is that of its stack. -/
theorem step_eq_error {m : Machine} {s s' : Store} {e : Stop}
    (h : (m.step limit).run s = .error e s') :
    ∃ f R e', m.frames = f :: R ∧ f.step.run s = .error e' s' ∧
      e = e'.withTrace (trace s' limit m.frames) := by
  obtain ⟨frames, v, suspended⟩ := m
  cases frames with
  | cons f R =>
      unfold step at h
      rw [Eval.run_bind, run_traced] at h
      cases hf : f.step.run s with
      | error e' s₁ =>
          simp only [hf] at h
          obtain ⟨rfl, rfl⟩ := EStateM.Result.error.inj h
          exact ⟨f, R, e', rfl, hf, rfl⟩
      | ok transition s₁ =>
          simp only [hf] at h
          obtain ⟨m', s₂, hm'⟩ := run_advance_ok ⟨R, v, suspended⟩ f.destination transition s₁
          rw [Eval.run_bind_ok hm'] at h
          cases h
  | nil =>
      cases suspended with
      | nil => cases h
      | cons outer rest =>
          obtain ⟨m', s₁, hm'⟩ : ∃ m' s₁, (deliver ⟨outer.frames, outer.result, rest⟩
              outer.destination v).run s = .ok m' s₁ := by
            cases outer.destination <;> exact ⟨_, _, rfl⟩
          unfold step at h
          rw [Eval.run_bind_ok hm'] at h
          cases h

/-- A frame whose step fails. -/
theorem step_of_frame_error {f : Frame} {R : List Frame} {v : Value} {B : List Suspended}
    {s s' : Store} {e : Stop} (h : f.step.run s = .error e s') :
    ∃ e', (step limit ⟨f :: R, v, B⟩).run s = .error e' s' ∧ e'.untraced = e.untraced := by
  have htraced : (traced limit (f :: R) f.step).run s =
      .error (e.withTrace (trace s' limit (f :: R))) s' := by rw [run_traced, h]
  exact ⟨_, Eval.run_bind_error htraced, e.untraced_withTrace _⟩

theorem step_error_above {m : Machine} {s s' : Store} {e : Stop}
    (h : (m.step limit).run s = .error e s') (R : List Frame) (B : List Suspended) :
    ∃ e', ((m.above R B).step limit).run s = .error e' s' ∧ e'.untraced = e.untraced := by
  obtain ⟨f, F, e', hframes, hf, rfl⟩ := step_eq_error h
  obtain ⟨frames, v, suspended⟩ := m
  obtain rfl : frames = f :: F := hframes
  have habove : above ⟨f :: F, v, suspended⟩ R B =
      ⟨f :: (above ⟨F, v, suspended⟩ R B).frames, v, (above ⟨F, v, suspended⟩ R B).suspended⟩ := by
    cases suspended <;> rfl
  rw [habove]
  obtain ⟨e'', hstep, heq⟩ := step_of_frame_error hf
  exact ⟨e'', hstep, heq.trans (e'.untraced_withTrace _).symm⟩

/-- A run that ends in an error comes to a step that fails. -/
theorem reaches_of_run_error {n : Nat} {m : Machine} {s s' : Store} {e : Error}
    (h : (run limit n m).run s = .error (.error e) s') :
    ∃ m₁ s₁, Reaches limit (m, s) (m₁, s₁) ∧ (m₁.step limit).run s₁ = .error (.error e) s' := by
  induction n generalizing m s with
  | zero => cases h
  | succ n ih =>
      cases hstep : (m.step limit).run s with
      | error e' s₁ =>
          rw [run, Eval.run_bind_error hstep] at h
          obtain ⟨rfl, rfl⟩ := EStateM.Result.error.inj h
          exact ⟨m, s, .refl _, hstep⟩
      | ok next s₁ =>
          rw [run, Eval.run_bind_ok hstep] at h
          cases next with
          | inr v => cases h
          | inl m' =>
              have hnext : Next limit (m, s) (m', s₁) := hstep
              obtain ⟨m₁, s₂, hreaches, herror⟩ := ih h
              exact ⟨m₁, s₂, hnext.reaches.trans hreaches, herror⟩

/-- The lines of a trace: the pending frames up to the limit, and the number of those left out. -/
theorem text_trace (s : Store) (frames : List Frame) :
    (trace s limit frames).text =
      String.join ((frames.take limit).map fun f => "\n  in " ++ s.written f.expr) ++
        if limit < frames.length then
          "\n  ... " ++ toString (frames.length - limit) ++ " more frames" else "" := by
  have homitted : (frames.length - limit = 0) = ¬ limit < frames.length := propext (by omega)
  simp only [Trace.text, trace, List.map_map, homitted, ite_not]
  rfl

end Machine
end LittleScheme
