import LittleScheme.Proofs.Fuel
import LittleScheme.Proofs.Quotations

/-!
# Calls with values as they are

A procedure is applied to values by evaluating a form in which each of them is quoted. That comes to
the same end as the call of the procedure with the values, by recursion and on a stack of frames.
-/
namespace LittleScheme

open Eval (untraced)

/-! ### Runs to the end -/

namespace Machine

variable {limit : Nat} {s : Store} {x : Value} {R : List Frame} {B : List Suspended}

/-- A run takes a step of its top frame and goes on. Only traces tell of the frames below. -/
theorem untraced_run_succ (n : Nat) (f : Frame) :
    untraced ((run limit (n + 1) ⟨f :: R, x, B⟩).run s) =
      untraced ((f.step >>= fun transition =>
        advance ⟨R, x, B⟩ f.destination transition >>= run limit n).run s) := by
  have hstep : step limit ⟨f :: R, x, B⟩ = (traced limit (f :: R) f.step >>= fun transition =>
      advance ⟨R, x, B⟩ f.destination transition >>= fun m => pure (.inl m)) := rfl
  rw [run, hstep]
  simp only [bind_assoc, pure_bind]
  exact Eval.untraced_bind (untraced_traced _ _ _) fun _ _ => rfl

end Machine

open Eval (Ends)

namespace Machine

variable {limit : Nat}

/-- A run that ends in time does so above a suspended stack, one step later. -/
theorem untraced_run_above {n : Nat} {m : Machine} {s : Store} {v : Value}
    {r : EStateM.Result Stop Store Value} (hr : ∀ t, r ≠ .error .outOfFuel t)
    (h : untraced ((run limit n m).run s) = r) :
    untraced ((run limit (n + 1) (m.above [] [⟨[], v, none⟩])).run s) = r := by
  induction n generalizing m s with
  | zero => exact absurd h.symm (hr s)
  | succ n ih =>
      cases hstep : (m.step limit).run s with
      | error e s' =>
          obtain ⟨e', hstep', he⟩ := step_error_above hstep [] [⟨[], v, none⟩]
          rw [run, Eval.run_bind_error hstep] at h
          rw [run, Eval.run_bind_error hstep']
          exact (congrArg (EStateM.Result.error · s') he).trans h
      | ok next s' =>
          rw [run, Eval.run_bind_ok hstep] at h
          cases next with
          | inl m' =>
              have hnext : Next limit (m, s) (m', s') := hstep
              rw [run, Eval.run_bind_ok (hnext.above [] [⟨[], v, none⟩])]
              exact ih h
          | inr u =>
              obtain ⟨rfl, rfl⟩ := step_eq_inr hstep
              exact h

theorem untraced_run_of_above {n : Nat} {m : Machine} {s : Store} {v : Value}
    {r : EStateM.Result Stop Store Value} (hr : ∀ t, r ≠ .error .outOfFuel t)
    (h : untraced ((run limit n (m.above [] [⟨[], v, none⟩])).run s) = r) :
    untraced ((run limit n m).run s) = r := by
  induction n generalizing m s with
  | zero => exact absurd h.symm (hr s)
  | succ n ih =>
      cases hstep : (m.step limit).run s with
      | error e s' =>
          obtain ⟨e', hstep', he⟩ := step_error_above hstep [] [⟨[], v, none⟩]
          rw [run, Eval.run_bind_error hstep'] at h
          rw [run, Eval.run_bind_error hstep]
          exact (congrArg (EStateM.Result.error · s') he).symm.trans h
      | ok next s' =>
          rw [run, Eval.run_bind_ok hstep]
          cases next with
          | inl m' =>
              have hnext : Next limit (m, s) (m', s') := hstep
              rw [run, Eval.run_bind_ok (hnext.above [] [⟨[], v, none⟩])] at h
              exact ih h
          | inr u =>
              obtain ⟨rfl, rfl⟩ := step_eq_inr hstep
              cases n with
              | zero => exact absurd h.symm (hr s')
              | succ n => exact h

theorem ends_above {m : Machine} {s : Store} {v : Value} {r : EStateM.Result Stop Store Value} :
    Ends (fun n => run limit n (m.above [] [⟨[], v, none⟩])) s r ↔
      Ends (fun n => run limit n m) s r := by
  refine and_congr_right fun hr => ⟨fun ⟨n, h⟩ => ⟨n, fun fuel hfuel => ?_⟩,
    fun ⟨n, h⟩ => ⟨n + 1, fun fuel hfuel => ?_⟩⟩
  · exact untraced_run_of_above hr (h fuel hfuel)
  · obtain ⟨fuel, rfl⟩ : ∃ k, fuel = k + 1 := ⟨fuel - 1, by omega⟩
    exact untraced_run_above hr (h fuel (by omega))

end Machine

/-! ### Procedures called directly -/

/-! The native `apply` asks for the call with the arguments before the last and the elements of the
last, which has to be a proper list. -/

namespace Native

variable {s : Store} {procedure l : Value} {args : List Value}

theorem run_call_apply (hprocedure : procedure.isProcedure = true) (args : List Value) (l : Value) :
    ((control .apply).call (procedure :: (args ++ [l]))).run s = (do
      let items ← Argument.properList "apply" .spreadList l
      return Reply.call procedure (args ++ items) : Eval Reply).run s := by
  have hlast : (args ++ [l]).getLast? = some l := List.getLast?_concat
  have hcall : ((control .apply).call (procedure :: (args ++ [l]))).run s =
      (Control.spreadCall procedure (args ++ [l])).run s := rfl
  rw [hcall, Control.spreadCall]
  simp only [hprocedure, hlast, List.dropLast_concat]
  rfl

theorem run_call_apply_list (hprocedure : procedure.isProcedure = true) {cs : List Ref}
    (hl : s.ListAt l cs) : ((control .apply).call (procedure :: (args ++ [l]))).run s =
      .ok (.call procedure (args ++ cs.map s.car)) s := by
  rw [run_call_apply hprocedure, Argument.properList]
  simp only [bind_assoc, Eval.run_ask_bind, hl.elements?_eq]
  rfl

theorem run_call_apply_improper (hprocedure : procedure.isProcedure = true)
    (hl : s.isList l = false) : ((control .apply).call (procedure :: (args ++ [l]))).run s =
      .error (.error (.failed (.wrongType "apply" .spreadList (s.written l)) .none)) s := by
  rw [run_call_apply hprocedure, Argument.properList]
  simp only [bind_assoc, Eval.run_ask_bind, Store.elements?_of_not_isList hl]
  rfl

end Native

namespace Evaluator

/-- The value of a body in a scope. -/
def evalBody (e : Evaluator) (fuel : Nat) (body : Value) (scope : Ref) : Eval Value :=
  match e.strategy with
  | .recursive => Direct.evalBody fuel .void body scope
  | .stack => do Machine.run e.traceLimit fuel { frames := ← Frame.ofBody body scope none }

/-- The value of a procedure, called directly: a native procedure takes the arguments, and the body
of a closure is evaluated in the scope that binds them. -/
def call (e : Evaluator) (fuel : Nat) (procedure : Value) (args : List Value) : Eval Value :=
  match procedure with
  | .native p => do
      match ← p.call args with
      | .value v => return v
      | .call procedure args => e.apply fuel procedure args
  | .closure r => do
      let scope ← Eval.enterCall r args
      e.evalBody fuel (← Eval.ask fun s => (s.closure r).body) scope
  | v => do Eval.fail (.notProcedure (← Eval.written v))

variable {s : Store} {procedure : Value} {args : List Value}

/-- Values are passed in a form that quotes them, made of new pairs and evaluated in a new scope. -/
theorem exists_callForm (e : Evaluator) (s : Store) (procedure : Value) (args : List Value) :
    ∃ t form cs scope n, s.GrowsTo t ∧ t.ListAt (.pair form) (form :: cs) ∧
      t.car form = procedure ∧ List.Forall₂ (t.Quotes n) args (cs.map t.car) ∧
      ∀ fuel, (e.apply fuel procedure args).run s = (e.eval fuel (.pair form) scope).run t := by
  obtain ⟨s₁, t, form, cs, scope, n, hform, hscope, hgrows, hlist, hhead, hquoted⟩ :=
    Eval.exists_callForm s procedure args
  refine ⟨t, form, cs, scope, n, hgrows, hlist, hhead, hquoted, fun fuel => ?_⟩
  rw [apply, Eval.run_bind_ok hform, Eval.run_bind_ok hscope]

theorem call_eq_apply (limit fuel : Nat) (procedure : Value) (args : List Value) :
    call ⟨.recursive, limit⟩ fuel procedure args = Direct.apply (fuel + 1) procedure args := by
  unfold Direct.apply
  cases procedure <;> rfl

/-- A call that a native procedure asks for is made on a stack of its own. -/
theorem ends_asked {limit : Nat} {r : EStateM.Result Stop Store Value} :
    Ends (fun n => Machine.advance ⟨[], .void, []⟩ none (.call procedure args) >>=
        Machine.run limit n) s r ↔ Ends (fun n => apply ⟨.stack, limit⟩ n procedure args) s r := by
  have hrun := Eval.run_callForm procedure args s
  generalize (s.quoteAll args).2.list (procedure :: (s.quoteAll args).1) = made at hrun
  obtain ⟨form, s₁⟩ := made
  let m : Machine := ⟨[.fresh s₁.nextScope none ((s₁.pushScope {}).copySpine form).1], .void, []⟩
  have hadvance : (Machine.advance ⟨[], .void, []⟩ none (.call procedure args)).run s =
      .ok (m.above [] [⟨[], .void, none⟩]) ((s₁.pushScope {}).copySpine form).2 := by
    rw [Machine.advance, Eval.run_bind_ok hrun]
    rfl
  have happly : ∀ n, (apply ⟨.stack, limit⟩ n procedure args).run s =
      (Machine.run limit n m).run ((s₁.pushScope {}).copySpine form).2 := by
    intro n
    rw [apply, Eval.run_bind_ok hrun]
    rfl
  calc Ends (fun n => Machine.advance ⟨[], .void, []⟩ none (.call procedure args) >>=
          Machine.run limit n) s r
    _ ↔ Ends (fun n => Machine.run limit n (m.above [] [⟨[], .void, none⟩]))
          ((s₁.pushScope {}).copySpine form).2 r :=
        Eval.ends_congr 0 0 fun fuel _ => by rw [Nat.add_zero, Eval.run_bind_ok hadvance]
    _ ↔ Ends (fun n => Machine.run limit n m) ((s₁.pushScope {}).copySpine form).2 r :=
        Machine.ends_above
    _ ↔ Ends (fun n => apply ⟨.stack, limit⟩ n procedure args) s r :=
        Eval.ends_congr 0 0 fun fuel _ => by rw [Nat.add_zero, happly]

/-- A frame with a procedure and its arguments comes to the end to which the call comes. -/
theorem ends_loaded {f : Frame} {limit : Nat} {r : EStateM.Result Stop Store Value}
    (h : f.Loaded s procedure args) (hprocedure : procedure.isProcedure = true)
    (hd : f.destination = none) :
    Ends (fun n => Machine.run limit n ⟨[f], .void, []⟩) s r ↔
      Ends (fun n => call ⟨.stack, limit⟩ n procedure args) s r := by
  cases procedure with
  | closure c =>
      refine Eval.ends_congr 1 0 fun fuel _ => ?_
      rw [Machine.untraced_run_succ, hd, Eval.run_bind, h.run_step_closure, ← Eval.run_bind, hd]
      simp only [bind_assoc, pure_bind, Machine.advance, List.append_nil]
      rfl
  | native p =>
      cases hp : (p.call args).run s with
      | error e s' =>
          have hstep : f.step.run s = .error e s' :=
            h.run_step_native.trans (Eval.run_bind_error hp)
          have hcall : ∀ n, (call ⟨.stack, limit⟩ n (.native p) args).run s = .error e s' :=
            fun n => Eval.run_bind_error hp
          refine Eval.ends_congr 1 0 fun fuel _ => ?_
          rw [Machine.untraced_run_succ, Eval.run_bind_error hstep, hcall]
      | ok reply s' =>
          have hstep : f.step.run s = .ok (.ofReply reply) s' :=
            h.run_step_native.trans (Eval.run_bind_ok hp)
          cases reply with
          | value v =>
              have hcall : ∀ n, (call ⟨.stack, limit⟩ n (.native p) args).run s = .ok v s' :=
                fun n => Eval.run_bind_ok hp
              refine Eval.ends_congr 1 1 fun fuel hfuel => ?_
              obtain ⟨n, rfl⟩ : ∃ n, fuel = n + 1 := ⟨fuel - 1, by omega⟩
              rw [Machine.untraced_run_succ, Eval.run_bind_ok hstep, hd, hcall]
              rfl
          | call asked vs =>
              have hcall : ∀ n, (call ⟨.stack, limit⟩ n (.native p) args).run s =
                  (apply ⟨.stack, limit⟩ n asked vs).run s' := fun n => Eval.run_bind_ok hp
              calc Ends (fun n => Machine.run limit n ⟨[f], .void, []⟩) s r
                _ ↔ Ends (fun n => Machine.advance ⟨[], .void, []⟩ none (.call asked vs) >>=
                      Machine.run limit n) s' r := Eval.ends_congr 1 0 fun fuel _ => by
                    rw [Machine.untraced_run_succ, Eval.run_bind_ok hstep, hd]
                    rfl
                _ ↔ Ends (fun n => apply ⟨.stack, limit⟩ n asked vs) s' r := ends_asked
                _ ↔ Ends (fun n => call ⟨.stack, limit⟩ n (.native p) args) s r :=
                    Eval.ends_congr 0 0 fun fuel _ => by rw [Nat.add_zero, hcall]
  | _ => cases hprocedure

/-- To apply a procedure to values comes to the end to which the call with these values comes, in a
store that has more pairs and scopes. -/
theorem exists_ends_call (e : Evaluator) (s : Store) (hprocedure : procedure.isProcedure = true)
    (args : List Value) :
    ∃ t, s.GrowsTo t ∧ ∀ r, Ends (fun n => e.apply n procedure args) s r ↔
      Ends (fun n => e.call n procedure args) t r := by
  obtain ⟨t, form, cs, scope, n, hgrows, hlist, hhead, hquoted, happly⟩ :=
    e.exists_callForm s procedure args
  obtain ⟨strategy, limit⟩ := e
  cases strategy with
  | recursive =>
      refine ⟨t, hgrows, fun r => Eval.ends_congr 3 (args.length + 1) fun fuel hfuel => ?_⟩
      rcases Direct.run_eval_quotedCall hprocedure hlist hhead hquoted (fuel + 3) with
        ⟨k, hk, -, hcall⟩ | ⟨-, hshort⟩
      · obtain rfl : k = fuel + 1 := by omega
        rw [happly, call_eq_apply, ← hcall]
        rfl
      · omega
  | stack =>
      obtain ⟨f, u, hreaches, hloaded, hd, hgrow, -⟩ :=
        Machine.reaches_loaded limit scope hprocedure hquoted
      obtain ⟨k, hk⟩ := Machine.run_of_reaches hreaches
      refine ⟨u, hgrows.trans hgrow, fun r => Iff.trans (Eval.ends_congr k 0 fun fuel _ => ?_)
        (ends_loaded hloaded hprocedure hd)⟩
      have hcopy : t.copySpine (.pair form) = t.list (procedure :: cs.map t.car) := by
        simp only [Store.copySpine, hlist.elements?_eq, List.map_cons, hhead]
      rw [happly, ← hk fuel, ← hcopy]
      rfl


end Evaluator
end LittleScheme
