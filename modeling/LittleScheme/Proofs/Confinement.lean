import LittleScheme.Interpreter
import LittleScheme.Proofs.Effects
import LittleScheme.Proofs.Forms
import LittleScheme.Proofs.Scopes
import LittleScheme.Proofs.Untouched

/-!
# Definitions stay in their scope

An evaluation binds names in the scope it was started in and in scopes that it has made itself, and
nowhere else. An assignment gives a new value to a name that is bound, so it adds none. Both
evaluators keep to that, whether they end in a value or stop.
-/
namespace LittleScheme

namespace Scope

@[simp] theorem contains_bind (c : Scope) (name : String) (v : Value) (other : String) :
    (c.bind name v).contains other = (name == other || c.contains other) := by
  have hcompare : (compare name other == .eq) = (name == other) := by
    by_cases h : name = other
    · simp [h, Std.ReflCmp.compare_self]
    · simp [h, Std.LawfulEqCmp.compare_eq_iff_eq]
  simp [contains, bind, Std.TreeMap.contains_insert, Bool.or_assoc, hcompare]

end Scope

/-! ### The names that scopes bind -/

/-- From one store to another, no scope loses a name, and only scopes with the property `P` gain
any. -/
structure Store.Confined (P : Ref → Prop) (s s' : Store) : Prop where
  size : s.scopes.size ≤ s'.scopes.size
  keeps : ∀ r < s.scopes.size, ∀ name, (s.scope r).contains name → (s'.scope r).contains name
  gains : ∀ r < s.scopes.size, ¬ P r → ∀ name, (s'.scope r).contains name → (s.scope r).contains name

namespace Store.Confined

variable {P : Ref → Prop} {s s' s'' : Store}

theorem of_scopes_eq (h : s'.scopes = s.scopes) : s.Confined P s' := by
  have hscope : ∀ r, s'.scope r = s.scope r := fun r => by rw [Store.scope, h, Store.scope]
  exact ⟨by rw [h], fun r _ name hr => hscope r ▸ hr, fun r _ _ name hr => hscope r ▸ hr⟩

theorem refl (s : Store) : s.Confined P s := of_scopes_eq rfl

theorem trans (h : s.Confined P s') (h' : s'.Confined P s'') : s.Confined P s'' where
  size := Nat.le_trans h.size h'.size
  keeps r hr name hname := h'.keeps r (Nat.lt_of_lt_of_le hr h.size) name (h.keeps r hr name hname)
  gains r hr hP name hname :=
    h.gains r hr hP name (h'.gains r (Nat.lt_of_lt_of_le hr h.size) hP name hname)

theorem setCar (s : Store) (r : Ref) (v : Value) : s.Confined P (s.setCar r v) := of_scopes_eq rfl

theorem setCdr (s : Store) (r : Ref) (v : Value) : s.Confined P (s.setCdr r v) := of_scopes_eq rfl

theorem pushScope (s : Store) (c : Scope) : s.Confined P (s.pushScope c) := by
  have hscope : ∀ r < s.scopes.size, (s.pushScope c).scope r = s.scope r :=
    fun r hr => getD_push_of_lt _ _ _ hr
  exact ⟨by simp [Store.pushScope], fun r hr name h => hscope r hr ▸ h,
    fun r hr _ name h => hscope r hr ▸ h⟩

/-- A name may be bound in a scope that may gain names, or that has the name already. -/
theorem bind {r : Ref} {name : String} (h : P r ∨ (s.scope r).contains name = true) (v : Value) :
    s.Confined P (s.bind r name v) := by
  have hother : ∀ q, q ≠ r → (s.bind r name v).scope q = s.scope q :=
    fun q hq => getD_modify_of_ne _ _ hq _
  refine ⟨by simp [Store.bind], fun q hq other hname => ?_, fun q hq hP other hname => ?_⟩
  · by_cases hqr : q = r
    · subst hqr
      rw [s.scope_bind hq, Scope.contains_bind, hname, Bool.or_true]
    · rwa [hother q hqr]
  · by_cases hqr : q = r
    · subst hqr
      rw [s.scope_bind hq, Scope.contains_bind, Bool.or_eq_true, beq_iff_eq] at hname
      obtain rfl | hname := hname
      · exact h.resolve_left hP
      · exact hname
    · rwa [hother q hqr] at hname

theorem bindAll {r : Ref} (h : P r) (bindings : List (String × Value)) :
    s.Confined P (s.bindAll r bindings) := by
  induction bindings generalizing s with
  | nil => exact refl s
  | cons binding rest ih => exact (bind (.inl h) binding.2).trans ih

theorem enterCall (hnew : P s.scopes.size) (closure : Ref) (args : List Value) :
    s.Confined P (s.enterCall closure args).2 := by
  have hparams : s.Confined P
      ((s.pushScope { parent := some (s.closure closure).scope, caller := some closure }).bindAll
        s.nextScope ((s.closure closure).params.zip args)) :=
    (pushScope s _).trans (bindAll hnew _)
  unfold Store.enterCall
  cases hrest : (s.closure closure).rest with
  | none => simpa only [hrest] using hparams
  | some rest =>
      simp only [hrest]
      refine (hparams.trans (of_scopes_eq ?_)).trans (bind (.inl hnew) _)
      exact (Store.listWithTail_data _ _ .nil).1

theorem newLoop (s : Store) (r : Ref) (name : String) (params : List String) (rest : Option String)
    (body : Value) : s.Confined P (s.newLoop r name params rest body).2 :=
  (pushScope s _).trans (of_scopes_eq rfl)

theorem copySpine (s : Store) (v : Value) : s.Confined P (s.copySpine v).2 := by
  unfold Store.copySpine
  split
  · split
    · exact of_scopes_eq (Store.listWithTail_data _ _ _).1
    · exact refl s
  · exact refl s

end Store.Confined

/-! ### Computations that keep to their scopes -/

/-- From a store with `N` scopes on, only scopes with the property `P` gain names, whatever becomes
of the computation, and what it returns has the property `Q`. It is not stopped by a text that goes
on. -/
def Eval.Confines {α : Type} (N : Nat) (P : Ref → Prop) (x : Eval α) (Q : α → Prop) : Prop :=
  ∀ s, N ≤ s.scopes.size → match x.run s with
    | .ok a s' => s.Confined P s' ∧ Q a
    | .error e s' => s.Confined P s' ∧ e ≠ .error .incomplete

namespace Eval.Confines

variable {α β : Type} {N : Nat} {P : Ref → Prop} {Q : α → Prop} {R : β → Prop}

theorem of_checks {x : Eval α} (h : Checks x) : Confines N P x fun _ => True := by
  intro s _
  obtain ⟨a, ha⟩ | ⟨e, hfresh, he⟩ := h.fresh s
  · rw [ha]
    exact ⟨.refl s, trivial⟩
  · rw [he]
    exact ⟨.refl s, hfresh.ne_incomplete⟩

theorem of_acts {x : Eval α} (h : Acts x) : Confines N P x fun _ => True := by
  intro s _
  have hs := h s
  cases hrun : x.run s with
  | ok a s' =>
      simp only [hrun] at hs
      exact ⟨.of_scopes_eq hs.1, trivial⟩
  | error e s' =>
      simp only [hrun] at hs
      obtain ⟨hreason, rfl⟩ := hs
      exact ⟨.refl _, (hreason.elim (·.fresh) id).ne_incomplete⟩

theorem pure {a : α} (h : Q a) : Confines N P (Pure.pure a) Q := fun s _ => ⟨.refl s, h⟩

theorem throw {e : Stop} (h : e ≠ .error .incomplete) : Confines N P (throw e : Eval α) Q :=
  fun s _ => ⟨.refl s, h⟩

theorem outOfFuel : Confines N P (MonadExcept.throw .outOfFuel : Eval α) Q := throw (by simp)

theorem ask {f : Store → α} (h : ∀ s, Q (f s)) : Confines N P (Eval.ask f) Q :=
  fun s _ => ⟨.refl s, h s⟩

theorem make {f : Store → α × Store}
    (h : ∀ s, N ≤ s.scopes.size → s.Confined P (f s).2 ∧ Q (f s).1) : Confines N P (Eval.make f) Q :=
  h

theorem make_any {f : Store → α × Store} (h : ∀ s : Store, s.Confined P (f s).2) :
    Confines N P (Eval.make f) fun _ => True := fun s _ => ⟨h s, trivial⟩

theorem update {f : Store → Store} (h : ∀ s : Store, s.Confined P (f s)) :
    Confines N P (Eval.update f) fun _ => True := fun s _ => ⟨h s, trivial⟩

theorem bind {x : Eval α} {f : α → Eval β} (hx : Confines N P x Q)
    (hf : ∀ a, Q a → Confines N P (f a) R) : Confines N P (x >>= f) R := by
  intro s hs
  have hxs := hx s hs
  cases hrun : x.run s with
  | error e s' =>
      simp only [hrun] at hxs
      rw [run_bind_error hrun]
      exact hxs
  | ok a s' =>
      simp only [hrun] at hxs
      obtain ⟨hconfined, ha⟩ := hxs
      have hfs := hf a ha s' (Nat.le_trans hs hconfined.size)
      rw [run_bind_ok hrun]
      cases hrun' : (f a).run s' with
      | ok b s'' =>
          simp only [hrun'] at hfs
          exact ⟨hconfined.trans hfs.1, hfs.2⟩
      | error e s'' =>
          simp only [hrun'] at hfs
          exact ⟨hconfined.trans hfs.1, hfs.2⟩

theorem after_checks {x : Eval α} {f : α → Eval β} (hx : Checks x)
    (hf : ∀ a, Confines N P (f a) R) : Confines N P (x >>= f) R :=
  (of_checks hx).bind fun a _ => hf a

theorem after_ask {g : Store → α} {f : α → Eval β} (hf : ∀ a, Confines N P (f a) R) :
    Confines N P (Eval.ask g >>= f) R := after_checks (checks_ask g) hf

theorem mono {Q' : α → Prop} {x : Eval α} (h : Confines N P x Q) (hQ : ∀ a, Q a → Q' a) :
    Confines N P x Q' := by
  intro s hs
  have hxs := h s hs
  cases hrun : x.run s with
  | ok a s' =>
      simp only [hrun] at hxs
      exact ⟨hxs.1, hQ a hxs.2⟩
  | error e s' =>
      simp only [hrun] at hxs
      exact hxs

theorem mapM {f : α → Eval β} (hf : ∀ a, Confines N P (f a) R) (items : List α) :
    Confines N P (items.mapM f) fun bs => ∀ b ∈ bs, R b := by
  induction items with
  | nil => exact pure (by simp)
  | cons a items ih =>
      rw [List.mapM_cons]
      exact (hf a).bind fun b hb => ih.bind fun bs hbs => pure (List.forall_mem_cons.2 ⟨hb, hbs⟩)

end Eval.Confines

/-! ### Special forms -/

namespace Form

open Eval

variable {N : Nat} {P : Ref → Prop}

theorem makeClosure_confines (name : Option String) (spec body : Value) (scope : Ref) :
    Confines N P (makeClosure name spec body scope) fun _ => True :=
  .after_checks (checks_checkBody body) fun _ => .after_checks (checks_parameters spec) fun _ =>
    .make_any fun _ => .of_scopes_eq rfl

theorem lambda_confines (operands : Value) (scope : Ref) :
    Confines N P (lambda operands scope) fun _ => True := by
  refine .after_checks (checks_operandCells _ _ _ _) fun cells => ?_
  split
  · exact .after_ask fun spec => .after_ask fun body => makeClosure_confines none spec body scope
  · exact .of_checks (checks_malformed _ _)

theorem definition_confines (operands : Value) (scope : Ref) :
    Confines N P (definition operands scope) fun _ => True := by
  refine .after_checks (checks_operandCells _ _ _ _) fun cells => ?_
  split
  · refine .after_ask fun head => ?_
    split
    · refine .after_ask fun v => .after_checks (checks_bindingName v) fun name =>
        .after_ask fun spec => .after_ask fun body => ?_
      exact (makeClosure_confines (some name) spec body scope).bind fun _ _ => .pure trivial
    · split
      · exact .of_checks ((checks_bindingName _).map _)
      · exact .of_checks (checks_malformed _ _)
  · exact .of_checks (checks_malformed _ _)

theorem sequence_confines (body : Value) : Confines N P (sequence body) fun _ => True := by
  have hwrapped : Confines N P (Eval.make fun s => s.cons (.keyword .begin) body) fun _ => True :=
    .make_any fun _ => .of_scopes_eq rfl
  unfold sequence
  split
  · refine .after_ask fun rest => ?_
    split
    · exact .ask fun _ => trivial
    · exact hwrapped
  · exact hwrapped

theorem letApplication_confines (operands : Value) (scope : Ref) :
    Confines N P (letApplication operands scope) fun _ => True := by
  refine .after_checks (checks_letParts operands) fun parts => .after_ask fun bindings => ?_
  split
  · exact .of_checks (checks_malformed _ _)
  · refine .after_checks (checks_mapM checks_letBinding _) fun bindings =>
      .after_checks (checks_checkBody _) fun _ =>
        .after_checks (checks_foldlM (fun _ _ => checks_addParameter _ _) _ _)
          fun params => ?_
    have hcall (closure : Value) : Confines N P
        (Eval.make fun s => s.listWithTail (closure :: bindings.map Prod.snd) .nil) fun _ => True :=
      .make_any fun s => .of_scopes_eq (s.listWithTail_data _ _).1
    split
    · exact (Confines.make_any fun s => .newLoop s _ _ _ _ _).bind fun closure _ => hcall closure
    · exact (Confines.make_any fun _ => .of_scopes_eq rfl).bind fun closure _ => hcall closure

end Form

/-! ### Scopes that an evaluation enters -/

namespace Eval

variable {N : Nat} {P : Ref → Prop}

theorem bind_confines {scope : Ref} (h : P scope) (name : String) (v : Value) :
    Confines N P (Eval.bind scope name v) fun _ => True :=
  (Confines.update fun _ => .bind (.inl h) v).bind fun _ _ => .pure trivial

/-- An assignment binds no name that was not bound. -/
theorem assign_confines (scope : Ref) (name : String) (v : Value) :
    Confines N P (assign scope name v) fun _ => True := by
  intro s _
  rw [run_assign]
  cases hfind : s.find? scope name with
  | none => exact ⟨.refl s, by simp⟩
  | some found =>
      have hcontains := List.find?_some hfind
      exact ⟨.bind (.inr hcontains) v, trivial⟩

theorem enterCall_confines (hP : ∀ r, N ≤ r → P r) (closure : Ref) (args : List Value) :
    Confines N P (enterCall closure args) P := by
  refine .after_ask fun c => .after_checks (checks_checkArity _ _ _) fun _ => .make fun s hs => ?_
  exact ⟨.enterCall (hP _ hs) closure args, s.fst_enterCall closure args ▸ hP _ hs⟩

theorem newRoot_confines (hP : ∀ r, N ≤ r → P r) : Confines N P newRoot P :=
  .make fun s hs => ⟨.pushScope s _, hP _ hs⟩

theorem callForm_confines (procedure : Value) (args : List Value) :
    Confines N P (callForm procedure args) fun _ => True := by
  have hquoted : Confines N P (args.mapM fun v => make fun s => s.list [.keyword .quote, v])
      fun quoted => ∀ v ∈ quoted, True :=
    .mapM (fun v => .make_any fun s => .of_scopes_eq (s.listWithTail_data _ _).1) args
  exact hquoted.bind fun quoted _ =>
    .make_any fun s => .of_scopes_eq (s.listWithTail_data _ _).1

end Eval

/-! ### Evaluation by recursion -/

namespace Direct

open Eval

variable {N : Nat} {P : Ref → Prop}

mutual

theorem eval_confines (hP : ∀ r, N ≤ r → P r) (n : Nat) (v : Value) {scope : Ref} (h : P scope) :
    Confines N P (eval n v scope) fun _ => True := by
  cases n with
  | zero =>
      unfold eval
      exact .outOfFuel
  | succ n =>
      unfold eval
      split
      · exact .of_checks (checks_lookup _ _)
      · exact .of_checks (checks_malformed _)
      · refine .after_ask fun list => ?_
        split
        · exact evalForm_confines hP n _ h
        · exact .pure trivial
      · exact .pure trivial

theorem evalForm_confines (hP : ∀ r, N ≤ r → P r) (n : Nat) (form : Ref) {scope : Ref}
    (h : P scope) : Confines N P (evalForm n form scope) fun _ => True := by
  cases n with
  | zero =>
      unfold evalForm
      exact .outOfFuel
  | succ n =>
      unfold evalForm
      refine .after_ask fun operands => .after_ask fun head => ?_
      split
      · exact .of_checks (Form.checks_quotation operands)
      · refine .after_checks (Form.checks_conditional operands) fun parts => .after_ask fun test =>
          (eval_confines hP n test h).bind fun value _ => ?_
        split
        · exact eval_confines hP n _ h
        · split
          · exact eval_confines hP n _ h
          · exact .pure trivial
      · refine (Form.definition_confines operands scope).bind fun definition _ => ?_
        split
        · exact bind_confines h _ _
        · exact .after_ask fun expr => (eval_confines hP n expr h).bind fun v _ =>
            bind_confines h _ v
      · exact .after_checks (Form.checks_assignment operands) fun target => .after_ask fun expr =>
          (eval_confines hP n expr h).bind fun v _ => assign_confines _ _ v
      · exact Form.lambda_confines operands scope
      · exact (Form.letApplication_confines operands scope).bind fun call _ =>
          eval_confines hP n call h
      · exact evalClauses_confines hP n operands h
      · exact evalAnd_confines hP n _ operands h
      · exact evalOr_confines hP n operands h
      · exact evalBody_confines hP n _ operands h
      · exact .of_checks (checks_malformed _)
      · exact (eval_confines hP n _ h).bind fun procedure _ =>
          (evalEach_confines hP n operands h).bind fun args _ => apply_confines hP n procedure args

theorem evalEach_confines (hP : ∀ r, N ≤ r → P r) (n : Nat) (list : Value) {scope : Ref}
    (h : P scope) : Confines N P (evalEach n list scope) fun _ => True := by
  cases n with
  | zero =>
      unfold evalEach
      exact .outOfFuel
  | succ n =>
      unfold evalEach
      split
      · exact .after_ask fun rest => .after_ask fun expr =>
          (eval_confines hP n expr h).bind fun v _ =>
            (evalEach_confines hP n rest h).bind fun vs _ => .pure trivial
      · exact .pure trivial

theorem evalBody_confines (hP : ∀ r, N ≤ r → P r) (n : Nat) (last body : Value) {scope : Ref}
    (h : P scope) : Confines N P (evalBody n last body scope) fun _ => True := by
  cases n with
  | zero =>
      unfold evalBody
      exact .outOfFuel
  | succ n =>
      unfold evalBody
      split
      · exact .after_ask fun rest => .after_ask fun expr =>
          (eval_confines hP n expr h).bind fun v _ => evalBody_confines hP n v rest h
      · exact .pure trivial

theorem evalClauses_confines (hP : ∀ r, N ≤ r → P r) (n : Nat) (clauses : Value) {scope : Ref}
    (h : P scope) : Confines N P (evalClauses n clauses scope) fun _ => True := by
  cases n with
  | zero =>
      unfold evalClauses
      exact .outOfFuel
  | succ n =>
      unfold evalClauses
      split
      · refine .after_ask fun rest => .after_ask fun v => .after_checks (Form.checks_clause v)
          fun clause => .after_ask fun head => ?_
        have hbranch (test : Value) : Confines N P (do
            if test.isTrue then
              let body ← ask fun s => s.cdr clause
              if body.isNil then return test else evalBody n .void body scope
            else evalClauses n rest scope) fun _ => True := by
          split
          · refine .after_ask fun body => ?_
            split
            · exact .pure trivial
            · exact evalBody_confines hP n _ body h
          · exact evalClauses_confines hP n rest h
        split
        · exact .after_checks (checks_pure _) hbranch
        · exact (eval_confines hP n _ h).bind fun test _ => hbranch test
      · exact .pure trivial

theorem evalAnd_confines (hP : ∀ r, N ≤ r → P r) (n : Nat) (last operands : Value) {scope : Ref}
    (h : P scope) : Confines N P (evalAnd n last operands scope) fun _ => True := by
  cases n with
  | zero =>
      unfold evalAnd
      exact .outOfFuel
  | succ n =>
      unfold evalAnd
      split
      · refine .after_ask fun rest => .after_ask fun expr =>
          (eval_confines hP n expr h).bind fun v _ => ?_
        split
        · exact evalAnd_confines hP n v rest h
        · exact .pure trivial
      · exact .pure trivial

theorem evalOr_confines (hP : ∀ r, N ≤ r → P r) (n : Nat) (operands : Value) {scope : Ref}
    (h : P scope) : Confines N P (evalOr n operands scope) fun _ => True := by
  cases n with
  | zero =>
      unfold evalOr
      exact .outOfFuel
  | succ n =>
      unfold evalOr
      split
      · refine .after_ask fun rest => .after_ask fun expr =>
          (eval_confines hP n expr h).bind fun v _ => ?_
        split
        · exact .pure trivial
        · exact evalOr_confines hP n rest h
      · exact .pure trivial

/-- The body of a closure is evaluated in a scope of its own, and a native procedure that asks for a
call has it evaluated in an empty one. -/
theorem apply_confines (hP : ∀ r, N ≤ r → P r) (n : Nat) (procedure : Value) (args : List Value) :
    Confines N P (apply n procedure args) fun _ => True := by
  cases n with
  | zero =>
      unfold apply
      exact .outOfFuel
  | succ n =>
      unfold apply
      split
      · refine (Confines.of_acts (Native.acts_call _ args)).bind fun reply _ => ?_
        split
        · exact .pure trivial
        · exact (callForm_confines _ _).bind fun form _ => (newRoot_confines hP).bind
            fun root hroot => eval_confines hP n form hroot
      · exact (enterCall_confines hP _ args).bind fun scope hscope =>
          .after_ask fun body => evalBody_confines hP n _ body hscope
      · exact .of_checks ((checks_written _).bind fun _ => checks_fail _)

end

end Direct

/-! ### Evaluation on a stack -/

namespace Frame

open Eval

/-- The frames that a step leaves behind have scopes with the property `P`. -/
def Transition.Within (P : Ref → Prop) : Transition → Prop
  | .suspend frame above => P frame.scope ∧ ∀ g ∈ above, P g.scope
  | .replace frames => ∀ g ∈ frames, P g.scope
  | _ => True

variable {N : Nat} {P : Ref → Prop} {f : Frame}

theorem new_confines {scope : Ref} (h : P scope) (expr : Value) (destination : Option Ref) :
    Confines N P (new expr scope destination) fun g => P g.scope :=
  (Confines.make_any fun s => .copySpine s expr).bind fun _ _ => .pure h

theorem ofBody_confines {scope : Ref} (h : P scope) (body : Value) (destination : Option Ref) :
    Confines N P (ofBody body scope destination) fun frames => ∀ g ∈ frames, P g.scope :=
  .after_ask fun items => .mapM (fun expr => new_confines h expr destination) items

theorem goOn_confines (h : P f.scope) (expr : Value) :
    Confines N P (goOn f expr) (Transition.Within P) :=
  (Confines.make_any fun s => .copySpine s expr).bind fun _ _ => .pure ⟨h, by simp⟩

theorem await_confines (h : P f.scope) (expr : Value) (cell : Ref) :
    Confines N P (await f expr cell) (Transition.Within P) :=
  (new_confines h expr (some cell)).bind fun g hg => .pure ⟨h, by simpa using hg⟩

theorem stepCall_confines (hP : ∀ r, N ≤ r → P r) (f : Frame) (form : Ref) :
    Confines N P (stepCall f form) (Transition.Within P) := by
  refine .after_ask fun args => .after_ask fun operator => ?_
  split
  · refine (Confines.of_acts (Native.acts_call _ args)).bind fun reply _ => ?_
    split <;> exact .pure trivial
  · exact (enterCall_confines hP _ args).bind fun scope hscope => .after_ask fun body =>
      (ofBody_confines hscope body f.destination).bind fun frames hframes => .pure hframes
  · exact .after_checks (checks_written _) fun _ => .throw (by simp)

theorem stepApplication_confines (hP : ∀ r, N ≤ r → P r) (h : P f.scope) (form : Ref) :
    Confines N P (stepApplication f form) (Transition.Within P) := by
  refine .after_ask fun pending => ?_
  split
  · exact stepCall_confines hP f form
  · have hcells : Confines N P (pending.mapM (forCell f.scope)) fun above => ∀ g ∈ above, P g.scope :=
      .mapM (fun cell => .after_ask fun expr => new_confines h expr (some cell)) pending
    exact hcells.bind fun above habove => .pure ⟨h, habove⟩

theorem stepConditional_confines (h : P f.scope) (operands : Value) :
    Confines N P (stepConditional f operands) (Transition.Within P) := by
  refine .after_checks (Form.checks_conditional operands) fun parts => .after_ask fun test => ?_
  split
  · exact await_confines h _ _
  · split
    · exact goOn_confines h _
    · split
      · exact goOn_confines h _
      · exact .pure trivial

theorem stepDefinition_confines (h : P f.scope) (operands : Value) :
    Confines N P (stepDefinition f operands) (Transition.Within P) := by
  refine (Form.definition_confines operands f.scope).bind fun definition _ => ?_
  split
  · exact (bind_confines h _ _).bind fun _ _ => .pure trivial
  · refine .after_ask fun v => ?_
    split
    · exact (bind_confines h _ _).bind fun _ _ => .pure trivial
    · exact await_confines h _ _

theorem stepAssignment_confines (h : P f.scope) (operands : Value) :
    Confines N P (stepAssignment f operands) (Transition.Within P) := by
  refine .after_checks (Form.checks_assignment operands) fun target => .after_ask fun v => ?_
  split
  · exact (assign_confines _ _ _).bind fun _ _ => .pure trivial
  · exact await_confines h _ _

theorem stepLogical_confines (h : P f.scope) (form : Ref) (wanted arrived : Bool) (cells : List Ref) :
    Confines N P (stepLogical f form wanted arrived cells) (Transition.Within P) := by
  induction cells generalizing arrived with
  | nil => exact .pure trivial
  | cons cell rest ih =>
      refine .after_ask fun operand => ?_
      split
      · exact goOn_confines h _
      · refine .after_checks (checks_settledValue arrived operand f.scope) fun value => ?_
        split
        · exact await_confines h _ _
        · split
          · exact .pure trivial
          · exact (Confines.update fun s => .setCdr s _ _).bind fun _ _ => ih false

theorem stepCond_confines (h : P f.scope) (form : Ref) (arrived : Bool) (cells : List Ref) :
    Confines N P (stepCond f form arrived cells) (Transition.Within P) := by
  induction cells generalizing arrived with
  | nil => exact .pure trivial
  | cons cell rest ih =>
      refine .after_ask fun v => .after_checks (Form.checks_clause v) fun clause =>
        .after_ask fun test => .after_ask fun body =>
          .after_checks (checks_settledTest arrived test f.scope) fun value => ?_
      split
      · exact (Confines.make_any fun _ => .of_scopes_eq rfl).bind fun head _ =>
          (Confines.update fun s => .setCar s _ _).bind fun _ _ => await_confines h _ _
      · split
        · split
          · exact .pure trivial
          · exact (Form.sequence_confines body).bind fun expr _ => goOn_confines h expr
        · exact (Confines.update fun s => .setCdr s _ _).bind fun _ _ => ih false

theorem step_confines (hP : ∀ r, N ≤ r → P r) (h : P f.scope) :
    Confines N P f.step (Transition.Within P) := by
  unfold step
  split
  · exact .after_checks (checks_lookup _ _) fun _ => .pure trivial
  · exact .throw (by simp)
  · refine .after_ask fun list => ?_
    split
    · refine .after_ask fun operands => .after_ask fun head => ?_
      unfold stepHead
      split
      · exact .after_checks (Form.checks_quotation _) fun _ => .pure trivial
      · exact stepConditional_confines h _
      · exact stepDefinition_confines h _
      · exact stepAssignment_confines h _
      · exact (Form.lambda_confines _ _).bind fun _ _ => .pure trivial
      · exact (Form.letApplication_confines _ _).bind fun _ _ => .pure ⟨h, by simp⟩
      · exact .after_ask fun cells => stepCond_confines h _ _ cells
      · exact .after_ask fun cells => stepLogical_confines h _ _ _ cells
      · exact .after_ask fun cells => stepLogical_confines h _ _ _ cells
      · split
        · exact .pure trivial
        · exact (ofBody_confines h _ _).bind fun frames hframes => .pure hframes
      · exact .throw (by simp)
      · exact stepApplication_confines hP h _
    · exact .pure trivial
  · exact .pure trivial

end Frame

namespace Machine

open Eval

/-- All frames, suspended ones too, have scopes with the property `P`. -/
def Within (P : Ref → Prop) (m : Machine) : Prop := ∀ f ∈ m.all, P f.scope

variable {N : Nat} {P : Ref → Prop} {m : Machine}

theorem start_confines {scope : Ref} (h : P scope) (expr : Value) :
    Confines N P (start expr scope) (Within P) :=
  (Frame.new_confines h expr none).bind fun f hf => .pure (by simpa [Within, all] using hf)

theorem deliver_confines (hm : m.Within P) (destination : Option Ref) (v : Value) :
    Confines N P (m.deliver destination v) (Within P) := by
  cases destination with
  | none => exact .pure hm
  | some cell => exact (Confines.update fun s => .setCar s _ _).bind fun _ _ => .pure hm

theorem Within.push (hm : m.Within P) (frames : List Frame) (hframes : ∀ g ∈ frames, P g.scope) :
    Within P { m with frames := frames ++ m.frames } := by
  intro g hg
  rw [all, List.append_assoc] at hg
  obtain hg | hg := List.mem_append.1 hg
  · exact hframes g hg
  · exact hm g hg

theorem advance_confines (hP : ∀ r, N ≤ r → P r) (hm : m.Within P) (destination : Option Ref)
    {t : Frame.Transition} (ht : t.Within P) :
    Confines N P (m.advance destination t) (Within P) := by
  cases t with
  | value v => exact deliver_confines hm destination v
  | suspend g above =>
      have hpush := hm.push (above ++ [g]) fun f hf => ?_
      · exact .pure (by simpa using hpush)
      · obtain hf | hf := List.mem_append.1 hf
        · exact ht.2 f hf
        · rw [List.mem_singleton.1 hf]
          exact ht.1
  | replace frames => exact .pure (hm.push frames ht)
  | call procedure args =>
      refine (callForm_confines procedure args).bind fun form _ => (newRoot_confines hP).bind
        fun root hroot => (start_confines hroot form).bind fun inner hinner => .pure ?_
      have hall : ({ inner with
          suspended := ⟨m.frames, m.result, destination⟩ :: m.suspended } : Machine).all =
          inner.frames ++ m.all := rfl
      intro g hg
      rw [hall] at hg
      obtain hg | hg := List.mem_append.1 hg
      · exact hinner g (List.mem_append_left _ hg)
      · exact hm g hg

theorem traced_confines {α : Type} {Q : α → Prop} {x : Eval α} (h : Confines N P x Q) (limit : Nat)
    (frames : List Frame) : Confines N P (traced limit frames x) Q := by
  intro s hs
  have hxs := h s hs
  unfold EStateM.run traced at *
  cases hrun : x s with
  | ok a s' => simpa only [hrun] using hxs
  | error stop s' =>
      simp only [hrun] at hxs
      cases stop with
      | error e =>
          refine ⟨hxs.1, ?_⟩
          cases e <;> simp_all [Error.withTrace]
      | aborted | waiting | outOfFuel => exact hxs

theorem step_confines (hP : ∀ r, N ≤ r → P r) (limit : Nat) (hm : m.Within P) :
    Confines N P (m.step limit) fun next => ∀ m', next = .inl m' → m'.Within P := by
  unfold step
  split
  · rename_i f rest hframes
    have hf : P f.scope := hm f (by simp [all, hframes])
    have hrest : Within P { m with frames := rest } := fun g hg => hm g (by
      rw [all, hframes]
      exact List.mem_cons_of_mem f hg)
    refine (traced_confines (Frame.step_confines hP hf) limit m.frames).bind fun t ht =>
      (advance_confines hP hrest f.destination ht).bind fun m' hm' => .pure ?_
    rintro _ ⟨⟩
    exact hm'
  · split
    · rename_i hframes _ outer suspended hsuspended
      have houter : Within P { frames := outer.frames, result := outer.result, suspended } :=
        fun g hg => hm g (by
          rw [all, hframes, hsuspended]
          exact hg)
      refine (deliver_confines houter outer.destination m.result).bind fun m' hm' => .pure ?_
      rintro _ ⟨⟩
      exact hm'
    · exact .pure (by simp)

theorem run_confines (hP : ∀ r, N ≤ r → P r) (limit n : Nat) (hm : m.Within P) :
    Confines N P (run limit n m) fun _ => True := by
  induction n generalizing m with
  | zero => exact .outOfFuel
  | succ n ih =>
      refine (step_confines hP limit hm).bind fun next hnext => ?_
      split
      · exact ih (hnext _ rfl)
      · exact .pure trivial

theorem eval_confines (hP : ∀ r, N ≤ r → P r) (limit fuel : Nat) (expr : Value) {scope : Ref}
    (h : P scope) : Confines N P (eval limit fuel expr scope) fun _ => True :=
  (start_confines h expr).bind fun _ hm => run_confines hP limit fuel hm

end Machine

/-! ### Both evaluators -/

theorem Eval.Confines.after {α : Type} {P : Ref → Prop} {x : Eval α} {Q : α → Prop} {s : Store}
    (h : Eval.Confines s.scopes.size P x Q) : s.Confined P (x.after s) := by
  have hs := h s (Nat.le_refl _)
  rw [Eval.after]
  cases hrun : x.run s with
  | ok a s' =>
      simp only [hrun] at hs
      exact hs.1
  | error e s' =>
      simp only [hrun] at hs
      exact hs.1

namespace Store

variable {P : Ref → Prop} {s s' : Store} {r : Ref}

/-- A scope that may not gain names binds the same names. -/
theorem Confined.contains_eq (h : s.Confined P s') (hr : r < s.scopes.size) (hP : ¬ P r)
    (name : String) : (s'.scope r).contains name = (s.scope r).contains name :=
  Bool.eq_iff_iff.2 ⟨h.gains r hr hP name, h.keeps r hr name⟩

/-- A scope that is not there binds nothing. -/
theorem contains_eq_false (hr : s.scopes.size ≤ r) (name : String) :
    (s.scope r).contains name = false := by
  have hscope : s.scope r = {} := by simp [scope, Array.getD_eq_getD_getElem?, hr]
  simp [hscope, Scope.contains]

end Store

namespace Evaluator

open Eval

variable {N : Nat} {P : Ref → Prop}

theorem eval_confines (e : Evaluator) (hP : ∀ r, N ≤ r → P r) (fuel : Nat) (expr : Value)
    {scope : Ref} (h : P scope) : Confines N P (e.eval fuel expr scope) fun _ => True := by
  unfold eval
  split
  · exact Direct.eval_confines hP fuel expr h
  · exact Machine.eval_confines hP e.traceLimit fuel expr h

theorem apply_confines (e : Evaluator) (hP : ∀ r, N ≤ r → P r) (fuel : Nat) (procedure : Value)
    (args : List Value) : Confines N P (e.apply fuel procedure args) fun _ => True :=
  (callForm_confines procedure args).bind fun form _ => (newRoot_confines hP).bind fun _ hroot =>
    e.eval_confines hP fuel form hroot

/-- Whatever becomes of an evaluation, by either strategy: every scope from before it binds the names
it did, but for the scope of the evaluation itself, which may bind more. A call from outside changes
the names of no scope, and an assignment those of no scope either. -/
theorem definitions_stay_in_scope (e : Evaluator) (fuel : Nat) (expr : Value) (scope : Ref)
    (s : Store) :
    (∀ r < s.scopes.size, r ≠ scope → ∀ name,
      (((e.eval fuel expr scope).after s).scope r).contains name = (s.scope r).contains name) ∧
    (∀ name, (s.scope scope).contains name →
      (((e.eval fuel expr scope).after s).scope scope).contains name) ∧
    (∀ procedure args, ∀ r < s.scopes.size, ∀ name,
      (((e.apply fuel procedure args).after s).scope r).contains name =
        (s.scope r).contains name) ∧
    (∀ name v r other,
      (((assign scope name v).after s).scope r).contains other = (s.scope r).contains other) := by
  -- the scope of the evaluation and the scopes that are made in its course
  have heval : s.Confined (fun r => r = scope ∨ s.scopes.size ≤ r)
      ((e.eval fuel expr scope).after s) :=
    (e.eval_confines (fun _ => .inr) fuel expr (.inl rfl)).after
  refine ⟨fun r hr hne name => ?_, fun name hname => ?_, fun procedure args r hr name => ?_,
    fun name v r other => ?_⟩
  · exact heval.contains_eq hr (by simp only [hne, false_or]; omega) name
  · by_cases hscope : scope < s.scopes.size
    · exact heval.keeps scope hscope name hname
    · rw [Store.contains_eq_false (Nat.not_lt.1 hscope)] at hname
      contradiction
  · have happly : s.Confined (s.scopes.size ≤ ·) ((e.apply fuel procedure args).after s) :=
      (e.apply_confines (fun _ h => h) fuel procedure args).after
    exact happly.contains_eq hr (by omega) name
  · have hassign : s.Confined (fun _ => False) ((assign scope name v).after s) :=
      (assign_confines scope name v).after
    by_cases hr : r < s.scopes.size
    · exact hassign.contains_eq hr id other
    · have hsize : ((assign scope name v).after s).scopes.size = s.scopes.size := by
        rw [Eval.after, run_assign]
        cases s.find? scope name <;> simp [Store.bind]
      have hle := Nat.not_lt.1 hr
      rw [Store.contains_eq_false hle, Store.contains_eq_false (hsize ▸ hle)]

/-- The definition in the body of `((lambda () (define x 1)))` is seen in no scope from before. -/
theorem definitions_stay_in_scope_lambda :
    let s : Store := { pairs := #[⟨.integer 1, .nil⟩, ⟨.symbol "x", .pair 0⟩,
      ⟨.keyword .define, .pair 1⟩, ⟨.pair 2, .nil⟩, ⟨.nil, .pair 3⟩, ⟨.keyword .lambda, .pair 4⟩,
      ⟨.pair 5, .nil⟩], scopes := #[{}, { parent := some 0 }] }
    let s' := (eval {} 20 (.pair 6) 1).after s
    (0 < s.scopes.size ∧ 0 ≠ 1) ∧
      ∀ name, (s'.scope 0).contains name = (s.scope 0).contains name := by
  intro s s'
  exact ⟨by decide, (definitions_stay_in_scope {} 20 (.pair 6) 1 s).1 0 (by decide) (by decide)⟩

end Evaluator
end LittleScheme
