import LittleScheme.Direct
import LittleScheme.Proofs.Forms
import LittleScheme.Proofs.Parameters
import LittleScheme.Proofs.Realms

/-!
# Computations that stay in their realm

A computation stays in its realm when it ends in a value or stops with nothing changed but what is
within reach. Native procedures do so with arguments within reach, and so do the special forms taken
apart. For the recursive evaluator it follows by recursion: the value of an expression, be it text or
within reach, is within reach.
-/
namespace LittleScheme

open Value (Related)

/-- Whatever becomes of the computation, it stays in the realm; its result has the property `Q`. -/
def Stays {α : Type} (W : Ref → Prop) (w : Realm) (s : Store) (x : Eval α)
    (Q : Realm → α → Store → Prop) : Prop :=
  match x.run s with
  | .ok a s' => ∃ w', w.Becomes W s w' s' ∧ Q w' a s'
  | .error _ s' => ∃ w', w.Becomes W s w' s'

namespace Stays

variable {α β : Type} {W : Ref → Prop} {w : Realm} {s : Store} {Q : Realm → α → Store → Prop}
  {R : Realm → β → Store → Prop}

theorem of_run {x y : Eval α} (hrun : x.run s = y.run s) (h : Stays W w s y Q) : Stays W w s x Q := by
  rwa [Stays, hrun]

theorem of_ok {x : Eval α} {a : α} {s' : Store} {w' : Realm} (hrun : x.run s = .ok a s')
    (hbecomes : w.Becomes W s w' s') (hq : Q w' a s') : Stays W w s x Q := by
  rw [Stays, hrun]
  exact ⟨w', hbecomes, hq⟩

theorem of_error {x : Eval α} {e : Stop} (hw : w.Holds s) (hrun : x.run s = .error e s) :
    Stays W w s x Q := by
  rw [Stays, hrun]
  exact ⟨w, hw.refl⟩

theorem pure {a : α} (hw : w.Holds s) (hq : Q w a s) : Stays W w s (Pure.pure a) Q :=
  of_ok rfl hw.refl hq

theorem raise (hw : w.Holds s) (e : Error) : Stays W w s (Eval.raise e : Eval α) Q :=
  of_error hw rfl

/-- The second of two computations may write more than the first. -/
theorem bind_widen {x : Eval α} {f : α → Eval β} {V : Ref → Prop} (hx : Stays V w s x Q)
    (hV : ∀ r, V r → W r)
    (hf : ∀ w' a s', w.Becomes V s w' s' → Q w' a s' → Stays W w' s' (f a) R) :
    Stays W w s (x >>= f) R := by
  rw [Stays] at hx
  cases hrun : x.run s with
  | ok a s' =>
      rw [hrun] at hx
      obtain ⟨w', hbecomes, hq⟩ := hx
      have hfa := hf w' a s' hbecomes hq
      rw [Stays] at hfa
      rw [Stays, Eval.run_bind_ok hrun]
      cases hrun' : (f a).run s' with
      | ok b s'' =>
          rw [hrun'] at hfa
          obtain ⟨w'', hbecomes', hr⟩ := hfa
          exact ⟨w'', (hbecomes.mono hV).trans hbecomes' fun _ => .inl, hr⟩
      | error e s'' =>
          rw [hrun'] at hfa
          obtain ⟨w'', hbecomes'⟩ := hfa
          exact ⟨w'', (hbecomes.mono hV).trans hbecomes' fun _ => .inl⟩
  | error e s' =>
      rw [hrun] at hx
      obtain ⟨w', hbecomes⟩ := hx
      rw [Stays, Eval.run_bind_error hrun]
      exact ⟨w', hbecomes.mono hV⟩

theorem bind {x : Eval α} {f : α → Eval β} (hx : Stays W w s x Q)
    (hf : ∀ w' a s', w.Becomes W s w' s' → Q w' a s' → Stays W w' s' (f a) R) :
    Stays W w s (x >>= f) R := hx.bind_widen (fun _ => id) hf

theorem bind_congr {x y : Eval α} {f : α → Eval β} (hrun : x.run s = y.run s)
    (h : Stays W w s (y >>= f) R) : Stays W w s (x >>= f) R :=
  of_run (by rw [Eval.run_bind, hrun, ← Eval.run_bind]) h

theorem bind_ok {x : Eval α} {f : α → Eval β} {a : α} (hx : x.run s = .ok a s)
    (hf : Stays W w s (f a) R) : Stays W w s (x >>= f) R :=
  of_run (Eval.run_bind_ok hx) hf

theorem bind_error {x : Eval α} {f : α → Eval β} {e : Stop} (hw : w.Holds s)
    (hx : x.run s = .error e s) : Stays W w s (x >>= f) R := of_error hw (Eval.run_bind_error hx)

theorem ask_bind {g : Store → α} {f : α → Eval β} (hf : Stays W w s (f (g s)) R) :
    Stays W w s (Eval.ask g >>= f) R := hf

/-- First the store is only read. -/
theorem bind_reads {x : Eval α} {f : α → Eval β} (hw : w.Holds s) (hx : Eval.ReadOnly x)
    (hf : ∀ a, x.run s = .ok a s → Stays W w s (f a) R) : Stays W w s (x >>= f) R := by
  rcases hx s with ⟨a, ha⟩ | ⟨e, he⟩
  · exact bind_ok ha (hf a ha)
  · exact bind_error hw he

/-- The computation goes on from a store that it has come to. -/
theorem go_on {x y : Eval α} {W' : Ref → Prop} {w₁ : Realm} {s₁ : Store} (h : Stays W' w₁ s₁ y Q)
    (hrun : x.run s = y.run s₁) (hbecomes : w.Becomes W s w₁ s₁)
    (hW : ∀ r, W' r → W r ∨ s.pairs.size ≤ r) : Stays W w s x Q := by
  rw [Stays] at h ⊢
  rw [hrun]
  cases hy : y.run s₁ with
  | ok a s' =>
      rw [hy] at h
      obtain ⟨w', hbecomes', hq⟩ := h
      exact ⟨w', hbecomes.trans hbecomes' hW, hq⟩
  | error e s' =>
      rw [hy] at h
      obtain ⟨w', hbecomes'⟩ := h
      exact ⟨w', hbecomes.trans hbecomes' hW⟩

theorem mono {Q' : Realm → α → Store → Prop} {x : Eval α} (hx : Stays W w s x Q)
    (h : ∀ w' a s', Q w' a s' → Q' w' a s') : Stays W w s x Q' := by
  rw [Stays] at hx ⊢
  cases hrun : x.run s with
  | ok a s' =>
      rw [hrun] at hx
      obtain ⟨w', hbecomes, hq⟩ := hx
      exact ⟨w', hbecomes, h w' a s' hq⟩
  | error e s' =>
      rw [hrun] at hx
      exact hx

/-- What two similar stores cannot tell apart has to do with objects within reach only. -/
theorem agree {x : Eval α} {P : Renaming → α → α → Prop} (hw : w.Holds s)
    (hx : Agree w.shared x x P)
    (hscope : ∀ ⦃r⦄, r < s.scopes.size → ¬ w.shared .scope r r → (x.after s).scope r = s.scope r)
    (hq : ∀ ρ' a s', P ρ' a a → Q (w.withShared ρ'.fixed) a s') : Stays W w s x Q := by
  have hxx := hx s s hw.similar
  rw [Eval.after] at hscope
  rw [Stays]
  cases hrun : x.run s with
  | ok a s' =>
      rw [hrun] at hxx hscope
      obtain ⟨ρ', hlater, hsim, hp⟩ := hxx
      exact ⟨_, hw.later hlater hsim hscope, hq ρ' a s' hp⟩
  | error e s' =>
      rw [hrun] at hxx hscope
      obtain ⟨-, ρ', hlater, hsim⟩ := hxx
      exact ⟨_, hw.later hlater hsim hscope⟩

end Stays

/-! ### Names and calls -/

namespace Eval

variable {W : Ref → Prop} {w : Realm} {s : Store} {v : Value}

theorem ReadOnly.after_eq {α : Type} {x : Eval α} (h : ReadOnly x) (s : Store) : x.after s = s := by
  rw [after]
  rcases h s with ⟨a, ha⟩ | ⟨e, he⟩
  · rw [ha]
  · rw [he]

theorem lookup_stays (hw : w.Holds s) {scope : Ref} (hscope : w.shared .scope scope scope)
    (name : String) : Stays W w s (lookup scope name) fun w' v _ => w'.Shared v :=
  .agree hw (lookup_agree hscope name)
    (fun r _ _ => by rw [(checks_lookup scope name).readOnly.after_eq]) fun _ _ _ hv => hv.fixed

theorem bind_stays (hw : w.Holds s) {scope : Ref} (hscope : w.shared .scope scope scope)
    (name : String) (hv : w.Shared v) : Stays W w s (bind scope name v) fun w' v _ => w'.Shared v := by
  refine .agree hw (bind_agree hscope name hv) (fun r _ hr => ?_) fun _ _ _ hv => hv.fixed
  refine Store.scope_bind_of_ne ?_ name v
  rintro rfl
  exact hr hscope

theorem assign_stays (hw : w.Holds s) {scope : Ref} (hscope : w.shared .scope scope scope)
    (name : String) (hv : w.Shared v) :
    Stays W w s (assign scope name v) fun w' v _ => w'.Shared v := by
  refine .agree hw (assign_agree hscope name hv) (fun r _ hr => ?_) fun _ _ _ hv => hv.fixed
  have hfind := hw.similar.find? hscope name
  rw [after, run_assign]
  cases hfound : s.find? scope name with
  | none => rfl
  | some found =>
      rw [hfound] at hfind
      cases hfind with
      | some hshared =>
          refine Store.scope_bind_of_ne ?_ name v
          rintro rfl
          exact hr hshared

theorem scope_enterCall_of_ne {r q : Ref} (h : q ≠ s.scopes.size) (args : List Value) :
    (s.enterCall r args).2.scope q = s.scope q := by
  rw [Store.scope_enterCall, Store.scope_bindAll_of_ne h, Store.fixedBound,
    Store.scope_bindAll_of_ne h]
  exact Store.scope_pushScope_of_ne h _

theorem enterCall_stays (hw : w.Holds s) {r : Ref} (hr : w.shared .closure r r) {args : List Value}
    (hargs : ∀ v ∈ args, w.Shared v) :
    Stays W w s (enterCall r args) fun w' scope _ => w'.shared .scope scope scope := by
  refine .agree hw (enterCall_agree hr (List.forall₂_same.2 hargs)) (fun q hq _ => ?_)
    fun _ _ _ hscope => ⟨rfl, hscope⟩
  rw [after, run_enterCall]
  by_cases haccepts : (s.closure r).arity.accepts args.length = true
  · rw [if_pos haccepts]
    exact scope_enterCall_of_ne (Nat.ne_of_lt hq) args
  · rw [if_neg haccepts]

theorem newRoot_stays (hw : w.Holds s) :
    Stays W w s newRoot fun w' scope _ => w'.shared .scope scope scope :=
  .agree hw newRoot_agree (fun _ hr _ => Store.scope_pushScope_of_ne (Nat.ne_of_lt hr) _)
    fun _ _ _ hscope => ⟨rfl, hscope⟩

theorem quoteAll_scopes (s : Store) (vs : List Value) : (s.quoteAll vs).2.scopes = s.scopes := by
  induction vs generalizing s with
  | nil => rfl
  | cons v vs ih => exact (ih _).trans (Store.listWithTail_data s [.keyword .quote, v] .nil).1

theorem callForm_stays (hw : w.Holds s) (hv : w.Shared v) {args : List Value}
    (hargs : ∀ v ∈ args, w.Shared v) :
    Stays W w s (callForm v args) fun w' form _ => w'.Shared form := by
  refine .agree hw (callForm_agree hv (List.forall₂_same.2 hargs)) (fun r _ _ => ?_)
    fun _ _ _ hv => hv.fixed
  have hscopes : ((callForm v args).after s).scopes = s.scopes := by
    rw [after, run_callForm]
    exact (Store.listWithTail_data _ _ .nil).1.trans (quoteAll_scopes s args)
  rw [Store.scope, hscopes, Store.scope]

end Eval

namespace Realm

/-- What a native procedure answers with is within reach. -/
def SharedReply (w : Realm) : Native.Reply → Prop
  | .value v => w.Shared v
  | .call procedure args => w.Shared procedure ∧ ∀ v ∈ args, w.Shared v

end Realm

theorem Native.call_stays {W : Ref → Prop} {w : Realm} {s : Store} {p : Native} {args : List Value}
    (hw : w.Holds s) (hargs : ∀ v ∈ args, w.Shared v) :
    Stays W w s (p.call args) fun w' reply _ => w'.SharedReply reply := by
  cases htarget : p.target? args with
  | none =>
      refine .agree hw (call_agree htarget (List.forall₂_same.2 hargs)) (fun r _ _ => ?_)
        fun ρ' reply s' h => ?_
      · have hacts := acts_call p args s
        rw [Eval.after]
        cases hrun : (p.call args).run s with
        | ok reply s' =>
            rw [hrun] at hacts
            simp only [Store.scope, hacts.1]
        | error e s' =>
            rw [hrun] at hacts
            simp only [hacts.2]
      · cases h with
        | value hv => exact hv.fixed
        | call hp hvs => exact ⟨hp.fixed, fun v hv => (List.forall₂_same.1 hvs v hv).fixed⟩
  | some r =>
      obtain ⟨v, rfl, hrun⟩ := run_call_of_target? htarget
      have hr : w.shared .pair r r := by
        cases hargs (.pair r) (by simp) with
        | pair hr => exact hr
      have hv : w.Shared v := hargs v (by simp)
      rcases hrun s with hrun | hrun
      · exact .of_ok hrun (hw.setCar hr hv) .void
      · exact .of_ok hrun (hw.setCdr hr hv) .void

/-! ### Special forms -/

namespace Form

variable {W : Ref → Prop} {w : Realm} {s : Store} {v : Value} {cs : List Ref} {scope : Ref}

theorem closing_stays (hw : w.Holds s) (name : Option String) (spec : Value) {body : Value}
    (hpair : body.isPair = true) (hbody : w.Code body) (hscope : w.shared .scope scope scope) :
    Stays W w s (closing name spec body scope) fun w' v _ => w'.Shared v := by
  refine .bind_reads hw (checks_parameters spec).readOnly fun ⟨params, rest⟩ _ => ?_
  obtain ⟨w', hbecomes, hshared⟩ :=
    hw.newClosure (W := W) (c := ⟨name, params, rest, body, scope⟩) hscope hpair hbody
  exact .of_ok rfl hbecomes hshared

/-- The list after one of the pairs of a form is a body. -/
theorem isPair_cdr {a b : Ref} (h : s.ListAt v (a :: b :: cs)) : (s.cdr a).isPair = true := by
  rw [h.1.2.1]
  rfl

theorem lambda_stays (hw : w.Holds s) (h : w.Spine s v cs) (hscope : w.shared .scope scope scope) :
    Stays W w s (lambda v scope) fun w' v _ => w'.Shared v := by
  by_cases hcs : cs.length < 2
  · exact .of_error hw (run_lambda_misfit h.list hcs scope)
  · obtain ⟨a, b, cs, rfl⟩ := exists_cons_cons hcs
    exact .of_run (run_lambda h.list scope) (closing_stays hw none _ (isPair_cdr h.list)
      (hw.code_cdr (h.cell (by simp))) hscope)

/-- What a definition introduces may be bound. -/
def Definition.Fits (w w' : Realm) (s s' : Store) (cs : List Ref) : Definition → Prop
  | .variable _ cell => w' = w ∧ s' = s ∧ ∃ a, cs = [a, cell] ∧ (s.car a).isPair = false
  | .procedure _ closure => w'.Shared closure

theorem definition_stays (hw : w.Holds s) (h : w.Spine s v cs) (hscope : w.shared .scope scope scope) :
    Stays W w s (definition v scope) fun w' d s' => d.Fits w w' s s' cs := by
  by_cases htarget : ∃ a b more, cs = a :: b :: more ∧ (s.car a).isPair = true
  · obtain ⟨a, b, more, rfl, hpair⟩ := htarget
    cases hcar : s.car a with
    | pair target =>
        refine .of_run (run_definition_procedure h.list hcar scope) ?_
        refine .bind_reads hw (readOnly_bindingName _) fun name _ => ?_
        refine (closing_stays hw (some name) _ (isPair_cdr h.list) (hw.code_cdr (h.cell (by simp)))
          hscope).bind fun w' c s' hbecomes hc => .pure hbecomes.holds hc
    | _ => simp [hcar, Value.isPair] at hpair
  · have hatom : ∀ a b more, cs = a :: b :: more → (s.car a).isPair = false := by
      intro a b more hcs
      rw [Bool.eq_false_iff]
      exact fun hpair => htarget ⟨a, b, more, hcs, hpair⟩
    by_cases htwo : cs.length = 2
    · obtain ⟨a, b, rfl⟩ := List.length_eq_two.1 htwo
      refine .of_run (run_definition_variable h.list (hatom a b [] rfl) scope) ?_
      exact .bind_reads hw (readOnly_bindingName _) fun name _ =>
        .pure hw ⟨rfl, rfl, a, rfl, hatom a b [] rfl⟩
    · exact .of_error hw (run_definition_misfit h.list htwo hatom scope)

theorem run_checkBody_isPair {body : Value} (h : (checkBody body).run s = .ok () s) :
    body.isPair = true := by
  rw [checkBody] at h
  cases body with
  | pair r => rfl
  | nil => simp [Value.isNil, Eval.malformed, Eval.written] at h
  | _ =>
      rw [Eval.run_ask_bind, Store.isList_eq_false (show s.Chain _ [] _ from ⟨rfl, rfl⟩) (by simp)] at h
      simp [Value.isNil, Eval.malformed, Eval.written] at h

theorem run_letBinding_eq_ok {binding : Value} {p : Value × Value}
    (h : (letBinding binding).run s = .ok p s) : s.elements? binding = some [p.1, p.2] := by
  rw [letBinding, Eval.run_ask_bind] at h
  split at h
  · rename_i name value heq
    obtain ⟨rfl, -⟩ := EStateM.Result.ok.inj h
    exact heq
  · simp [Eval.malformed, Eval.written] at h

theorem run_letParts_cases (hw : w.Holds s) (h : w.Spine s v cs) :
    (∃ e, (letParts v).run s = .error e s) ∨ ∃ parts, (letParts v).run s = .ok parts s ∧
      w.Expr s parts.bindings ∧ w.Code parts.body := by
  by_cases hcs : cs.length < 2
  · exact .inl ⟨_, run_letParts_misfit h.list hcs⟩
  · obtain ⟨a, b, more, rfl⟩ := exists_cons_cons hcs
    rw [run_letParts h.list]
    have ha := h.cell (r := a) (by simp)
    have hb := h.cell (r := b) (by simp)
    cases hparts : partsOf s a b more (s.car a) with
    | error fault => exact .inl ⟨_, rfl⟩
    | ok parts =>
        refine .inr ⟨parts, rfl, ?_⟩
        have hcar := hw.expr_car ha
        cases hhead : s.car a with
        | symbol name =>
            rw [hhead, partsOf] at hparts
            split at hparts
            · cases hparts
              exact ⟨.inl (.symbol name), hw.code_cdr ha⟩
            · cases hparts
              exact ⟨hw.expr_car hb, hw.code_cdr hb⟩
        | keyword k =>
            rw [hhead] at hparts
            cases hparts
        | _ =>
            rw [hhead] at hparts hcar
            cases hparts
            exact ⟨hcar, hw.code_cdr ha⟩

theorem expr_of_elements (hw : w.Holds s) (hv : w.Expr s v) {items : List Value}
    (h : s.elements? v = some items) : ∀ x ∈ items, w.Expr s x := by
  rw [Store.elements?] at h
  split at h
  · cases h
    exact hw.elements_expr hv.code
  · cases h

theorem expr_of_bindings (hw : w.Holds s) {items : List Value} (hitems : ∀ x ∈ items, w.Expr s x)
    {bindings : List (Value × Value)} (h : (items.mapM letBinding).run s = .ok bindings s) :
    ∀ p ∈ bindings, w.Expr s p.2 := by
  induction items generalizing bindings with
  | nil =>
      obtain ⟨rfl, -⟩ := EStateM.Result.ok.inj h
      simp
  | cons x items ih =>
      rw [List.mapM_cons] at h
      obtain ⟨p, s₁, hp, h⟩ := Eval.run_bind_eq_ok.1 h
      obtain rfl := (checks_letBinding x).readOnly.eq_of_ok hp
      obtain ⟨ps, s₂, hps, h⟩ := Eval.run_bind_eq_ok.1 h
      obtain ⟨rfl, rfl⟩ := EStateM.Result.ok.inj h
      have hvalue := expr_of_elements hw (hitems x (by simp)) (run_letBinding_eq_ok hp)
      exact List.forall_mem_cons.2 ⟨hvalue p.2 (by simp),
        ih (fun y hy => hitems y (by simp [hy])) hps⟩

theorem letClosure_becomes (hw : w.Holds s) (name : Option String) (params : List String)
    {body : Value} (hpair : body.isPair = true) (hbody : w.Code body)
    (hscope : w.shared .scope scope scope) :
    ∃ w', w.Becomes W s w' (letClosure name params body scope s).2 ∧
      w'.Shared (letClosure name params body scope s).1 ∧
      (letClosure name params body scope s).1.isProcedure = true := by
  cases name with
  | none =>
      obtain ⟨w', hbecomes, hshared⟩ :=
        hw.newClosure (W := W) (c := ⟨none, params, none, body, scope⟩) hscope hpair hbody
      exact ⟨w', hbecomes, hshared, rfl⟩
  | some name =>
      obtain ⟨w', hbecomes, hshared⟩ := hw.newLoop (W := W) hscope name params hpair hbody
      exact ⟨w', hbecomes, hshared, rfl⟩

/-- The application that a `let` stands for is a list of a closure and expressions, in new pairs. -/
theorem run_letApplication_cases (hw : w.Holds s) (h : w.Spine s v cs)
    (hscope : w.shared .scope scope scope) :
    (∃ e, (letApplication v scope).run s = .error e s) ∨
      ∃ w₁ s₁ p vs, w.Becomes W s w₁ s₁ ∧ w₁.Shared p ∧ p.isProcedure = true ∧
        (∀ x ∈ vs, w₁.Expr s₁ x) ∧
        (letApplication v scope).run s = .ok (s₁.list (p :: vs)).1 (s₁.list (p :: vs)).2 := by
  rw [letApplication]
  rcases run_letParts_cases hw h with ⟨e, he⟩ | ⟨parts, hparts, hbindings, hbody⟩
  · exact .inl ⟨e, Eval.run_bind_error he⟩
  rw [Eval.run_bind_ok hparts, Eval.run_ask_bind]
  cases hitems : s.elements? parts.bindings with
  | none => exact .inl ⟨_, rfl⟩
  | some items =>
      rcases (Eval.checks_mapM checks_letBinding items).readOnly s with ⟨bindings, hb⟩ | ⟨e, he⟩
      · simp only [Eval.run_bind_ok hb]
        rcases (checks_checkBody parts.body).readOnly s with ⟨⟨⟩, hcheck⟩ | ⟨e, he⟩
        · rw [Eval.run_bind_ok hcheck]
          rcases (Eval.checks_foldlM (fun params (b : Value × Value) => checks_addParameter params b.1)
            bindings []).readOnly s with ⟨params, hparams⟩ | ⟨e, he⟩
          · obtain ⟨w₁, hbecomes, hshared, hprocedure⟩ := letClosure_becomes (W := W) hw parts.name
              params (run_checkBody_isPair hcheck) hbody hscope
            have hvalues := expr_of_bindings hw (expr_of_elements hw hbindings hitems) hb
            refine .inr ⟨w₁, _, _, bindings.map Prod.snd, hbecomes, hshared, hprocedure, ?_, ?_⟩
            · intro x hx
              obtain ⟨p, hp, rfl⟩ := List.mem_map.1 hx
              exact hbecomes.expr hw (hvalues p hp)
            · rw [Eval.run_bind_ok hparams]
              cases parts.name <;> rfl
          · exact .inl ⟨e, Eval.run_bind_error he⟩
        · exact .inl ⟨e, Eval.run_bind_error he⟩
      · exact .inl ⟨e, Eval.run_bind_error he⟩

theorem clause_cases (hv : w.Expr s v) :
    (∃ e, (clause v).run s = .error e s) ∨ ∃ r, (clause v).run s = .ok r s ∧ v = .pair r ∧
      s.isList v = true ∧ (w.text r ∨ w.shared .pair r r) := by
  rcases (readOnly_clause v) s with ⟨r, hr⟩ | ⟨e, he⟩
  · refine .inr ⟨r, hr, ?_⟩
    cases v with
    | pair q =>
        rw [clause, Eval.run_ask_bind] at hr
        split at hr
        · rename_i hlist
          obtain ⟨rfl, -⟩ := EStateM.Result.ok.inj hr
          exact ⟨rfl, hlist, hv.code.cell⟩
        · cases hr
    | _ => cases hr
  · exact .inl ⟨e, he⟩

theorem quotation_stays (hw : w.Holds s) {r : Ref} (h : w.Spine s (.pair r) (r :: cs))
    (hquotes : w.Quotes s r) (hhead : s.car r = .keyword .quote) :
    Stays W w s (quotation (s.cdr r)) fun w' v _ => w'.Shared v := by
  by_cases hcs : cs.length = 1
  · obtain ⟨c, rfl⟩ := List.length_eq_one_iff.1 hcs
    exact .of_ok (run_quotation h.list.tail) hw.refl (hquotes hhead c h.list.1.2.1)
  · exact .of_error hw (run_quotation_misfit h.list.tail hcs)

theorem run_conditional_cases (h : s.ListAt v cs) :
    (∃ e, (conditional v).run s = .error e s) ∨ ∃ a b more, cs = a :: b :: more ∧
      (conditional v).run s = .ok ⟨a, s.car b, more.head?.map s.car⟩ s := by
  by_cases hcs : cs.length = 2 ∨ cs.length = 3
  · obtain ⟨a, b, more, rfl⟩ := exists_cons_cons (l := cs) (by omega)
    simp only [List.length_cons] at hcs
    exact .inr ⟨a, b, more, rfl, run_conditional h (by omega)⟩
  · rw [not_or] at hcs
    exact .inl ⟨_, run_conditional_misfit h hcs.1 hcs.2⟩

theorem run_assignment_cases (h : s.ListAt v cs) :
    (∃ e, (assignment v).run s = .error e s) ∨ ∃ name a b, cs = [a, b] ∧
      (assignment v).run s = .ok (name, b) s := by
  by_cases hcs : cs.length = 2
  · obtain ⟨a, b, rfl⟩ := List.length_eq_two.1 hcs
    rw [run_assignment h]
    rcases readOnly_bindingName (s.car a) s with ⟨name, hname⟩ | ⟨e, he⟩
    · exact .inr ⟨name, a, b, rfl, Eval.run_bind_ok hname⟩
    · exact .inl ⟨e, Eval.run_bind_error he⟩
  · exact .inl ⟨_, run_assignment_misfit h hcs⟩

end Form

/-! ### Lists that are taken as text -/

namespace Realm

variable {W : Ref → Prop} {w : Realm} {s : Store} {v : Value} {cs : List Ref}

/-- The realm with some more pairs of text. -/
def withText (w : Realm) (cs : List Ref) : Realm := { w with text := fun r => w.text r ∨ r ∈ cs }

/-- A list of expressions that nobody else has may be taken as text. -/
theorem Holds.addText (hw : w.Holds s) (hlist : s.ListAt v cs)
    (hapart : ∀ r ∈ cs, ¬ w.shared .pair r r) (hcars : ∀ r ∈ cs, w.Expr s (s.car r)) :
    w.Becomes (· ∈ cs) s (w.withText cs) s := by
  have hgains : Gains w.shared s s w.shared := ⟨.refl _, fun _ _ _ hr => .inl hr⟩
  have htext : ∀ ⦃r⦄, w.text r → (w.withText cs).text r ∧ s.pair r = s.pair r :=
    fun r hr => ⟨.inl hr, rfl⟩
  have hsealed : ∀ r ∈ cs, (w.withText cs).Sealed s r := by
    intro r hr
    obtain ⟨before, after, rfl⟩ := List.append_of_mem hr
    have hchain := hlist.1.drop
    refine ⟨hlist.2 r hr, hapart r hr, (hcars r hr).advance hw (.refl _) htext, ?_,
      Store.isList_iff.2 ⟨_, hchain⟩⟩
    cases after with
    | nil => exact .inl hchain.2.1
    | cons q after => exact .inr ⟨q, hchain.2.1, .inr (by simp)⟩
  exact ⟨hw.advance hw.similar hw.diagonal hgains (Nat.le_refl _) htext (fun _ _ => rfl)
    (fun r hr => hr.imp_right (hsealed r)) fun _ ha => .inl ha, hgains, htext,
    fun r hr => hr.imp_right .inr, fun _ => Nat.le_refl _, fun _ _ _ _ => rfl, fun _ _ _ => rfl,
    fun _ _ => rfl⟩

theorem Holds.newText (hw : w.Holds s) {vs : List Value} (hvs : ∀ v ∈ vs, w.Expr s v) :
    w.Becomes W s (w.withText (Store.newCells s.pairs.size vs.length)) (s.list vs).2 := by
  have hkept := hw.keeps (W := W) (s.keeps_listWithTail vs .nil)
  refine hkept.trans (hkept.holds.addText (s.listAt_list vs) (fun r hr hshared => ?_) fun r hr => ?_)
    fun r hr => .inr (Store.mem_newCells.1 hr).1
  · exact Nat.not_lt.2 (Store.mem_newCells.1 hr).1 (hw.similar.bound hshared).1
  · have hmem : (s.list vs).2.car r ∈ (Store.newCells s.pairs.size vs.length).map (s.list vs).2.car :=
      List.mem_map_of_mem hr
    rw [s.map_car_list vs] at hmem
    exact hkept.expr hw (hvs _ hmem)

/-- An application in new pairs, of a procedure to expressions. -/
theorem Holds.newApplication (hw : w.Holds s) {p : Value} {vs : List Value} (hp : w.Shared p)
    (hprocedure : p.isProcedure = true) (hvs : ∀ v ∈ vs, w.Expr s v) :
    ∃ w', w.Becomes W s w' (s.list (p :: vs)).2 ∧ w'.Expr (s.list (p :: vs)).2 (s.list (p :: vs)).1 := by
  have hexprs : ∀ v ∈ p :: vs, w.Expr s v := List.forall_mem_cons.2 ⟨.inl hp, hvs⟩
  have hbecomes := hw.newText (W := W) hexprs
  have hlist := s.listAt_list (p :: vs)
  have hcars := s.map_car_list (p :: vs)
  simp only [List.length_cons, Store.newCells] at hlist hcars
  refine ⟨_, hbecomes, .inr ⟨s.pairs.size + vs.length, hlist.1.1, .inr (by simp [Store.newCells]), ?_⟩⟩
  intro hquote
  rw [(List.cons.inj hcars).1] at hquote
  rw [hquote] at hprocedure
  cases hprocedure

end Realm

/-! ### Evaluation by recursion -/

namespace Direct

mutual

theorem eval_stays (n : Nat) (v : Value) {W : Ref → Prop} {w : Realm} {s : Store} {scope : Ref}
    (hw : w.Holds s) (hv : w.Expr s v) (hscope : w.shared .scope scope scope) :
    Stays W w s (eval n v scope) fun w' v _ => w'.Shared v := by
  cases n with
  | zero =>
      unfold eval
      exact .of_error hw rfl
  | succ n =>
      unfold eval
      split
      · exact Eval.lookup_stays hw hscope _
      · exact .raise hw _
      · refine .ask_bind ?_
        split
        · rename_i r hlist
          obtain ⟨cs, hspine⟩ := hw.spine_pair hv.code hlist
          exact evalForm_stays n r hw hspine (hw.quotes hv) hscope
        · rename_i r hlist
          refine .pure hw (hw.shared_of_settled hv ?_)
          rwa [Frame.needsEvaluation, ← Bool.not_eq_true]
      · rename_i hsymbol hkeyword hpair
        refine .pure hw (hw.shared_of_settled hv ?_)
        unfold Frame.needsEvaluation
        split
        · exact absurd rfl (hsymbol _)
        · exact absurd rfl (hkeyword _)
        · exact absurd rfl (hpair _)
        · rfl

theorem evalForm_stays (n : Nat) (r : Ref) {W : Ref → Prop} {w : Realm} {s : Store} {scope : Ref}
    {cs : List Ref} (hw : w.Holds s) (h : w.Spine s (.pair r) (r :: cs)) (hquotes : w.Quotes s r)
    (hscope : w.shared .scope scope scope) :
    Stays W w s (evalForm n r scope) fun w' v _ => w'.Shared v := by
  cases n with
  | zero =>
      unfold evalForm
      exact .of_error hw rfl
  | succ n =>
      unfold evalForm
      refine .ask_bind (.ask_bind ?_)
      have hcode := hw.code_cdr (h.cell (r := r) (by simp))
      have hexpr : ∀ c ∈ cs, w.Expr s (s.car c) :=
        fun c hc => hw.expr_car (h.cell (List.mem_cons_of_mem _ hc))
      split
      · rename_i hhead
        exact Form.quotation_stays hw h hquotes hhead
      · rcases Form.run_conditional_cases h.list.tail with ⟨e, he⟩ | ⟨a, b, more, rfl, hrun⟩
        · exact .bind_error hw he
        refine .bind_ok hrun (.ask_bind ?_)
        refine (eval_stays n _ hw (hexpr a (by simp)) hscope).bind fun w' test s' hbecomes _ => ?_
        have hscope' := hbecomes.gains.le hscope
        split
        · exact eval_stays n _ hbecomes.holds (hbecomes.expr hw (hexpr b (by simp))) hscope'
        · cases more with
          | nil => exact .pure hbecomes.holds .void
          | cons c more =>
              exact eval_stays n _ hbecomes.holds (hbecomes.expr hw (hexpr c (by simp))) hscope'
      · refine (Form.definition_stays hw h.tail hscope).bind fun w' d s' hbecomes hd => ?_
        have hscope' := hbecomes.gains.le hscope
        cases d with
        | procedure name closure => exact Eval.bind_stays hbecomes.holds hscope' name hd
        | «variable» name cell =>
            obtain ⟨rfl, rfl, a, rfl, -⟩ := hd
            refine .ask_bind ((eval_stays n _ hw (hexpr cell (by simp)) hscope).bind
              fun w' v s' hbecomes hv => ?_)
            exact Eval.bind_stays hbecomes.holds (hbecomes.gains.le hscope) name hv
      · rcases Form.run_assignment_cases h.list.tail with ⟨e, he⟩ | ⟨name, a, b, rfl, hrun⟩
        · exact .bind_error hw he
        refine .bind_ok hrun (.ask_bind ((eval_stays n _ hw (hexpr b (by simp)) hscope).bind
          fun w' v s' hbecomes hv => ?_))
        exact Eval.assign_stays hbecomes.holds (hbecomes.gains.le hscope) name hv
      · exact Form.lambda_stays hw h.tail hscope
      · rcases Form.run_letApplication_cases (W := W) hw h.tail hscope with
          ⟨e, he⟩ | ⟨w₁, s₁, p, vs, hbecomes, hp, hprocedure, hvs, hrun⟩
        · exact .bind_error hw he
        obtain ⟨w₂, hbecomes', hform⟩ :=
          hbecomes.holds.newApplication (W := W) hp hprocedure hvs
        have hall := hbecomes.trans hbecomes' fun _ => .inl
        refine Stays.bind (Q := fun w' v s' => w'.Expr s' v) (.of_ok hrun hall hform)
          fun w' v s' hbecomes hv => ?_
        exact eval_stays n v hbecomes.holds hv (hbecomes.gains.le hscope)
      · exact evalClauses_stays n _ hw hcode hscope
      · exact evalAnd_stays n _ _ hw (.bool true) hcode hscope
      · exact evalOr_stays n _ hw hcode hscope
      · exact evalBody_stays n _ _ hw .void hcode hscope
      · exact .raise hw _
      · refine (eval_stays n _ hw (hw.expr_car (h.cell (r := r) (by simp))) hscope).bind
          fun w' p s' hbecomes hp => ?_
        refine (evalEach_stays n _ hbecomes.holds (hbecomes.code hcode)
          (hbecomes.gains.le hscope)).bind fun w'' args s'' hbecomes' hargs => ?_
        exact apply_stays n p args hbecomes'.holds (hbecomes'.shared hp) hargs

theorem evalEach_stays (n : Nat) (list : Value) {W : Ref → Prop} {w : Realm} {s : Store} {scope : Ref}
    (hw : w.Holds s) (hlist : w.Code list) (hscope : w.shared .scope scope scope) :
    Stays W w s (evalEach n list scope) fun w' vs _ => ∀ v ∈ vs, w'.Shared v := by
  cases n with
  | zero =>
      unfold evalEach
      exact .of_error hw rfl
  | succ n =>
      unfold evalEach
      split
      · rename_i r
        refine .ask_bind (.ask_bind ((eval_stays n _ hw (hw.expr_car hlist.cell) hscope).bind
          fun w' v s' hbecomes hv => ?_))
        refine (evalEach_stays n _ hbecomes.holds (hbecomes.code (hw.code_cdr hlist.cell))
          (hbecomes.gains.le hscope)).bind fun w'' vs s'' hbecomes' hvs => ?_
        exact .pure hbecomes'.holds (List.forall_mem_cons.2 ⟨hbecomes'.shared hv, hvs⟩)
      · exact .pure hw (by simp)

theorem evalBody_stays (n : Nat) (last body : Value) {W : Ref → Prop} {w : Realm} {s : Store}
    {scope : Ref} (hw : w.Holds s) (hlast : w.Shared last) (hbody : w.Code body)
    (hscope : w.shared .scope scope scope) :
    Stays W w s (evalBody n last body scope) fun w' v _ => w'.Shared v := by
  cases n with
  | zero =>
      unfold evalBody
      exact .of_error hw rfl
  | succ n =>
      unfold evalBody
      split
      · refine .ask_bind (.ask_bind ((eval_stays n _ hw (hw.expr_car hbody.cell) hscope).bind
          fun w' v s' hbecomes hv => ?_))
        exact evalBody_stays n _ _ hbecomes.holds hv (hbecomes.code (hw.code_cdr hbody.cell))
          (hbecomes.gains.le hscope)
      · exact .pure hw hlast

theorem evalClauses_stays (n : Nat) (clauses : Value) {W : Ref → Prop} {w : Realm} {s : Store}
    {scope : Ref} (hw : w.Holds s) (hclauses : w.Code clauses) (hscope : w.shared .scope scope scope) :
    Stays W w s (evalClauses n clauses scope) fun w' v _ => w'.Shared v := by
  cases n with
  | zero =>
      unfold evalClauses
      exact .of_error hw rfl
  | succ n =>
      unfold evalClauses
      split
      · rename_i r
        refine .ask_bind (.ask_bind ?_)
        rcases Form.clause_cases (hw.expr_car hclauses.cell) with ⟨e, he⟩ | ⟨q, hrun, -, -, hq⟩
        · exact .bind_error hw he
        refine .bind_ok hrun (.ask_bind ?_)
        -- The rest is told once: a test that is `else` comes to the same as one that is true.
        have hrest : ∀ w' test s', w.Becomes W s w' s' → w'.Shared test → Stays W w' s' (do
            if test.isTrue then
              let body ← Eval.ask fun s => s.cdr q
              if body.isNil then return test else evalBody n .void body scope
            else evalClauses n (s.cdr r) scope) fun w' v _ => w'.Shared v := by
          intro w' test s' hbecomes hv
          have hscope' := hbecomes.gains.le hscope
          have hcell : w'.text q ∨ w'.shared .pair q q :=
            hq.imp (fun h => (hbecomes.text h).1) fun h => hbecomes.gains.le h
          split
          · refine .ask_bind ?_
            split
            · exact .pure hbecomes.holds hv
            · exact evalBody_stays n _ _ hbecomes.holds .void (hbecomes.holds.code_cdr hcell) hscope'
          · exact evalClauses_stays n _ hbecomes.holds
              (hbecomes.code (hw.code_cdr hclauses.cell)) hscope'
        simp only
        split
        · exact hrest w (.bool true) s hw.refl (.bool true)
        · exact (eval_stays n _ hw (hw.expr_car hq) hscope).bind hrest
      · exact .pure hw (.bool false)

theorem evalAnd_stays (n : Nat) (last operands : Value) {W : Ref → Prop} {w : Realm} {s : Store}
    {scope : Ref} (hw : w.Holds s) (hlast : w.Shared last) (hoperands : w.Code operands)
    (hscope : w.shared .scope scope scope) :
    Stays W w s (evalAnd n last operands scope) fun w' v _ => w'.Shared v := by
  cases n with
  | zero =>
      unfold evalAnd
      exact .of_error hw rfl
  | succ n =>
      unfold evalAnd
      split
      · refine .ask_bind (.ask_bind ((eval_stays n _ hw (hw.expr_car hoperands.cell) hscope).bind
          fun w' v s' hbecomes hv => ?_))
        split
        · exact evalAnd_stays n _ _ hbecomes.holds hv (hbecomes.code (hw.code_cdr hoperands.cell))
            (hbecomes.gains.le hscope)
        · exact .pure hbecomes.holds (.bool false)
      · exact .pure hw hlast

theorem evalOr_stays (n : Nat) (operands : Value) {W : Ref → Prop} {w : Realm} {s : Store}
    {scope : Ref} (hw : w.Holds s) (hoperands : w.Code operands)
    (hscope : w.shared .scope scope scope) :
    Stays W w s (evalOr n operands scope) fun w' v _ => w'.Shared v := by
  cases n with
  | zero =>
      unfold evalOr
      exact .of_error hw rfl
  | succ n =>
      unfold evalOr
      split
      · refine .ask_bind (.ask_bind ((eval_stays n _ hw (hw.expr_car hoperands.cell) hscope).bind
          fun w' v s' hbecomes hv => ?_))
        split
        · exact .pure hbecomes.holds hv
        · exact evalOr_stays n _ hbecomes.holds (hbecomes.code (hw.code_cdr hoperands.cell))
            (hbecomes.gains.le hscope)
      · exact .pure hw (.bool false)

theorem apply_stays (n : Nat) (procedure : Value) (args : List Value) {W : Ref → Prop} {w : Realm}
    {s : Store} (hw : w.Holds s) (hprocedure : w.Shared procedure) (hargs : ∀ v ∈ args, w.Shared v) :
    Stays W w s (apply n procedure args) fun w' v _ => w'.Shared v := by
  cases n with
  | zero =>
      unfold apply
      exact .of_error hw rfl
  | succ n =>
      unfold apply
      split
      · refine (Native.call_stays hw hargs).bind fun w' reply s' hbecomes hreply => ?_
        cases reply with
        | value v => exact .pure hbecomes.holds hreply
        | call p vs =>
            refine (Eval.callForm_stays hbecomes.holds hreply.1 hreply.2).bind
              fun w₁ form s₁ hbecomes₁ hform => ?_
            refine (Eval.newRoot_stays hbecomes₁.holds).bind fun w₂ root s₂ hbecomes₂ hroot => ?_
            exact eval_stays n form hbecomes₂.holds (.inl (hbecomes₂.shared hform)) hroot
      · rename_i r
        have hr : w.shared .closure r r := by
          cases hprocedure with
          | closure hr => exact hr
        refine (Eval.enterCall_stays hw hr hargs).bind fun w' scope s' hbecomes hscope => ?_
        exact .ask_bind (evalBody_stays n _ _ hbecomes.holds .void
          (hbecomes.holds.body (hbecomes.gains.le hr)).2 hscope)
      · exact .of_error hw rfl

end

end Direct
end LittleScheme
