import LittleScheme.Proofs.Ownership

/-!
# Computations that leave older pairs alone

A computation is guarded when it keeps the sorts of pairs apart and changes none of the pairs from
before the evaluation, exceptions apart. Every step of a frame is guarded, given that the frame's own
pairs may be written to.
-/
namespace LittleScheme

open Value (Related)

/-- The first `N` pairs are the same in two stores, exceptions apart. -/
def Store.Spares (N : Nat) (W : Ref → Prop) (s s' : Store) : Prop :=
  ∀ r < N, ¬ W r → s'.pair r = s.pair r

section

variable {N : Nat} {W : Ref → Prop} {s s' s'' : Store}

theorem Store.Spares.refl (s : Store) : s.Spares N W s := fun _ _ _ => rfl

theorem Store.Spares.trans (h : s.Spares N W s') (h' : s'.Spares N W s'') : s.Spares N W s'' :=
  fun r hr hW => (h' r hr hW).trans (h r hr hW)

theorem Store.Spares.mono {W' : Ref → Prop} (h : s.Spares N W s') (hW : ∀ r, W r → W' r) :
    s.Spares N W' s' := fun r hr hr' => h r hr fun hw => hr' (hW r hw)

theorem Store.spares_of_keeps (hsize : N ≤ s.pairs.size)
    (hpair : ∀ r < s.pairs.size, s'.pair r = s.pair r) : s.Spares N W s' :=
  fun r hr _ => hpair r (Nat.lt_of_lt_of_le hr hsize)

theorem Store.spares_setCar {r : Ref} (hr : N ≤ r ∨ W r) (v : Value) :
    s.Spares N W (s.setCar r v) := by
  intro q hq hW
  refine Store.pair_setCar_ne ?_ v
  rintro rfl
  exact hr.elim (fun h => Nat.not_lt.2 h hq) hW

theorem Store.spares_setCdr {r : Ref} (hr : N ≤ r ∨ W r) (v : Value) :
    s.Spares N W (s.setCdr r v) := by
  intro q hq hW
  refine Store.pair_setCdr_ne ?_ v
  rintro rfl
  exact hr.elim (fun h => Nat.not_lt.2 h hq) hW

end

/-- The computation keeps the sorts of pairs apart and spares the first `N` pairs. -/
def Guarded {α : Type} (N : Nat) (W : Ref → Prop) (w : Ownership) (s : Store) (x : Eval α)
    (Q : Ownership → α → Store → Prop) : Prop :=
  match x.run s with
  | .ok a s' => ∃ w', w.Le w' ∧ w'.Holds N s' ∧ s.Spares N W s' ∧ Q w' a s'
  | .error _ s' => s.Spares N W s'

namespace Guarded

variable {α β : Type} {N : Nat} {W : Ref → Prop} {w : Ownership} {s : Store}
  {Q : Ownership → α → Store → Prop} {R : Ownership → β → Store → Prop}

theorem of_run {x y : Eval α} (hrun : x.run s = y.run s) (h : Guarded N W w s y Q) :
    Guarded N W w s x Q := by
  rwa [Guarded, hrun]

theorem of_ok {x : Eval α} {a : α} {s' : Store} {w' : Ownership} (hrun : x.run s = .ok a s')
    (hle : w.Le w') (hw : w'.Holds N s') (hspares : s.Spares N W s') (hq : Q w' a s') :
    Guarded N W w s x Q := by
  rw [Guarded, hrun]
  exact ⟨w', hle, hw, hspares, hq⟩

theorem of_error {x : Eval α} {e : Stop} (hrun : x.run s = .error e s) : Guarded N W w s x Q := by
  rw [Guarded, hrun]
  exact .refl s

theorem pure {a : α} (hw : w.Holds N s) (hq : Q w a s) : Guarded N W w s (Pure.pure a) Q :=
  of_ok rfl (.refl w) hw (.refl s) hq

theorem raise (e : Error) : Guarded N W w s (Eval.raise e : Eval α) Q := of_error rfl

theorem bind {x : Eval α} {f : α → Eval β} (hx : Guarded N W w s x Q)
    (hf : ∀ w' a s', w.Le w' → w'.Holds N s' → Q w' a s' → Guarded N W w' s' (f a) R) :
    Guarded N W w s (x >>= f) R := by
  rw [Guarded] at hx
  cases hrun : x.run s with
  | ok a s' =>
      rw [hrun] at hx
      obtain ⟨w', hle, hw', hspares, hq⟩ := hx
      have hfa := hf w' a s' hle hw' hq
      rw [Guarded] at hfa
      rw [Guarded, Eval.run_bind_ok hrun]
      cases hrun' : (f a).run s' with
      | ok b s'' =>
          rw [hrun'] at hfa
          obtain ⟨w'', hle', hw'', hspares', hr⟩ := hfa
          exact ⟨w'', hle.trans hle', hw'', hspares.trans hspares', hr⟩
      | error e s'' =>
          rw [hrun'] at hfa
          exact hspares.trans hfa
  | error e s' =>
      rw [hrun] at hx
      rw [Guarded, Eval.run_bind_error hrun]
      exact hx

theorem bind_ok {x : Eval α} {f : α → Eval β} {a : α} (hx : x.run s = .ok a s)
    (hf : Guarded N W w s (f a) R) : Guarded N W w s (x >>= f) R :=
  of_run (Eval.run_bind_ok hx) hf

theorem bind_error {x : Eval α} {f : α → Eval β} {e : Stop} (hx : x.run s = .error e s) :
    Guarded N W w s (x >>= f) R := of_error (Eval.run_bind_error hx)

theorem ask_bind {g : Store → α} {f : α → Eval β} (hf : Guarded N W w s (f (g s)) R) :
    Guarded N W w s (Eval.ask g >>= f) R := hf

theorem bind_reads {x : Eval α} {f : α → Eval β} {P : α → Prop}
    (hx : Guarded N W w s x fun w' a s' => w' = w ∧ s' = s ∧ P a)
    (hf : ∀ a, P a → Guarded N W w s (f a) R) : Guarded N W w s (x >>= f) R := by
  refine hx.bind fun w' a s' _ _ h => ?_
  obtain ⟨hw, hs, ha⟩ := h
  subst hw hs
  exact hf a ha

theorem update_bind {g : Store → Store} {f : Unit → Eval β} (hw : w.Holds N (g s))
    (hspares : s.Spares N W (g s)) (hf : Guarded N W w (g s) (f ()) R) :
    Guarded N W w s (Eval.update g >>= f) R := by
  refine (of_ok (Q := fun w' _ s' => w' = w ∧ s' = g s) (Eval.run_update g s) (.refl w) hw hspares
    ⟨rfl, rfl⟩).bind ?_
  intro w' _ s' _ _ h
  obtain ⟨hw, hs⟩ := h
  subst hw hs
  exact hf

theorem mono {Q' : Ownership → α → Store → Prop} {x : Eval α} (hx : Guarded N W w s x Q)
    (h : ∀ w' a s', Q w' a s' → Q' w' a s') : Guarded N W w s x Q' := by
  rw [Guarded] at hx ⊢
  cases hrun : x.run s with
  | ok a s' =>
      rw [hrun] at hx
      obtain ⟨w', hle, hw', hspares, hq⟩ := hx
      exact ⟨w', hle, hw', hspares, h w' a s' hq⟩
  | error e s' =>
      rw [hrun] at hx
      exact hx

theorem ask {f : Store → α} (hw : w.Holds N s) (hq : Q w (f s) s) : Guarded N W w s (Eval.ask f) Q :=
  of_ok rfl (.refl w) hw (.refl s) hq

theorem readOnly {x : Eval α} (hw : w.Holds N s) (hx : Eval.ReadOnly x)
    (hq : ∀ a, x.run s = .ok a s → Q w a s) : Guarded N W w s x Q := by
  rcases hx s with ⟨a, ha⟩ | ⟨e, he⟩
  · exact of_ok ha (.refl w) hw (.refl s) (hq a ha)
  · exact of_error he

/-- What two similar stores cannot tell apart reads and changes shared objects only. -/
theorem agree {x : Eval α} {R : Renaming → α → α → Prop} (hw : w.Holds N s)
    (hx : Agree w.shared x x R)
    (hq : ∀ ρ' a s', R ρ' a a → Q (w.withShared ρ'.fixed) a s') : Guarded N W w s x Q := by
  have hxx := hx s s hw.similar
  rw [Guarded]
  cases hrun : x.run s with
  | ok a s' =>
      rw [hrun] at hxx
      obtain ⟨ρ', hlater, hs', hr⟩ := hxx
      exact ⟨w.withShared ρ'.fixed, hw.le_fixed hlater.le, hw.later hlater hs',
        Store.spares_of_keeps hw.size hlater.left.pair, hq ρ' a s' hr⟩
  | error e s' =>
      rw [hrun] at hxx
      obtain ⟨-, ρ', hlater, -⟩ := hxx
      exact Store.spares_of_keeps hw.size hlater.left.pair

theorem agree_shared {x : Eval Value} (hw : w.Holds N s)
    (hx : Agree w.shared x x fun ρ' => Related ρ') :
    Guarded N W w s x fun w' v _ => w'.Shared v :=
  agree hw hx fun _ _ _ hv => hv.fixed

end Guarded

/-! ### Copies -/

/-- A pair that may be written to: a new one, or an exception. -/
def Writable (N : Nat) (W : Ref → Prop) (c : Ref) : Prop := N ≤ c ∨ W c

namespace Ownership

/-- An expression that has just been copied, if there was anything to copy. -/
def Fresh (w : Ownership) (s : Store) (v : Value) : Prop :=
  w.Owned v ∨ w.Shared v ∧ (v.isPair = true → s.isList v = false)

variable {N : Nat} {W : Ref → Prop} {w : Ownership} {s : Store} {v : Value}

theorem Fresh.code (h : w.Fresh s v) : w.Code v := h.imp_right And.left

/-- More objects do not make a list of what was none. -/
theorem Fresh.mono {w' : Ownership} {s' : Store} (h : w.Fresh s v) (hw : w.Holds N s)
    (hkeeps : s.Keeps s') (hle : w.Le w') (hconsole : s'.console = s.console) : w'.Fresh s' v := by
  rcases h with howned | ⟨hshared, hlist⟩
  · exact .inl (howned.mono hle)
  · refine .inr ⟨hshared.mono hle, fun hpair => ?_⟩
    rw [← (hw.similar_keeps hkeeps hconsole).isList_eq hshared]
    exact hlist hpair

theorem Holds.copySpine (hw : w.Holds N s) (hv : w.Shared v) :
    ∃ w', w.Le w' ∧ w'.Holds N (s.copySpine v).2 ∧ w'.Fresh (s.copySpine v).2 (s.copySpine v).1 ∧
      s.Keeps (s.copySpine v).2 ∧ (s.copySpine v).2.console = s.console := by
  cases v with
  | pair r =>
      rw [Store.copySpine]
      cases hl : s.isList (.pair r) with
      | false =>
          rw [Store.elements?_of_not_isList hl]
          exact ⟨w, .refl w, hw, .inr ⟨hv, fun _ => hl⟩, .refl s, rfl⟩
      | true =>
          obtain ⟨cs, hspine, -⟩ := hw.spine (.inr hv) hl
          rw [hspine.list.elements?_eq]
          have hitems : ∀ x ∈ cs.map s.car, w.Shared x := by
            intro x hx
            obtain ⟨c, hc, rfl⟩ := List.mem_map.1 hx
            exact hw.cell_car (hspine.cell hc)
          refine ⟨_, w.le_take s _, hw.list hitems, .inl ?_, s.keeps_listWithTail _ _, ?_⟩
          · cases cs with
            | nil => exact absurd hspine.list.1.1 (by simp)
            | cons c cs =>
                refine ⟨_, Store.fst_listWithTail_cons _ _ _, .inr ?_⟩
                rw [Store.size_list, List.map_cons, List.length_cons]
                lia
          · change (s.list (cs.map s.car)).2.console = s.console
            rw [Store.list, Store.listWithTail_eq]
  | _ => exact ⟨w, .refl w, hw, .inr ⟨hv, fun hpair => absurd hpair Bool.false_ne_true⟩, .refl s, rfl⟩

end Ownership

/-! ### Frames -/

namespace Frame

open Ownership

/-- The frame evaluates an expression in a shared scope and writes its value where it may. -/
structure Owned (N : Nat) (W : Ref → Prop) (w : Ownership) (f : Frame) : Prop where
  scope : w.shared .scope f.scope f.scope
  expr : w.Code f.expr
  destination : ∀ c, f.destination = some c → Writable N W c

theorem Owned.mono {N : Nat} {W W' : Ref → Prop} {w w' : Ownership} {f : Frame} (h : f.Owned N W w)
    (hle : w.Le w') (hW : ∀ r, W r → W' r) : f.Owned N W' w' where
  scope := hle.shared h.scope
  expr := h.expr.mono hle
  destination c hc := (h.destination c hc).imp_right (hW c)

/-- A frame that has just been made. -/
def Made (N : Nat) (W : Ref → Prop) (w : Ownership) (s : Store) (f : Frame) : Prop :=
  f.Owned N W w ∧ w.Fresh s f.expr

/-- What a guarded step of a frame leads to. -/
def Transition.Owned (N : Nat) (W : Ref → Prop) (f : Frame) (w : Ownership) (s : Store) :
    Transition → Prop
  | .value v => w.Shared v
  | .suspend g above => g.Owned N W w ∧ (g.expr = f.expr ∨ w.Fresh s g.expr) ∧
      ∀ a ∈ above, a.Made N W w s
  | .replace frames => ∀ a ∈ frames, a.Made N W w s
  | .call procedure args => w.Shared procedure ∧ ∀ v ∈ args, w.Shared v

variable {N : Nat} {W : Ref → Prop} {w : Ownership} {s : Store} {f : Frame} {v : Value}

theorem new_guarded (hw : w.Holds N s) (hv : w.Shared v) {scope : Ref} {d : Option Ref}
    (hscope : w.shared .scope scope scope) (hd : ∀ c, d = some c → Writable N W c) :
    Guarded N W w s (new v scope d) fun w' g s' =>
      s.Keeps s' ∧ s'.console = s.console ∧ g.Made N W w' s' := by
  obtain ⟨w', hle, hw', hfresh, hkeeps, hconsole⟩ := hw.copySpine hv
  exact .of_ok rfl hle hw' (Store.spares_of_keeps hw.size (hkeeps.same .pair))
    ⟨hkeeps, hconsole, ⟨hle.shared hscope, hfresh.code, hd⟩, hfresh⟩

/-- Frames made one after the other. -/
theorem mapM_guarded {α : Type} {make : α → Eval Frame} {items : List α} (hw : w.Holds N s)
    (hmake : ∀ a ∈ items, ∀ w' s', w.Le w' → w'.Holds N s' → Guarded N W w' s' (make a)
      fun w'' g s'' => s'.Keeps s'' ∧ s''.console = s'.console ∧ g.Made N W w'' s'') :
    Guarded N W w s (items.mapM make) fun w' gs s' =>
      s.Keeps s' ∧ s'.console = s.console ∧ ∀ g ∈ gs, g.Made N W w' s' := by
  induction items generalizing w s with
  | nil => exact .pure hw ⟨.refl s, rfl, by simp⟩
  | cons a items ih =>
      rw [List.mapM_cons]
      refine (hmake a (by simp) w s (.refl w) hw).bind fun w₁ g s₁ hle₁ hw₁ hg => ?_
      obtain ⟨hkeeps₁, hconsole₁, hg⟩ := hg
      have hrest := ih hw₁ fun b hb w' s' hle => hmake b (by simp [hb]) w' s' (hle₁.trans hle)
      refine hrest.bind fun w₂ gs s₂ hle₂ hw₂ hgs => .pure hw₂ ?_
      obtain ⟨hkeeps₂, hconsole₂, hgs⟩ := hgs
      refine ⟨hkeeps₁.trans hkeeps₂, hconsole₂.trans hconsole₁, fun b hb => ?_⟩
      rcases List.mem_cons.1 hb with rfl | hb
      · exact ⟨hg.1.mono hle₂ fun _ h => h, hg.2.mono hw₁ hkeeps₂ hle₂ hconsole₂⟩
      · exact hgs b hb

theorem ofBody_guarded (hw : w.Holds N s) (hv : w.Code v) {scope : Ref} {d : Option Ref}
    (hscope : w.shared .scope scope scope) (hd : ∀ c, d = some c → Writable N W c) :
    Guarded N W w s (ofBody v scope d) fun w' gs s' => ∀ g ∈ gs, g.Made N W w' s' := by
  refine .of_run (y := (s.elements v).mapM fun expr => new expr scope d) rfl ?_
  refine (mapM_guarded hw fun x hx w' s' hle hw' => ?_).mono fun _ _ _ h => h.2.2
  exact new_guarded hw' ((hw.elements_shared hv x hx).mono hle) (hle.shared hscope) hd

theorem goOn_guarded (hw : w.Holds N s) (hf : f.Owned N W w) (hv : w.Shared v) :
    Guarded N W w s (goOn f v) fun w' t s' => t.Owned N W f w' s' := by
  obtain ⟨w', hle, hw', hfresh, hkeeps, -⟩ := hw.copySpine hv
  refine .of_ok (run_goOn f v s) hle hw' (Store.spares_of_keeps hw.size (hkeeps.same .pair)) ?_
  exact ⟨⟨hle.shared hf.scope, hfresh.code, hf.destination⟩, .inr hfresh, by simp⟩

theorem await_guarded (hw : w.Holds N s) (hf : f.Owned N W w) (hv : w.Shared v) {c : Ref}
    (hc : Writable N W c) :
    Guarded N W w s (await f v c) fun w' t s' => t.Owned N W f w' s' := by
  refine (new_guarded hw hv hf.scope fun _ h => ?_).bind fun w' g s' hle hw' hg => .pure hw' ?_
  · cases h
    exact hc
  · refine ⟨?_, .inl rfl, by simpa using hg.2.2⟩
    exact ⟨hle.shared hf.scope, hf.expr.mono hle, hf.destination⟩

/-! ### Forms -/

/-- The frame evaluates a form that is held in pairs it may write to. -/
structure Formed (N : Nat) (W : Ref → Prop) (w : Ownership) (s : Store) (f : Frame) (form : Ref)
    (cs : List Ref) : Prop where
  holds : w.Holds N s
  owned : f.Owned N W w
  spine : w.Spine s (.pair form) (form :: cs)
  write : ∀ c ∈ form :: cs, Writable N W c

section forms

variable {form : Ref} {cs : List Ref}

theorem Formed.operands (h : Formed N W w s f form cs) : w.Spine s (s.cdr form) cs := h.spine.tail

theorem Formed.car (h : Formed N W w s f form cs) {c : Ref} (hc : c ∈ cs) : w.Shared (s.car c) :=
  h.holds.cell_car (h.operands.cell hc)

theorem stepConditional_guarded (h : Formed N W w s f form cs) :
    Guarded N W w s (stepConditional f (s.cdr form)) fun w' t s' => t.Owned N W f w' s' := by
  have htest : ∀ c ∈ cs, Guarded N W w s (await f (s.car c) c) fun w' t s' => t.Owned N W f w' s' :=
    fun c hc => await_guarded h.holds h.owned (h.car hc) (h.write c (by simp [hc]))
  by_cases htwo : cs.length = 2
  · obtain ⟨a, b, rfl⟩ := List.length_eq_two.1 htwo
    refine .bind_ok (Form.run_conditional h.operands.list (by simp)) (.ask_bind ?_)
    cases f.pushed with
    | false => exact htest a (by simp)
    | true =>
        cases (s.car a).isTrue with
        | true => exact goOn_guarded h.holds h.owned (h.car (by simp))
        | false => exact .pure h.holds .void
  · by_cases hthree : cs.length = 3
    · obtain ⟨a, b, c, rfl⟩ := List.length_eq_three.1 hthree
      refine .bind_ok (Form.run_conditional h.operands.list (by simp)) (.ask_bind ?_)
      cases f.pushed with
      | false => exact htest a (by simp)
      | true =>
          cases (s.car a).isTrue with
          | true => exact goOn_guarded h.holds h.owned (h.car (by simp))
          | false => exact goOn_guarded h.holds h.owned (h.car (by simp))
    · exact .bind_error (Form.run_conditional_misfit h.operands.list htwo hthree)

theorem stepAssignment_guarded (h : Formed N W w s f form cs) :
    Guarded N W w s (stepAssignment f (s.cdr form)) fun w' t s' => t.Owned N W f w' s' := by
  by_cases htwo : cs.length = 2
  · obtain ⟨a, b, rfl⟩ := List.length_eq_two.1 htwo
    have hrun := Form.run_assignment h.operands.list
    rcases Form.readOnly_bindingName (s.car a) s with ⟨name, hname⟩ | ⟨e, he⟩
    · refine .bind_ok (a := (name, b)) (hrun.trans (Eval.run_bind_ok hname)) (.ask_bind ?_)
      cases f.pushed with
      | false => exact await_guarded h.holds h.owned (h.car (by simp)) (h.write _ (by simp))
      | true =>
          refine (Guarded.agree_shared h.holds
            (Eval.assign_agree h.owned.scope name (h.car (c := b) (by simp)))).bind ?_
          exact fun w' v s' _ hw' hv => .pure hw' hv
    · exact .bind_error (hrun.trans (Eval.run_bind_error he))
  · exact .bind_error (Form.run_assignment_misfit h.operands.list htwo)

/-- A closure whose body is what is left of a form. -/
theorem Formed.closureMade (h : Formed N W w s f form cs) {ρ' : Renaming} {s' : Store} {p : Value}
    (hmade : ClosureMade w.shared s s cs cs ρ' s' s' p p) :
    w.Le (w.withShared ρ'.fixed) ∧ (w.withShared ρ'.fixed).Holds N s' ∧
      (w.withShared ρ'.fixed).Shared p := by
  have hle : w.Le (w.withShared ρ'.fixed) := h.holds.le_fixed hmade.gains.le
  refine ⟨hle, h.holds.extend (hmade.left.count .pair) (hmade.left.same .pair)
    (hmade.left.same .closure) (h.holds.gains_fixed hmade.gains) hmade.similar.fixed
    (fun _ _ _ hr => hr.1) (fun _ hr => hr) rfl (fun _ hr => .inl hr) fun a ha => ?_,
    hmade.related.fixed⟩
  rcases hmade.bodies ha.2 with hold | ⟨cs', _, hne, hsuffix, -, hbody⟩
  · exact .inl hold
  · exact .inr ((h.operands.code_of_suffix hne hsuffix hbody.left).mono hle)

theorem Formed.spares_closureMade (h : Formed N W w s f form cs) {ρ' : Renaming} {s' : Store}
    {p : Value} (hmade : ClosureMade w.shared s s cs cs ρ' s' s' p p) : s.Spares N W s' :=
  Store.spares_of_keeps h.holds.size (hmade.left.same .pair)

theorem stepDefinition_guarded (h : Formed N W w s f form cs) :
    Guarded N W w s (stepDefinition f (s.cdr form)) fun w' t s' => t.Owned N W f w' s' := by
  rcases Form.definition_defines h.holds.similar (h.operands.listed h.holds) h.owned.scope with
    ⟨name, a, b, _, _, rfl, hds, -, hrun, hrun'⟩ | ⟨name, ρ', s₁, s₂, p, q, hmade, hrun, hrun'⟩ |
    ⟨e, hrun, -⟩
  · refine .bind_ok hrun (.ask_bind ?_)
    cases f.pushed with
    | false => exact await_guarded h.holds h.owned (h.car (by simp)) (h.write _ (by simp))
    | true =>
        refine (Guarded.agree_shared h.holds
          (Eval.bind_agree h.owned.scope name (h.car (c := b) (by simp)))).bind ?_
        exact fun w' v s' _ hw' hv => .pure hw' hv
  · obtain ⟨hp, rfl⟩ := EStateM.Result.ok.inj (hrun.symm.trans hrun')
    cases hp
    obtain ⟨hle, hw', hshared⟩ := h.closureMade hmade
    refine .bind (Q := fun w' d s' => w'.shared .scope f.scope f.scope ∧
      ∃ c, d = .procedure name c ∧ w'.Shared c)
      (.of_ok hrun hle hw' (h.spares_closureMade hmade) ⟨hle.shared h.owned.scope, p, rfl, hshared⟩)
      fun w' d s' _ hw' hd => ?_
    obtain ⟨hscope, c, rfl, hc⟩ := hd
    refine (Guarded.agree_shared hw' (Eval.bind_agree hscope name hc)).bind ?_
    exact fun w' v s' _ hw' hv => .pure hw' hv
  · exact .bind_error hrun

theorem lambda_guarded (h : Formed N W w s f form cs) :
    Guarded N W w s (Form.lambda (s.cdr form) f.scope) fun w' v _ => w'.Shared v := by
  rcases Form.lambda_makesClosure h.holds.similar (h.operands.listed h.holds) h.owned.scope with
    ⟨ρ', s₁, s₂, p, q, hmade, hrun, hrun'⟩ | ⟨e, hrun, -⟩
  · obtain ⟨rfl, rfl⟩ := EStateM.Result.ok.inj (hrun.symm.trans hrun')
    obtain ⟨hle, hw', hshared⟩ := h.closureMade hmade
    exact .of_ok hrun hle hw' (h.spares_closureMade hmade) hshared
  · exact .of_error hrun

theorem quotation_guarded (h : Formed N W w s f form cs) :
    Guarded N W w s (Form.quotation (s.cdr form)) fun w' v _ => w'.Shared v := by
  by_cases hone : cs.length = 1
  · obtain ⟨c, rfl⟩ := List.length_eq_one_iff.1 hone
    exact .of_ok (Form.run_quotation h.operands.list) (.refl w) h.holds (.refl s) (h.car (by simp))
  · exact .of_error (Form.run_quotation_misfit h.operands.list hone)

/-- The application that a `let` stands for is a list in new pairs. -/
theorem let_guarded (h : Formed N W w s f form cs) :
    Guarded N W w s (Form.letApplication (s.cdr form) f.scope) fun w' v _ => w'.Owned v := by
  rcases Form.letApplication_appliesLet h.holds.similar (h.operands.listed h.holds) h.owned.scope with
    ⟨ρ', s₁, s₂, p, q, cb, vs, ws, hmade, -, -, -, hvalues, hrun, hrun'⟩ | ⟨e, hrun, -⟩
  · obtain ⟨hv, hs⟩ := EStateM.Result.ok.inj (hrun.symm.trans hrun')
    obtain ⟨rfl, hitems⟩ := Store.list_inj (hmade.leftPairs.trans hmade.rightPairs.symm) hs
    obtain ⟨rfl, rfl⟩ := List.cons.inj hitems
    obtain ⟨hle, hw', hshared⟩ := h.closureMade hmade
    have hall : ∀ v ∈ p :: vs, (w.withShared ρ'.fixed).Shared v := by
      intro v hv
      rcases List.mem_cons.1 hv with rfl | hv
      · exact hshared
      · exact Ownership.Shared.mono (List.forall₂_same.1 hvalues v hv) hle
    refine .of_ok hrun (hle.trans (le_take _ _ _)) (hw'.list hall) ?_ ?_
    · refine Store.spares_of_keeps h.holds.size fun r hr => ?_
      have hr' : r < s₁.pairs.size := by rwa [hmade.leftPairs]
      rw [Store.pair_list_of_lt _ hr', hmade.left.same .pair r hr]
    · refine ⟨_, Store.fst_listWithTail_cons _ _ _, .inr ?_⟩
      rw [Store.size_list, List.length_cons]
      lia
  · exact .of_error hrun

theorem settledValue_guarded (hw : w.Holds N s) (hv : w.Shared v) {scope : Ref}
    (hscope : w.shared .scope scope scope) (arrived : Bool) :
    Guarded N W w s (settledValue arrived v scope) fun w' x s' =>
      w' = w ∧ s' = s ∧ ∀ y, x = some y → w.Shared y := by
  cases arrived with
  | true => exact .pure hw ⟨rfl, rfl, by simpa using hv⟩
  | false =>
      have hself : Guarded N W w s (do
          if ← Eval.ask fun s => needsEvaluation s v then return none else return some v)
          fun w' x s' => w' = w ∧ s' = s ∧ ∀ y, x = some y → w.Shared y := by
        refine .ask_bind ?_
        split
        · exact .pure hw ⟨rfl, rfl, (by simp)⟩
        · exact .pure hw ⟨rfl, rfl, by simpa using hv⟩
      cases v with
      | symbol name =>
          have hget := hw.similar.get? hscope name
          refine .of_run (y := do return some (← Eval.lookup scope name)) rfl ?_
          generalize hx : s.get? scope name = x at hget
          cases hget with
          | none =>
              refine .bind_error (e := .error (.unbound name .none)) ?_
              rw [Eval.lookup, Eval.run_ask_bind, hx]
              rfl
          | @some a _ ha =>
              refine .bind_ok (a := a) ?_ (.pure hw ⟨rfl, rfl, fun y hy => ?_⟩)
              · rw [Eval.lookup, Eval.run_ask_bind, hx]
                rfl
              · cases hy
                exact ha
      | _ => exact hself

/-- The first operand is dropped from the form. -/
theorem Formed.drop {cell : Ref} (h : Formed N W w s f form (cell :: cs)) :
    Formed N W w (s.setCdr form (s.cdr cell)) f form cs ∧
      s.Spares N W (s.setCdr form (s.cdr cell)) := by
  obtain ⟨hw, howned, ⟨hlist, hcells⟩, hwrite⟩ := h
  have hform : form < s.pairs.size := hlist.2 form (by simp)
  have hrest : ∀ c, c ∈ form :: cs → c ∈ form :: cell :: cs := by
    intro c hc
    rcases List.mem_cons.1 hc with rfl | hc
    · simp
    · simp [hc]
  refine ⟨⟨hw.setCdr ?_, howned, ⟨⟨⟨rfl, ?_⟩, fun r hr => ?_⟩, ?_⟩, fun c hc => hwrite c (hrest c hc)⟩,
    Store.spares_setCdr (hwrite form (by simp)) _⟩
  · rcases hcells with hown | hshared
    · refine .inl ⟨hown form (by simp), ?_⟩
      have hnext : s.cdr form = .pair cell := hlist.1.2.1
      rcases hw.cdr (hown form (by simp)) with hnil | ⟨q, hlt, hq, -⟩
      · rw [hnext] at hnil
        contradiction
      · rw [hnext] at hq
        cases hq
        rcases hw.cdr (hown cell (by simp)) with hnil | ⟨q, hlt', hq⟩
        · exact .inl hnil
        · exact .inr ⟨q, Nat.lt_trans hlt' hlt, hq⟩
    · exact .inr ⟨hshared form (by simp), hw.similar.cdr (hshared cell (by simp))⟩
  · rw [Store.cdr_setCdr hform]
    refine hlist.1.2.2.congr fun r hr => Store.cdr_setCdr_ne ?_ _
    -- The first pair of a list is not met again.
    rintro rfl
    have hnodup := hlist.1.nodup
    simp [hr] at hnodup
  · rw [Store.size_setCdr]
    exact hlist.2 r (hrest r hr)
  · exact hcells.imp (fun h c hc => h c (hrest c hc)) fun h c hc => h c (hrest c hc)

theorem stepLogical_guarded (wanted arrived : Bool) (h : Formed N W w s f form cs) :
    Guarded N W w s (stepLogical f form wanted arrived cs) fun w' t s' => t.Owned N W f w' s' := by
  induction cs generalizing s arrived with
  | nil => exact .pure h.holds (.bool wanted)
  | cons cell rest ih =>
      have hcell : w.Shared (s.car cell) := h.car (by simp)
      refine .ask_bind ?_
      split
      · exact goOn_guarded h.holds h.owned hcell
      · refine (settledValue_guarded h.holds hcell h.owned.scope arrived).bind_reads fun x hx => ?_
        cases x with
        | none => exact await_guarded h.holds h.owned hcell (h.write _ (by simp))
        | some v =>
            dsimp only
            split
            · refine .pure h.holds ?_
              cases wanted with
              | true => exact .bool false
              | false => exact hx v rfl
            · obtain ⟨hdrop, hspares⟩ := h.drop
              exact .update_bind hdrop.holds hspares (ih false hdrop)

/-- A body as one expression. -/
theorem sequence_guarded (hw : w.Holds N s) (hv : w.Shared v) :
    Guarded N W w s (Form.sequence v) fun w' x _ => w'.Shared x := by
  have hwrapped : Guarded N W w s (Eval.make fun s => s.cons (.keyword .begin) v)
      fun w' x _ => w'.Shared x := by
    refine .agree_shared hw (.make fun s t hs => ?_)
    exact hs.cons (.keyword .begin) hv
  cases v with
  | pair r =>
      refine .ask_bind ?_
      split
      · cases hv with
        | pair hr => exact .ask hw (hw.similar.car hr)
      · exact hwrapped
  | _ => exact hwrapped

theorem clause_guarded (hw : w.Holds N s) (hv : w.Shared v) :
    Guarded N W w s (Form.clause v) fun w' r s' => w' = w ∧ s' = s ∧ w.shared .pair r r := by
  refine .readOnly hw (Form.readOnly_clause v) fun r hrun => ⟨rfl, rfl, ?_⟩
  cases hv with
  | pair hr =>
      rw [Form.clause, Eval.run_ask_bind] at hrun
      split at hrun
      · cases hrun
        exact hr
      · cases hrun
  | _ => cases hrun

theorem settledTest_guarded (hw : w.Holds N s) (hv : w.Shared v) {scope : Ref}
    (hscope : w.shared .scope scope scope) (arrived : Bool) :
    Guarded N W w s (settledTest arrived v scope) fun w' x s' =>
      w' = w ∧ s' = s ∧ ∀ y, x = some y → w.Shared y := by
  unfold settledTest
  split
  · refine .pure hw ⟨rfl, rfl, fun y hy => ?_⟩
    cases hy
    exact .bool true
  · exact settledValue_guarded hw hv hscope _

/-- The pair made for the test of a clause. -/
theorem head_guarded (hw : w.Holds N s) {test body : Value} (htest : w.Shared test)
    (hbody : w.Shared body) :
    Guarded N W w s (Eval.make fun s => (s.nextPair, s.pushPair test body)) fun w' c _ =>
      Writable N W c ∧ w'.Shared (.pair c) := by
  obtain ⟨ρ', hlater, hsim, hpair⟩ := hw.similar.cons htest hbody
  have hhead : (w.withShared ρ'.fixed).Shared (.pair s.nextPair) := Related.fixed hpair
  exact .of_ok rfl (hw.le_fixed hlater.le) (hw.later hlater hsim)
    (Store.spares_of_keeps hw.size hlater.left.pair) ⟨.inl hw.size, hhead⟩

theorem stepCond_guarded (arrived : Bool) (h : Formed N W w s f form cs) :
    Guarded N W w s (stepCond f form arrived cs) fun w' t s' => t.Owned N W f w' s' := by
  induction cs generalizing s arrived with
  | nil => exact .pure h.holds (.bool false)
  | cons cell rest ih =>
      have hcell : w.Shared (s.car cell) := h.car (by simp)
      refine .ask_bind ((clause_guarded h.holds hcell).bind_reads fun clause hclause => ?_)
      refine .ask_bind (.ask_bind ?_)
      have htest : w.Shared (s.car clause) := h.holds.similar.car hclause
      have hbody : w.Shared (s.cdr clause) := h.holds.similar.cdr hclause
      refine (settledTest_guarded h.holds htest h.owned.scope arrived).bind_reads fun x hx => ?_
      cases x with
      | none =>
          refine (head_guarded h.holds htest hbody).bind fun w' head s' hle hw' hhead => ?_
          have hwrite := h.write cell (by simp)
          refine .update_bind (hw'.setCar cell hhead.2) (Store.spares_setCar hwrite _) ?_
          exact await_guarded (hw'.setCar cell hhead.2) (h.owned.mono hle fun _ hr => hr)
            (htest.mono hle) hhead.1
      | some v =>
          dsimp only
          split
          · split
            · exact .pure h.holds (hx v rfl)
            · refine (sequence_guarded h.holds hbody).bind fun w' t s' hle hw' ht => ?_
              exact goOn_guarded hw' (h.owned.mono hle fun _ hr => hr) ht
          · obtain ⟨hdrop, hspares⟩ := h.drop
            exact .update_bind hdrop.holds hspares (ih false hdrop)

/-! ### Applications -/

/-- The call that a frame for an application is about to make. -/
def Applies (f : Frame) (s : Store) (p : Native) (args : List Value) : Prop :=
  ∃ form, f.expr = .pair form ∧ s.isList f.expr = true ∧ pendingCells s f = [] ∧
    s.car form = .native p ∧ s.elements (s.cdr form) = args

theorem call_guarded {p : Native} {args : List Value} (hw : w.Holds N s)
    (hargs : ∀ v ∈ args, w.Shared v) (hW : ∀ r, p.target? args = some r → W r) :
    Guarded N W w s (p.call args) fun w' reply _ => match reply with
      | .value v => w'.Shared v
      | .call procedure args => w'.Shared procedure ∧ ∀ v ∈ args, w'.Shared v := by
  cases htarget : p.target? args with
  | none =>
      refine .agree hw (Native.call_agree htarget (List.forall₂_same.2 hargs)) fun ρ' reply s' h => ?_
      cases h with
      | value hv => exact hv.fixed
      | call hp hvs => exact ⟨hp.fixed, fun v hv => (List.forall₂_same.1 hvs v hv).fixed⟩
  | some r =>
      obtain ⟨v, rfl, hrun⟩ := Native.run_call_of_target? htarget
      have hr : w.shared .pair r r := by
        cases hargs (.pair r) (by simp) with
        | pair hr => exact hr
      have hv : w.Shared v := hargs v (by simp)
      rcases hrun s with hrun | hrun
      · exact .of_ok hrun (.refl w) (hw.setCar r hv) (Store.spares_setCar (.inr (hW r htarget)) v) .void
      · exact .of_ok hrun (.refl w) (hw.setCdr (.inr ⟨hr, hv⟩))
          (Store.spares_setCdr (.inr (hW r htarget)) v) .void

theorem stepCall_guarded (h : Formed N W w s f form cs)
    (hW : ∀ p r, s.car form = .native p →
      p.target? (s.elements (s.cdr form)) = some r → W r) :
    Guarded N W w s (stepCall f form) fun w' t s' => t.Owned N W f w' s' := by
  have hargs : ∀ v ∈ s.elements (s.cdr form), w.Shared v := by
    rw [h.operands.list.elements_eq]
    intro v hv
    obtain ⟨c, hc, rfl⟩ := List.mem_map.1 hv
    exact h.car hc
  have hoperator : w.Shared (s.car form) := h.holds.cell_car (h.spine.cell (by simp))
  refine .ask_bind (.ask_bind ?_)
  generalize s.car form = operator at hoperator hW
  cases hoperator with
  | native p =>
      refine (call_guarded h.holds hargs fun r hr => hW p r rfl hr).bind fun w' reply s' hle hw' hq => ?_
      cases reply with
      | value v => exact .pure hw' hq
      | call procedure args => exact .pure hw' hq
  | @closure a _ ha =>
      refine .bind (Q := fun w' scope _ => w'.shared .scope scope scope)
        (.agree h.holds (Eval.enterCall_agree ha (List.forall₂_same.2 hargs)) ?_) ?_
      · exact fun ρ' scope s' hscope => ⟨rfl, hscope⟩
      · intro w' scope s' hle hw' hscope
        refine .ask_bind ((ofBody_guarded hw' (hw'.body (hle.shared ha)) hscope fun c hc => ?_).bind
          fun w'' gs s'' _ hw'' hgs => .pure hw'' hgs)
        exact h.owned.destination c hc
  | _ => exact .ask_bind (.raise _)

theorem forCell_guarded (hw : w.Holds N s) {scope c : Ref} (hscope : w.shared .scope scope scope)
    (hcar : w.Shared (s.car c)) (hc : Writable N W c) :
    Guarded N W w s (forCell scope c) fun w' g s' =>
      s.Keeps s' ∧ s'.console = s.console ∧ g.Made N W w' s' := by
  refine .ask_bind (new_guarded hw hcar hscope fun d hd => ?_)
  cases hd
  exact hc

theorem stepApplication_guarded (h : Formed N W w s f form cs) (hexpr : f.expr = .pair form)
    (hW : ∀ p args r, f.Applies s p args → p.target? args = some r → W r) :
    Guarded N W w s (stepApplication f form) fun w' t s' => t.Owned N W f w' s' := by
  refine .ask_bind ?_
  split
  · rename_i hpending
    refine stepCall_guarded h fun p r hp hr => hW p _ r ⟨form, hexpr, ?_, ?_, hp, rfl⟩ hr
    · rw [hexpr]
      exact h.spine.list.isList
    · simpa using hpending
  · have hcells : ∀ c ∈ pendingCells s f, c ∈ form :: cs := by
      intro c hc
      unfold pendingCells at hc
      split at hc
      · simp at hc
      · rw [hexpr, h.spine.list.cells_eq] at hc
        exact List.mem_of_mem_filter hc
    have hmap := mapM_guarded (W := W) (s := s) h.holds fun c hc w' s' hle hw' =>
      forCell_guarded hw' (hle.shared h.owned.scope)
        (hw'.cell_car ((h.spine.cell (hcells c hc)).imp (hle.own ·) (hle.shared ·)))
        (h.write c (hcells c hc))
    refine hmap.bind fun w' gs s' hle hw' hgs => .pure hw' ⟨?_, .inl rfl, hgs.2.2⟩
    exact ⟨hle.shared h.owned.scope, h.owned.expr.mono hle, h.owned.destination⟩

theorem stepHead_guarded (h : Formed N W w s f form cs) (hexpr : f.expr = .pair form)
    (hW : ∀ p args r, f.Applies s p args → p.target? args = some r → W r) (head : Value) :
    Guarded N W w s (stepHead f form (s.cdr form) head) fun w' t s' => t.Owned N W f w' s' := by
  have hcells := h.operands.list.cells_eq
  unfold stepHead
  split
  · exact (quotation_guarded h).bind fun w' v s' _ hw' hv => .pure hw' hv
  · exact stepConditional_guarded h
  · exact stepDefinition_guarded h
  · exact stepAssignment_guarded h
  · exact (lambda_guarded h).bind fun w' v s' _ hw' hv => .pure hw' hv
  · refine (let_guarded h).bind fun w' v s' hle hw' hv => .pure hw' ⟨?_, .inr (.inl hv), by simp⟩
    exact ⟨hle.shared h.owned.scope, .inl hv, h.owned.destination⟩
  · refine .ask_bind ?_
    rw [hcells]
    exact stepCond_guarded _ h
  · refine .ask_bind ?_
    rw [hcells]
    exact stepLogical_guarded true _ h
  · refine .ask_bind ?_
    rw [hcells]
    exact stepLogical_guarded false _ h
  · split
    · exact .pure h.holds .void
    · rename_i hnil
      have hcode : w.Code (s.cdr form) := by
        cases cs with
        | nil =>
            rw [h.operands.list.1.1] at hnil
            exact absurd rfl hnil
        | cons c cs => exact h.operands.code_of_suffix (by simp) (List.suffix_refl _) h.operands.list
      refine (ofBody_guarded h.holds hcode h.owned.scope h.owned.destination).bind ?_
      exact fun w' gs s' _ hw' hgs => .pure hw' hgs
  · exact .raise _
  · exact stepApplication_guarded h hexpr hW

theorem step_atom_guarded (hw : w.Holds N s) (hf : f.Owned N W w) (hpair : ∀ r, f.expr ≠ .pair r) :
    Guarded N W w s f.step fun w' t s' => t.Owned N W f w' s' := by
  have hcode : w.Shared f.expr := by
    rcases hf.expr with ⟨q, hq, -⟩ | hshared
    · exact absurd hq (hpair q)
    · exact hshared
  unfold step
  split
  · refine (Guarded.agree_shared hw (Eval.lookup_agree hf.scope _)).bind ?_
    exact fun w' v s' _ hw' hv => .pure hw' hv
  · exact .raise _
  · rename_i r hr
    exact absurd hr (hpair r)
  · exact .pure hw hcode

/-- One step of a frame. A list that is shared was no list when the frame was made, and its pairs are
the exception. -/
theorem step_guarded (hw : w.Holds N s) (hf : f.Owned N W w)
    (hW : ∀ p args r, f.Applies s p args → p.target? args = some r → W r)
    (hlist : s.isList f.expr = true → ¬ w.Owned f.expr → ∀ c ∈ s.cells f.expr, W c) :
    Guarded N W w s f.step fun w' t s' => t.Owned N W f w' s' := by
  have hcode := hf.expr
  by_cases hpair : ∃ form, f.expr = .pair form
  · obtain ⟨form, hexpr⟩ := hpair
    cases hl : s.isList f.expr with
    | false =>
        refine .of_run (y := pure (.value f.expr)) (run_step_pair hexpr hl) (.pure hw ?_)
        rcases hcode with ⟨q, hq, hown⟩ | hshared
        · rw [hq, hw.isList_of_own hown] at hl
          contradiction
        · exact hshared
    | true =>
        obtain ⟨cs, hspine, hcells⟩ := hw.spine hcode hl
        rw [hexpr] at hspine
        cases cs with
        | nil => exact absurd hspine.list.1.1 (by simp)
        | cons c cs =>
            obtain ⟨⟨⟩, -⟩ := hspine.list.1
            refine .of_run (run_step_list hexpr hl) (stepHead_guarded ⟨hw, hf, hspine, fun c hc => ?_⟩
              hexpr hW (s.car form))
            by_cases hown : w.Owned f.expr
            · exact .inl (hw.young (hcells hown c hc))
            · refine .inr (hlist hl hown c ?_)
              rwa [hexpr, hspine.list.cells_eq]
  · exact step_atom_guarded hw hf fun form hform => hpair ⟨form, hform⟩

end forms

end Frame
end LittleScheme
