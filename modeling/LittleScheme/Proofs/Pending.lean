import LittleScheme.Proofs.Calls
import LittleScheme.Proofs.Progress

/-!
# Frames that are about to begin

The machine makes the frames for the operands of an application, and for the expressions of a body,
before the first of them runs. Each of them holds a copy of its expression in pairs of its own, which
are in use from then on, so the copy is still good when its turn comes.
-/
namespace LittleScheme.Machine

open Value (Related)

section

variable {T K D : Ref → Prop} {ρ ρ' : Renaming} {s t s' t' : Store} {v : Value} {a : Ref} {f : Frame}
  {own : List Ref}

/-- A frame that has a copy of an expression, in the given pairs, and the scope for it. -/
structure Begins (T : Ref → Prop) (ρ : Renaming) (s t : Store) (v : Value) (a : Ref) (f : Frame)
    (own : List Ref) : Prop where
  expression : Expression T ρ s t v f.expr own
  scope : ρ .scope a f.scope
  pushed : f.pushed = false

theorem Begins.later (h : Begins T ρ s t v a f own) (htext : TextIn T s)
    (hafter : After T K D ρ s t ρ' s' t') (hown : ∀ q ∈ own, K q ∧ ¬ D q) :
    Begins T ρ' s' t' v a f own :=
  ⟨h.expression.later htext hafter hown, hafter.le h.scope, h.pushed⟩

theorem begins_new {w : Value} {b : Ref} {d : Option Ref} (hcopied : Copied T ρ s t v w t' own)
    (hscope : ρ .scope a b) : Begins T ρ s t' v a (Frame.fresh b d w) own :=
  ⟨hcopied.expression, hscope, rfl⟩

/-! ### The expressions of a body -/

/-- Frames for some expressions, each with the pairs of its copy, which deliver to one place. -/
def Queue (T : Ref → Prop) (ρ : Renaming) (s t : Store) (a : Ref) (d : Option Ref) :
    List Value → List (Frame × List Ref) → Prop :=
  List.Forall₂ fun v g => Begins T ρ s t v a g.1 g.2 ∧ g.1.destination = d

/-- The pairs of all copies. -/
def allOwn (gs : List (Frame × List Ref)) : List Ref := gs.flatMap Prod.snd

theorem Queue.later {d : Option Ref} {vs : List Value} {gs : List (Frame × List Ref)}
    (h : Queue T ρ s t a d vs gs) (htext : TextIn T s) (hafter : After T K D ρ s t ρ' s' t')
    (hown : ∀ q ∈ allOwn gs, K q ∧ ¬ D q) : Queue T ρ' s' t' a d vs gs := by
  refine forall₂_imp_mem h fun v _ g hg hbegins => ⟨?_, hbegins.2⟩
  exact hbegins.1.later htext hafter fun q hq => hown q (List.mem_flatMap.2 ⟨g, hg, hq⟩)

/-- Frames are made for some expressions, one after the other. -/
theorem exists_queue (h : Matched T K ρ s t) {vs ws : List Value}
    (hvs : List.Forall₂ (Related ρ) vs ws) (hcode : ∀ v ∈ vs, Code T v) {b : Ref}
    (hscope : ρ .scope a b) (d : Option Ref) :
    ∃ gs t', (ws.mapM fun w => Frame.new w b d).run t = .ok (gs.map Prod.fst) t' ∧
      Queue T ρ s t' a d vs gs ∧ Taken t t' (allOwn gs) := by
  induction hvs generalizing K t with
  | nil => exact ⟨[], t, rfl, .nil, .none t⟩
  | @cons v w vs ws hv _ ih =>
      obtain ⟨own, hcopied⟩ := h.copy hv (hcode v (by simp))
      have hm := hcopied.matched h
      obtain ⟨gs, t', hrun, hqueue, htaken⟩ := ih hm fun v hv => hcode v (by simp [hv])
      refine ⟨(Frame.fresh b d (t.copySpine w).1, own) :: gs, t', ?_, .cons ⟨?_, rfl⟩ hqueue,
        hcopied.toTaken.append htaken⟩
      · rw [List.mapM_cons, Eval.run_bind_ok (Frame.run_new w b d t), Eval.run_bind_ok hrun]
        rfl
      · exact (begins_new hcopied hscope).later h.text (htaken.after (D := fun _ => False) hm)
          fun q hq => ⟨.inr hq, not_false⟩

/-! ### The operator and operands of an application -/

theorem exists_of_forall₂_right {α β : Type} {R : α → β → Prop} {as : List α} {bs : List β}
    (h : List.Forall₂ R as bs) {b : β} (hb : b ∈ bs) : ∃ a ∈ as, R a b := by
  induction h with
  | nil => simp at hb
  | cons hab _ ih =>
      rcases List.mem_cons.1 hb with rfl | hb
      · exact ⟨_, by simp, hab⟩
      · obtain ⟨a, ha, hr⟩ := ih hb
        exact ⟨a, by simp [ha], hr⟩

/-- A pair of an application, with a frame for the expression in it, if it needs one, and the pairs of
the frame. -/
structure Slot where
  cell : Ref
  frame : Option Frame
  own : List Ref

/-- The value of an expression is in the pair already, or a frame is about to deliver it. -/
def Slot.Holds (T : Ref → Prop) (ρ : Renaming) (s t : Store) (a : Ref) (v : Value) (x : Slot) : Prop :=
  match x.frame with
  | none => x.own = [] ∧ Related ρ v (t.car x.cell) ∧ Code T v ∧ Frame.needsEvaluation s v = false
  | some f => Begins T ρ s t v a f x.own ∧ f.destination = some x.cell

theorem needsEvaluation_related {w : Value} (h : Similar ρ s t) (hv : Related ρ v w) :
    Frame.needsEvaluation s v = Frame.needsEvaluation t w := by
  have hlist := h.isList_eq hv
  cases hv with
  | pair hr => exact hlist
  | _ => rfl

theorem Slot.Holds.later {x : Slot} (h : x.Holds T ρ s t a v) (htext : TextIn T s)
    (hafter : After T K D ρ s t ρ' s' t') (hown : ∀ q ∈ x.own, K q ∧ ¬ D q)
    (hcell : K x.cell ∧ ¬ D x.cell) : x.Holds T ρ' s' t' a v := by
  unfold Slot.Holds at *
  split at h
  · obtain ⟨hnone, hv, hcode, hneeds⟩ := h
    refine ⟨hnone, ?_, hcode, ?_⟩
    · rw [hafter.spared x.cell hcell.1 hcell.2]
      exact hv.mono hafter.le
    · rw [← hneeds]
      unfold Frame.needsEvaluation
      split
      · rfl
      · rfl
      · exact htext.isList_eq (fun r hr => hafter.fixed r (htext hr).1 (.inl hr))
          (hafter.left .pair) hcode
      · rfl
  · exact ⟨h.1.later htext hafter hown, h.2⟩

/-- Frames are made for the expressions in some pairs that need one. -/
theorem exists_slots (h : Matched T K ρ s t) {vs : List Value} {ds : List Ref}
    (hvs : List.Forall₂ (fun v d => Related ρ v (t.car d)) vs ds) (hcode : ∀ v ∈ vs, Code T v)
    (hds : ∀ d ∈ ds, K d) {b : Ref} (hscope : ρ .scope a b) :
    ∃ slots t', ((ds.filter fun d => Frame.needsEvaluation t (t.car d)).mapM
        (Frame.forCell b)).run t = .ok (slots.filterMap Slot.frame) t' ∧
      slots.map Slot.cell = ds ∧ List.Forall₂ (Slot.Holds T ρ s t' a) vs slots ∧
      Taken t t' (slots.flatMap Slot.own) := by
  induction vs generalizing K t ds with
  | nil =>
      cases hvs
      exact ⟨[], t, rfl, rfl, .nil, .none t⟩
  | cons v vs ih =>
      obtain ⟨d, ds, hv, hrest, rfl⟩ := List.forall₂_cons_left_iff.1 hvs
      have hd := hds d (by simp)
      have hneeds := needsEvaluation_related h.similar hv
      cases hcase : Frame.needsEvaluation s v with
      | false =>
          obtain ⟨slots, t', hrun, hcells, hholds, htaken⟩ :=
            ih h hrest (fun v hv => hcode v (by simp [hv])) fun d hd => hds d (by simp [hd])
          refine ⟨⟨d, none, []⟩ :: slots, t', ?_, by simp [hcells],
            .cons ⟨rfl, ?_, hcode v (by simp), hcase⟩ hholds, htaken⟩
          · rw [List.filter_cons_of_neg (by simp [← hneeds, hcase]), hrun]
            rfl
          · have hcar : t'.car d = t.car d :=
              Store.car_eq_of_pair_eq (htaken.keeps.same .pair d (h.reserved hd).1)
            rwa [hcar]
      | true =>
          obtain ⟨own, hcopied⟩ := h.copy hv (hcode v (by simp))
          have hm := hcopied.matched h
          have hcar : ∀ e ∈ ds, (t.copySpine (t.car d)).2.car e = t.car e := fun e he =>
            Store.car_eq_of_pair_eq (hcopied.keeps.same .pair e (h.reserved (hds e (by simp [he]))).1)
          have hrest' : List.Forall₂ (fun v e => Related ρ v ((t.copySpine (t.car d)).2.car e)) vs
              ds := forall₂_imp_mem hrest fun v _ e he hve => by rwa [hcar e he]
          -- The copy does not change which of the other expressions need a frame.
          have hfilter : (ds.filter fun e => Frame.needsEvaluation (t.copySpine (t.car d)).2
              ((t.copySpine (t.car d)).2.car e)) =
              ds.filter fun e => Frame.needsEvaluation t (t.car e) := by
            refine List.filter_congr fun e he => ?_
            obtain ⟨v', -, hve⟩ := exists_of_forall₂_right hrest he
            rw [hcar e he, ← needsEvaluation_related hm.similar hve,
              needsEvaluation_related h.similar hve]
          obtain ⟨slots, t', hrun, hcells, hholds, htaken⟩ :=
            ih hm hrest' (fun v hv => hcode v (by simp [hv])) fun d hd => .inl (hds d (by simp [hd]))
          have hnew : (Frame.forCell b d).run t =
              .ok (Frame.fresh b (some d) (t.copySpine (t.car d)).1) (t.copySpine (t.car d)).2 := rfl
          refine ⟨⟨d, some (Frame.fresh b (some d) (t.copySpine (t.car d)).1), own⟩ :: slots, t', ?_,
            by simp [hcells], .cons ⟨?_, rfl⟩ hholds, hcopied.toTaken.append htaken⟩
          · rw [List.filter_cons_of_pos (by simp [← hneeds, hcase]), List.mapM_cons,
              Eval.run_bind_ok hnew, ← hfilter, Eval.run_bind_ok hrun]
            rfl
          · exact (begins_new hcopied hscope).later h.text (htaken.after (D := fun _ => False) hm)
              fun q hq => ⟨.inr hq, not_false⟩

end
end LittleScheme.Machine
