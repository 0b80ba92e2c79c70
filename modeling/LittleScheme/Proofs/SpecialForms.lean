import LittleScheme.Proofs.Following

/-!
# Special forms on the machine

Each special form is taken apart in the same way on both sides. The machine does it again when an
operand has arrived: its own pairs are as they were, but for the one that has received the value.
-/
namespace LittleScheme.Machine

open Direct (Careful)
open Value (Related)

variable {limit : Nat}

/-- A frame that works on a list: it has a copy of the one that the recursion has come to. -/
structure Working (T K : Ref → Prop) (ρ : Renaming) (s t : Store) (r a : Ref) (f : Frame) (q : Ref)
    (cs ds : List Ref) : Prop where
  matched : Matched T (Including K (q :: ds)) ρ s t
  listed : Listed ρ s t (.pair r) (.pair q) (r :: cs) (q :: ds)
  source : Source T ρ s (r :: cs)
  expr : f.expr = .pair q
  scope : ρ .scope a f.scope
  pushed : f.pushed = false
  apart : ∀ e ∈ q :: ds, ¬ K e
  destination : ∀ e, f.destination = some e → K e

namespace Working

variable {T K : Ref → Prop} {ρ : Renaming} {s t : Store} {r a q : Ref} {f : Frame} {cs ds : List Ref}
  {n : Nat}

theorem run_step (h : Working T K ρ s t r a f q cs ds) :
    f.step.run t = (Frame.stepHead f q (t.cdr q) (t.car q)).run t := by
  have hlist : t.isList f.expr = true := h.expr ▸ h.listed.right.isList
  rw [Frame.run_step_list h.expr hlist, Frame.run_stepForm]

theorem head (h : Working T K ρ s t r a f q cs ds) {k : Keyword} (hhead : s.car r = .keyword k) :
    t.car q = .keyword k := by
  have hrelated := h.listed.head
  rw [hhead] at hrelated
  generalize t.car q = w at hrelated
  cases hrelated
  rfl

/-- The frame's own pairs are given up. -/
theorem released (h : Working T K ρ s t r a f q cs ds) : Matched T K ρ s t :=
  h.matched.mono fun _ hq => .inl hq

theorem text (h : Working T K ρ s t r a f q cs ds) {k : Keyword} (hhead : s.car r = .keyword k) :
    ∀ c ∈ r :: cs, T c ∧ Code T (s.car c) := by
  intro c hc
  have hT := h.source.text_of_keyword hhead c hc
  exact ⟨hT, (h.matched.text hT).2.1⟩

/-- The frame goes on when the value that it waited for has arrived in one of its pairs. -/
theorem resume (h : Working T K ρ s t r a f q cs ds) {d : Ref} (hd : d ∈ ds) {ρ' : Renaming}
    {s' t' : Store} (hafter : After T (Including K (q :: ds)) (To (some d)) ρ s t ρ' s' t') :
    t'.ListAt (.pair q) (q :: ds) ∧ (∀ e ∈ q :: ds, e ≠ d → t'.car e = t.car e) ∧
      ({ f with pushed := true } : Frame).step.run t' =
        (Frame.stepHead { f with pushed := true } q (t'.cdr q) (t.car q)).run t' := by
  have hlist : t'.ListAt (.pair q) (q :: ds) :=
    h.listed.right.congr (fun e he => hafter.rests e (.inr he)) (hafter.right .pair)
  have hcar : ∀ e ∈ q :: ds, e ≠ d → t'.car e = t.car e := fun e he hne =>
    hafter.spared e (.inr he) fun hto => hne (Option.some.inj hto).symm
  have hq : q ≠ d := by
    rintro rfl
    exact (List.nodup_cons.1 hlist.1.nodup).1 hd
  refine ⟨hlist, hcar, ?_⟩
  have hl : t'.isList ({ f with pushed := true } : Frame).expr = true := h.expr ▸ hlist.isList
  rw [Frame.run_step_list (f := { f with pushed := true }) h.expr hl, Frame.run_stepForm,
    hcar q (by simp) hq]

theorem closureMade (h : Working T K ρ s t r a f q cs ds) {k : Keyword}
    (hhead : s.car r = .keyword k) {ρ' : Renaming} {s' t' : Store} {p p' : Value}
    (hmade : ClosureMade ρ s t cs ds ρ' s' t' p p') : After T K (To f.destination) ρ s t ρ' s' t' :=
  .of_closureMade h.released (fun c hc => (h.text hhead c (by simp [hc])).1)
    (fun d hd => ⟨h.apart d (by simp [hd]), (h.matched.reserved (.inr (by simp [hd]))).2⟩) hmade

theorem quotation (h : Working T K ρ s t r a f q cs ds) (hhead : s.car r = .keyword .quote)
    (x : Value) :
    Serves limit T K ρ s t n [f] f.destination x t ((Form.quotation (s.cdr r)).run s) := by
  have hstep := h.run_step
  rw [h.head hhead] at hstep
  exact .parallel (Form.quotation_parallel h.matched.similar h.listed.tail) h.released h.destination
    hstep

theorem conditional (h : Working T K ρ s t r a f q cs ds) (hhead : s.car r = .keyword .ifThen)
    (heval : FollowsEval limit n) (hcareful : Careful T (n + 1) (.form r a) s) (x : Value) :
    Serves limit T K ρ s t (n + 2) [f] f.destination x t ((Direct.evalForm (n + 1) r a).run s) := by
  have hstep := h.run_step
  rw [h.head hhead] at hstep
  have hlength := h.listed.tail.length_eq
  have htext := h.text hhead
  rw [Direct.evalForm, Eval.run_ask_bind, Eval.run_ask_bind, hhead]
  by_cases hshape : ∃ c c' cs', cs = c :: c' :: cs' ∧ cs'.length ≤ 1
  · obtain ⟨c, c', cs', rfl, hcs'⟩ := hshape
    obtain ⟨d, d', ds', rfl⟩ := Form.exists_cons_cons (l := ds)
      (by simp only [List.length_cons] at hlength; omega)
    have hds' : ds'.length ≤ 1 := by
      simp only [List.length_cons] at hlength
      omega
    have hparts := Form.run_conditional h.listed.left.tail hcs'
    rw [Eval.run_bind_ok hparts, Eval.run_ask_bind]
    have hrest := h.listed.tail.tail
    refine .await heval h.matched h.apart (d := d) (by simp) h.listed.tail.head
      (htext c (by simp)).2 h.scope (fun _ _ hcall => hcareful (.test hhead hparts hcall))
      (Nat.le_refl _) ?_ (by omega) fun v' s' ρ' y t' hrun hafter hv' => ?_
    · rw [hstep]
      change (Frame.stepConditional f (t.cdr q)).run t = _
      rw [Frame.stepConditional, Eval.run_bind_ok (Form.run_conditional h.listed.right.tail hds'),
        Eval.run_ask_bind, h.pushed]
      rfl
    · obtain ⟨hlist, hcar, hstep'⟩ := h.resume (by simp) hafter
      have hnodup := (List.nodup_cons.1 hlist.tail.1.nodup).1
      rw [h.head hhead] at hstep'
      change _ = (Frame.stepConditional _ (t'.cdr q)).run t' at hstep'
      rw [Frame.stepConditional, Eval.run_bind_ok (Form.run_conditional hlist.tail hds'),
        Eval.run_ask_bind] at hstep'
      simp only [Bool.not_true, Bool.false_eq_true, if_false, ← hv'.isTrue_eq] at hstep'
      have hmatched : Matched T K ρ' s' t' := hafter.matched.mono fun _ hq => .inl hq
      cases htrue : v'.isTrue with
      | true =>
          simp only [htrue, if_true] at hstep' ⊢
          have hcar' : t'.car d' = t.car d' := hcar d' (by simp) (by rintro rfl; simp at hnodup)
          refine .goOn heval hmatched h.destination (w := t'.car d') ?_ (htext c' (by simp)).2
            (hafter.le h.scope) (fun _ _ hcall => hcareful (.consequent hhead hparts hrun htrue hcall))
            (Nat.le_refl _) hstep' (by omega)
          rw [hcar']
          exact hrest.head.mono hafter.le
      | false =>
          simp only [htrue, Bool.false_eq_true, if_false] at hstep' ⊢
          have hlength' := hrest.length_eq
          rcases cs' with _ | ⟨c'', _ | ⟨_, _⟩⟩
          · obtain rfl : ds' = [] := by simpa using hlength'.symm
            exact .value hmatched h.destination .void hstep'
          · obtain ⟨d'', rfl⟩ : ∃ d'', ds' = [d''] := by
              simpa [List.length_eq_one_iff] using hlength'.symm
            have hcar' : t'.car d'' = t.car d'' := hcar d'' (by simp) (by rintro rfl; simp at hnodup)
            refine .goOn heval hmatched h.destination (w := t'.car d'') ?_ (htext c'' (by simp)).2
              (hafter.le h.scope)
              (fun _ _ hcall => hcareful (.alternate hhead hparts hrun htrue rfl hcall))
              (Nat.le_refl _) hstep' (by omega)
            rw [hcar']
            exact hrest.tail.head.mono hafter.le
          · simp at hcs'
  · have hmisfit : cs.length ≠ 2 ∧ cs.length ≠ 3 := by
      constructor <;> intro hlen <;> refine hshape ?_
      · obtain ⟨c, c', rfl⟩ := List.length_eq_two.1 hlen
        exact ⟨c, c', [], rfl, by simp⟩
      · obtain ⟨c, c', c'', rfl⟩ := List.length_eq_three.1 hlen
        exact ⟨c, c', [c''], rfl, by simp⟩
    have hleft := Form.run_conditional_misfit h.listed.left.tail hmisfit.1 hmisfit.2
    have hright := Form.run_conditional_misfit h.listed.right.tail (hlength ▸ hmisfit.1)
      (hlength ▸ hmisfit.2)
    obtain ⟨e, hl, hr⟩ := Form.misfit_eq (α := Form.Conditional) .ifThen h.listed.tail h.matched.similar
    rw [Eval.run_bind_error (hleft.trans hl)]
    exact .fail (hstep.trans (Eval.run_bind_error (hright.trans hr))) (.refl ρ) h.released

theorem definition (h : Working T K ρ s t r a f q cs ds) (hhead : s.car r = .keyword .define)
    (heval : FollowsEval limit n) (hcareful : Careful T (n + 1) (.form r a) s) (x : Value) :
    Serves limit T K ρ s t (n + 2) [f] f.destination x t ((Direct.evalForm (n + 1) r a).run s) := by
  have hstep := h.run_step
  rw [h.head hhead] at hstep
  change _ = (Frame.stepDefinition f (t.cdr q)).run t at hstep
  have htext := h.text hhead
  rw [Direct.evalForm, Eval.run_ask_bind, Eval.run_ask_bind, hhead]
  rcases Form.definition_defines h.matched.similar h.listed.tail h.scope with
    ⟨name, c₀, c, d₀, d, rfl, rfl, hname, hleft, hright⟩ |
    ⟨name, ρ', s', t', p, p', hmade, hleft, hright⟩ | ⟨e, hleft, hright⟩
  · rw [Eval.run_bind_ok hleft]
    simp only [Eval.run_ask_bind]
    refine .await heval h.matched h.apart (d := d) (by simp) h.listed.tail.tail.head
      (htext c (by simp)).2 h.scope (fun _ _ hcall => hcareful (.definition hhead hleft hcall))
      (Nat.le_refl _) ?_ (by omega) fun v' s' ρ' y t' hrun hafter hv' => ?_
    · rw [hstep, Frame.stepDefinition, Eval.run_bind_ok hright]
      simp only [Eval.run_ask_bind, h.pushed, Bool.false_eq_true, if_false]
    · obtain ⟨hlist, hcar, hstep'⟩ := h.resume (by simp) hafter
      have hnodup := (List.nodup_cons.1 hlist.tail.1.nodup).1
      have hname' : t'.car d₀ = .symbol name := by
        rw [hcar d₀ (by simp) (by rintro rfl; simp at hnodup), hname]
      have hright' : (Form.definition (t'.cdr q) f.scope).run t' = .ok (.variable name d) t' := by
        rw [Form.run_definition_variable hlist.tail (by rw [hname']; rfl), hname']
        rfl
      rw [h.head hhead] at hstep'
      change _ = (Frame.stepDefinition _ (t'.cdr q)).run t' at hstep'
      rw [Frame.stepDefinition, Eval.run_bind_ok hright'] at hstep'
      simp only [Eval.run_ask_bind, if_true] at hstep'
      exact .agree (Eval.bind_agree (hafter.le h.scope) name hv')
        (hafter.matched.mono fun _ hq => .inl hq) h.destination hstep'
  · have hafter := h.closureMade hhead hmade
    rw [Eval.run_bind_ok hleft]
    rw [Frame.stepDefinition, Eval.run_bind_ok hright] at hstep
    exact .after hafter (.agree (Eval.bind_agree (hafter.le h.scope) name hmade.related)
      hafter.matched h.destination hstep)
  · rw [Eval.run_bind_error hleft]
    exact .fail (hstep.trans (Eval.run_bind_error hright)) (.refl ρ) h.released

theorem assignment (h : Working T K ρ s t r a f q cs ds) (hhead : s.car r = .keyword .set)
    (heval : FollowsEval limit n) (hcareful : Careful T (n + 1) (.form r a) s) (x : Value) :
    Serves limit T K ρ s t (n + 2) [f] f.destination x t ((Direct.evalForm (n + 1) r a).run s) := by
  have hstep := h.run_step
  rw [h.head hhead] at hstep
  change _ = (Frame.stepAssignment f (t.cdr q)).run t at hstep
  have hlength := h.listed.tail.length_eq
  have htext := h.text hhead
  rw [Direct.evalForm, Eval.run_ask_bind, Eval.run_ask_bind, hhead]
  by_cases htwo : cs.length = 2
  · obtain ⟨c₀, c, rfl⟩ := List.length_eq_two.1 htwo
    obtain ⟨d₀, d, rfl⟩ := List.length_eq_two.1 (hlength ▸ htwo)
    have hleft := Form.run_assignment h.listed.left.tail
    have hright := Form.run_assignment h.listed.right.tail
    rcases Form.bindingName_parallel h.matched.similar h.listed.tail.head with
      ⟨name, _, hl, hr, rfl, -, hname⟩ | ⟨e, hl, hr⟩
    · have hleft' := hleft.trans (Eval.run_bind_ok hl)
      rw [Eval.run_bind_ok hleft']
      simp only [Eval.run_ask_bind]
      refine .await heval h.matched h.apart (d := d) (by simp) h.listed.tail.tail.head
        (htext c (by simp)).2 h.scope (fun _ _ hcall => hcareful (.assignment hhead hleft' hcall))
        (Nat.le_refl _) ?_ (by omega) fun v' s' ρ' y t' hrun hafter hv' => ?_
      · rw [hstep, Frame.stepAssignment, Eval.run_bind_ok (hright.trans (Eval.run_bind_ok hr))]
        simp only [Eval.run_ask_bind, h.pushed, Bool.false_eq_true, if_false]
      · obtain ⟨hlist, hcar, hstep'⟩ := h.resume (by simp) hafter
        have hnodup := (List.nodup_cons.1 hlist.tail.1.nodup).1
        have hname' : t'.car d₀ = .symbol name := by
          rw [hcar d₀ (by simp) (by rintro rfl; simp at hnodup), hname]
        have hright' : (Form.assignment (t'.cdr q)).run t' = .ok (name, d) t' := by
          rw [Form.run_assignment hlist.tail, hname']
          rfl
        rw [h.head hhead] at hstep'
        change _ = (Frame.stepAssignment _ (t'.cdr q)).run t' at hstep'
        rw [Frame.stepAssignment, Eval.run_bind_ok hright'] at hstep'
        simp only [Eval.run_ask_bind, if_true] at hstep'
        exact .agree (Eval.assign_agree (hafter.le h.scope) name hv')
          (hafter.matched.mono fun _ hq => .inl hq) h.destination hstep'
    · rw [Eval.run_bind_error (hleft.trans (Eval.run_bind_error hl))]
      exact .fail (hstep.trans (Eval.run_bind_error (hright.trans (Eval.run_bind_error hr))))
        (.refl ρ) h.released
  · obtain ⟨e, hl, hr⟩ := Form.misfit_eq (α := String × Ref) .set h.listed.tail h.matched.similar
    rw [Eval.run_bind_error ((Form.run_assignment_misfit h.listed.left.tail htwo).trans hl)]
    have hright := Form.run_assignment_misfit h.listed.right.tail (hlength ▸ htwo)
    exact .fail (hstep.trans (Eval.run_bind_error (hright.trans hr))) (.refl ρ) h.released

theorem lambda (h : Working T K ρ s t r a f q cs ds) (hhead : s.car r = .keyword .lambda) (x : Value) :
    Serves limit T K ρ s t n [f] f.destination x t ((Form.lambda (s.cdr r) a).run s) := by
  have hstep := h.run_step
  rw [h.head hhead] at hstep
  rcases Form.lambda_makesClosure h.matched.similar h.listed.tail h.scope with
    ⟨ρ', s', t', p, p', hmade, hleft, hright⟩ | ⟨e, hleft, hright⟩
  · have hafter := h.closureMade hhead hmade
    rw [hleft]
    exact .after hafter (.value hafter.matched h.destination hmade.related
      (hstep.trans (Eval.run_bind_ok hright)))
  · rw [hleft]
    exact .fail (hstep.trans (Eval.run_bind_error hright)) (.refl ρ) h.released

/-- The expressions bound by a `let` are code. -/
theorem bound_code (htext : TextIn T s) {c : Ref} {cb : List Ref} {vs : List Value}
    (hcode : Code T (s.car c)) (hcb : s.ListAt (s.car c) cb)
    (hvs : List.Forall₂ (fun c v => ∃ x y, s.ListAt (s.car c) [x, y] ∧ s.car y = v) cb vs) :
    ∀ v ∈ vs, Code T v := by
  intro v hv
  obtain ⟨c', hc', y, z, hlist, rfl⟩ := exists_of_forall₂_right hvs hv
  have hbinding := (htext.listAt hcode hcb c' hc').2
  exact (htext.listAt hbinding hlist z (by simp)).2

theorem letIn (h : Working T K ρ s t r a f q cs ds) (hhead : s.car r = .keyword .letIn)
    (heval : FollowsEval limit n) (hcareful : Careful T (n + 1) (.form r a) s) (x : Value) :
    Serves limit T K ρ s t (n + 2) [f] f.destination x t ((Direct.evalForm (n + 1) r a).run s) := by
  have hstep := h.run_step
  rw [h.head hhead] at hstep
  have htext := h.text hhead
  rw [Direct.evalForm, Eval.run_ask_bind, Eval.run_ask_bind, hhead]
  rcases Form.letApplication_appliesLet h.matched.similar h.listed.tail h.scope with
    ⟨ρ', s', t', p, p', cb, vs, ws, hmade, hp, ⟨c, hc, hcb⟩, hplaces, hvs, hleft, hright⟩ |
    ⟨e, hleft, hright⟩
  · have hafter := h.closureMade hhead hmade
    have hcode := bound_code h.matched.text (htext c (by simp [hc])).2 hcb hplaces
    rw [Eval.run_bind_ok hleft]
    obtain ⟨r', cs', hfst, hlist, hcars, hnew⟩ := s'.exists_list p vs
    have hmade' : After T K (To f.destination) ρ' s' t' ρ' (s'.list (p :: vs)).2 t' :=
      .of_keeps hafter.matched (s'.keeps_listWithTail _ .nil) (.refl t')
        (by rw [Store.list, Store.listWithTail_eq, hmade.similar.console])
    -- The closure is the head of the list, so it is an application, of code.
    have hsource : Source T ρ' (s'.list (p :: vs)).2 (r' :: cs') := by
      refine .application (fun c hc => hmade.similar.leftFree (hnew c hc)) (fun k hk => ?_)
        fun c hc => ?_
      · rw [(List.cons.inj hcars).1] at hk
        rw [hk] at hp
        cases hp
      · have hmem := List.mem_map_of_mem (f := (s'.list (p :: vs)).2.car) hc
        rw [hcars] at hmem
        rcases List.mem_cons.1 hmem with heq | hmem
        · rw [heq]
          refine .of_not_isPair ?_
          cases p <;> first | rfl | cases hp
        · exact hcode _ hmem
    have hvalues : List.Forall₂ (Related ρ') ((r' :: cs').map (s'.list (p :: vs)).2.car)
        (p' :: ws) := by
      rw [hcars]
      exact .cons hmade.related (hvs.imp fun _ _ hv => hv.mono hmade.gains.le)
    have hcopied := copied_list (t := t') hlist hsource hvalues
    have hready : Ready T K ρ' (s'.list (p :: vs)).2 (t'.list (p' :: ws)).2 (.pair r') a
        (f.withExpr (t'.list (p' :: ws)).1) (Store.newCells t'.pairs.size (p' :: ws).length) :=
      ⟨⟨hcopied.expression, hafter.le h.scope, rfl⟩, hcopied.matched hmade'.matched,
        fun q hq => hcopied.apart hmade'.matched hq, h.destination⟩
    have hcalls : Careful T n (.eval (.pair r') a) (s'.list (p :: vs)).2 := fun _ _ hcall =>
      hcareful (.letIn hhead (hfst ▸ hleft) hcall)
    have hnext : Next limit (⟨[f], x, []⟩, t)
        (⟨[f.withExpr (t'.list (p' :: ws)).1], x, []⟩, (t'.list (p' :: ws)).2) :=
      next_suspend (hstep.trans (Eval.run_bind_ok hright))
    rw [hfst]
    refine .after (hafter.trans (hmade'.trans (hcopied.after hmade'.matched))) ?_
    exact .next hnext (Nat.le_trans (hmade.right.count .pair) (hcopied.keeps.count .pair))
      (heval x hready hcalls) (by omega)
  · rw [Eval.run_bind_error hleft]
    exact .fail (hstep.trans (Eval.run_bind_error hright)) (.refl ρ) h.released

end Working

end LittleScheme.Machine
