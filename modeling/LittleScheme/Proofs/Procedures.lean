import LittleScheme.Proofs.Operands

/-!
# Procedures made by forms

A `lambda`, a definition of a procedure and a `let` make closures. On both sides the new closure has
the same parameters, and its body is the rest of the operands, in whatever pairs they are held.
-/
namespace LittleScheme

open Value (Related)

/-- The bodies of closures on both sides: what is left of the operands of their forms. -/
def BodyOf (ρ : Renaming) (s t : Store) (cs ds : List Ref) (body body' : Value) : Prop :=
  ∃ cs' ds', cs' ≠ [] ∧ cs' <:+ cs ∧ ds' <:+ ds ∧ Listed ρ s t body body' cs' ds'

/-- Related procedures after at most one closure has been made on both sides, from operands in the
given pairs. -/
structure ClosureMade (ρ : Renaming) (s t : Store) (cs ds : List Ref) (ρ' : Renaming) (s' t' : Store)
    (p q : Value) : Prop where
  gains : Gains ρ s t ρ'
  left : s.Keeps s'
  right : t.Keeps t'
  similar : Similar ρ' s' t'
  related : Related ρ' p q
  leftPairs : s'.pairs = s.pairs
  rightPairs : t'.pairs = t.pairs
  bodies : ∀ ⦃a b⦄, ρ' .closure a b → ρ .closure a b ∨
    BodyOf ρ s t cs ds (s'.closure a).body (t'.closure b).body

/-- Both computations make a closure, or both stop for the same reason. -/
def MakesClosure (ρ : Renaming) (s t : Store) (cs ds : List Ref) (x y : Eval Value) : Prop :=
  (∃ ρ' s' t' p q, ClosureMade ρ s t cs ds ρ' s' t' p q ∧ x.run s = .ok p s' ∧ y.run t = .ok q t') ∨
    ∃ e, x.run s = .error (.error e) s ∧ y.run t = .error (.error e) t

section

variable {ρ : Renaming} {s t : Store} {cs ds : List Ref}

/-- The closure that is new on both sides has its body from the operands. -/
theorem closureMade {x y : Value × Store} {c d : Closure}
    (h : ∃ ρ', Gains ρ s t ρ' ∧ Similar ρ' x.2 y.2 ∧ Related ρ' x.1 y.1)
    (hkeeps : s.Keeps x.2) (hkeeps' : t.Keeps y.2)
    (hleft : x.2.pairs = s.pairs) (hright : y.2.pairs = t.pairs)
    (hc : x.2.closures = s.closures.push c) (hd : y.2.closures = t.closures.push d)
    (hbody : BodyOf ρ s t cs ds c.body d.body) :
    ∃ ρ', ClosureMade ρ s t cs ds ρ' x.2 y.2 x.1 y.1 := by
  obtain ⟨ρ', hgains, hsim, hrelated⟩ := h
  refine ⟨ρ', hgains, hkeeps, hkeeps', hsim, hrelated, hleft, hright, fun a b hr => ?_⟩
  rcases hgains.fresh hr with hold | ⟨ha, hb⟩
  · exact .inl hold
  · have hbound := hsim.bound hr
    simp only [Store.count, hc, hd, Array.size_push] at ha hb hbound
    have hca : x.2.closure a = c := by
      rw [show a = s.closures.size by lia, Store.closure, hc]
      exact getD_push_self _ _ _
    have hdb : y.2.closure b = d := by
      rw [show b = t.closures.size by lia, Store.closure, hd]
      exact getD_push_self _ _ _
    rw [hca, hdb]
    exact .inr hbody

/-- The operands after the first, if there are any. -/
theorem Listed.bodyOf {v w : Value} {c c' d d' : Ref}
    (h : Listed ρ s t v w (c :: c' :: cs) (d :: d' :: ds)) :
    BodyOf ρ s t (c :: c' :: cs) (d :: d' :: ds) (s.cdr c) (t.cdr d) :=
  ⟨c' :: cs, d' :: ds, by simp, List.suffix_cons _ _, List.suffix_cons _ _, h.tail⟩

theorem BodyOf.run_checkBody {body body' : Value} (h : BodyOf ρ s t cs ds body body') :
    (Form.checkBody body).run s = .ok () s ∧ (Form.checkBody body').run t = .ok () t := by
  obtain ⟨cs', ds', hne, -, -, hlisted⟩ := h
  have hlength := hlisted.length_eq
  cases cs' with
  | nil => contradiction
  | cons c cs' =>
      cases ds' with
      | nil => simp at hlength
      | cons d ds' => exact ⟨Form.run_checkBody hlisted.left, Form.run_checkBody hlisted.right⟩

namespace Form

theorem closing_makesClosure (hs : Similar ρ s t) {spec spec' body body' : Value}
    (hspec : Related ρ spec spec') (hbody : BodyOf ρ s t cs ds body body') (name : Option String)
    {a b : Ref} (hscope : ρ .scope a b) :
    MakesClosure ρ s t cs ds (closing name spec body a) (closing name spec' body' b) := by
  unfold closing
  rcases parameters_parallel hs hspec with ⟨⟨params, rest⟩, -, hleft, hright, rfl⟩ | ⟨e, hl, hr⟩
  · refine .inl ?_
    obtain ⟨ρ', hmade⟩ := closureMade (hs.newClosure (c := ⟨name, params, rest, body, a⟩)
      (d := ⟨name, params, rest, body', b⟩) ⟨rfl, rfl, rfl, hscope⟩) (s.keeps_newClosure _)
      (t.keeps_newClosure _) rfl rfl rfl rfl hbody
    refine ⟨ρ', _, _, _, _, hmade, ?_, ?_⟩
    · rw [Eval.run_bind_ok hleft]
      rfl
    · rw [Eval.run_bind_ok hright]
      rfl
  · exact .inr ⟨e, Eval.run_bind_error hl, Eval.run_bind_error hr⟩

theorem exists_cons_cons {α : Type} {l : List α} (h : ¬ l.length < 2) : ∃ a b m, l = a :: b :: m := by
  rcases l with _ | ⟨a, _ | ⟨b, m⟩⟩
  · simp at h
  · simp at h
  · exact ⟨a, b, m, rfl⟩

variable {v w : Value}

theorem lambda_makesClosure (hs : Similar ρ s t) (h : Listed ρ s t v w cs ds) {a b : Ref}
    (hscope : ρ .scope a b) : MakesClosure ρ s t cs ds (lambda v a) (lambda w b) := by
  have hlength := h.length_eq
  rw [MakesClosure]
  by_cases hcs : cs.length < 2
  · rw [run_lambda_misfit h.left hcs, run_lambda_misfit h.right (by omega)]
    exact .inr (misfit_eq _ h hs)
  · obtain ⟨c, c', cs', rfl⟩ := exists_cons_cons hcs
    obtain ⟨d, d', ds', rfl⟩ := exists_cons_cons (hlength ▸ hcs)
    rw [run_lambda h.left, run_lambda h.right]
    exact closing_makesClosure hs h.head h.bodyOf none hscope

/-- What a definition comes to: a variable whose value is still to be found, a procedure, or a
fault. -/
def Defines (ρ : Renaming) (s t : Store) (cs ds : List Ref) (x y : Eval Definition) : Prop :=
  (∃ name c₀ c d₀ d, cs = [c₀, c] ∧ ds = [d₀, d] ∧ t.car d₀ = .symbol name ∧
      x.run s = .ok (.variable name c) s ∧ y.run t = .ok (.variable name d) t) ∨
    (∃ name ρ' s' t' p q, ClosureMade ρ s t cs ds ρ' s' t' p q ∧
      x.run s = .ok (.procedure name p) s' ∧ y.run t = .ok (.procedure name q) t') ∨
    ∃ e, x.run s = .error (.error e) s ∧ y.run t = .error (.error e) t

theorem definition_defines (hs : Similar ρ s t) (h : Listed ρ s t v w cs ds) {a b : Ref}
    (hscope : ρ .scope a b) : Defines ρ s t cs ds (definition v a) (definition w b) := by
  have hlength := h.length_eq
  rw [Defines]
  by_cases hpair : ∃ c c' cs', cs = c :: c' :: cs' ∧ (s.car c).isPair = true
  · obtain ⟨c, c', cs', rfl, hpair⟩ := hpair
    obtain ⟨d, d', ds', rfl⟩ := exists_cons_cons (l := ds) (by simp only [List.length_cons] at *; omega)
    have hhead := h.head
    generalize hx : s.car c = x, hy : t.car d = y at hhead hpair
    cases hhead with
    | @pair target target' hr =>
        rw [run_definition_procedure h.left hx, run_definition_procedure h.right hy]
        refine .inr ?_
        rcases bindingName_parallel hs (hs.car hr) with ⟨name, _, hl, hr', rfl, -⟩ | ⟨e, hl, hr'⟩
        · rw [Eval.run_bind_ok hl, Eval.run_bind_ok hr']
          rcases closing_makesClosure hs (hs.cdr hr) h.bodyOf (some name) hscope with
            ⟨ρ', s', t', p, q, hmade, hp, hq⟩ | ⟨e, hp, hq⟩
          · exact .inl ⟨name, ρ', s', t', p, q, hmade, Eval.run_bind_ok hp, Eval.run_bind_ok hq⟩
          · exact .inr ⟨e, Eval.run_bind_error hp, Eval.run_bind_error hq⟩
        · exact .inr ⟨e, Eval.run_bind_error hl, Eval.run_bind_error hr'⟩
    | _ => contradiction
  · by_cases htwo : cs.length = 2
    · -- A target that is no pair is the name of a variable.
      obtain ⟨c, c', rfl⟩ := List.length_eq_two.1 htwo
      obtain ⟨d, d', rfl⟩ := List.length_eq_two.1 (hlength ▸ htwo)
      have hnot : (s.car c).isPair = false := by
        by_contra hcar
        exact hpair ⟨c, c', [], rfl, by simpa using hcar⟩
      rw [run_definition_variable h.left hnot,
        run_definition_variable h.right (h.head.isPair_eq ▸ hnot)]
      rcases bindingName_parallel hs h.head with ⟨name, _, hl, hr, rfl, -, hyname⟩ | ⟨e, hl, hr⟩
      · exact .inl ⟨name, c, c', d, d', rfl, rfl, hyname, Eval.run_bind_ok hl, Eval.run_bind_ok hr⟩
      · exact .inr (.inr ⟨e, Eval.run_bind_error hl, Eval.run_bind_error hr⟩)
    · rw [run_definition_misfit h.left htwo, run_definition_misfit h.right (hlength ▸ htwo)]
      · exact .inr (.inr (misfit_eq _ h hs))
      · rintro d d' ds' rfl
        obtain ⟨c, c', cs', rfl⟩ := exists_cons_cons (l := cs)
          (by simp only [List.length_cons] at *; omega)
        rw [← h.head.isPair_eq]
        by_contra hcar
        exact hpair ⟨c, c', cs', rfl, by simpa using hcar⟩
      · rintro c c' cs' rfl
        by_contra hcar
        exact hpair ⟨c, c', cs', rfl, by simpa using hcar⟩

/-! ### Named and plain `let` -/

theorem letParts_parallel (hs : Similar ρ s t) (h : Listed ρ s t v w cs ds) :
    Parallel s t (letParts v) (letParts w) fun a b => a.name = b.name ∧
      Related ρ a.bindings b.bindings ∧ (∃ c ∈ cs, a.bindings = s.car c) ∧
      BodyOf ρ s t cs ds a.body b.body := by
  have hlength := h.length_eq
  rw [Parallel]
  by_cases hcs : cs.length < 2
  · rw [run_letParts_misfit h.left hcs, run_letParts_misfit h.right (by omega)]
    exact .inr (misfit_eq _ h hs)
  · obtain ⟨c, c', cs, rfl⟩ := exists_cons_cons hcs
    obtain ⟨d, d', ds, rfl⟩ := exists_cons_cons (hlength ▸ hcs)
    rw [run_letParts h.left, run_letParts h.right]
    have hhead := h.head
    have hbody := h.bodyOf
    generalize hx : s.car c = x, hy : t.car d = y at hhead
    have hhead' := hhead
    cases hhead with
    | symbol name =>
        cases cs with
        | nil =>
            cases ds with
            | cons _ _ => simp at hlength
            | nil =>
                exact .inl ⟨⟨none, .symbol name, s.cdr c⟩, ⟨none, .symbol name, t.cdr d⟩, rfl, rfl, rfl,
                  .symbol name, ⟨c, by simp, hx.symm⟩, hbody⟩
        | cons c'' cs =>
            cases ds with
            | nil => simp at hlength
            | cons d'' ds =>
                refine .inl ⟨⟨some name, s.car c', s.cdr c'⟩, ⟨some name, t.car d', t.cdr d'⟩, rfl,
                  rfl, rfl, h.tail.head, ⟨c', by simp, rfl⟩, ?_⟩
                exact ⟨c'' :: cs, d'' :: ds, by simp, ⟨[c, c'], rfl⟩, ⟨[d, d'], rfl⟩, h.tail.tail⟩
    | keyword k => exact .inr ⟨.malformed (.boundKeyword k), rfl, rfl⟩
    | _ =>
        exact .inl ⟨⟨none, _, s.cdr c⟩, ⟨none, _, t.cdr d⟩, rfl, rfl, rfl, hhead',
          ⟨c, by simp, hx.symm⟩, hbody⟩

/-- The name and the expression of a binding, and where the expression stands. -/
theorem letBinding_parallel (hs : Similar ρ s t) (hv : Related ρ v w) :
    Parallel s t (letBinding v) (letBinding w) fun a b => Related ρ a.1 b.1 ∧ Related ρ a.2 b.2 ∧
      ∃ x y, s.ListAt v [x, y] ∧ s.car y = a.2 := by
  have hfault : ∀ (α β : Type) (Q : α → β → Prop), Parallel s t
      (do Eval.malformed (.notBinding (← Eval.written v)) : Eval α)
      (do Eval.malformed (.notBinding (← Eval.written w)) : Eval β) Q := by
    intro α β Q
    refine .bind (Q := Eq) (.ask (hs.written hv)) fun a b hab => ?_
    subst hab
    exact .raise _
  rw [Parallel, letBinding, letBinding, Eval.run_ask_bind, Eval.run_ask_bind]
  cases hl : s.isList v with
  | false =>
      have hl' : t.isList w = false := (hs.isList_eq hv).symm.trans hl
      rw [Store.elements?_of_not_isList hl, Store.elements?_of_not_isList hl']
      exact hfault _ _ _
  | true =>
      obtain ⟨cs, ds, h, -⟩ := hs.listed hv hl
      rw [h.left.elements?_eq, h.right.elements?_eq]
      have hlength := h.length_eq
      rcases cs with _ | ⟨c, _ | ⟨c', _ | ⟨c'', cs⟩⟩⟩ <;>
        rcases ds with _ | ⟨d, _ | ⟨d', _ | ⟨d'', ds⟩⟩⟩ <;>
        simp only [List.length_cons, List.length_nil] at hlength <;> try omega
      · exact hfault _ _ _
      · exact hfault _ _ _
      · exact .inl ⟨(s.car c, s.car c'), (t.car d, t.car d'), rfl, rfl, h.head, h.tail.head, c, c',
          h.left, rfl⟩
      · exact hfault _ _ _

theorem letBindings_parallel (hs : Similar ρ s t) {cb db : List Ref}
    (h : List.Forall₂ (fun c d => Related ρ (s.car c) (t.car d)) cb db) :
    Parallel s t ((cb.map s.car).mapM letBinding) ((db.map t.car).mapM letBinding) fun as bs =>
      List.Forall₂ (fun a b => Related ρ a.1 b.1 ∧ Related ρ a.2 b.2) as bs ∧
      List.Forall₂ (fun c a => ∃ x y, s.ListAt (s.car c) [x, y] ∧ s.car y = a.2) cb as := by
  induction h with
  | nil => exact .pure ⟨.nil, .nil⟩
  | cons hcd _ ih =>
      rw [List.map_cons, List.map_cons, List.mapM_cons, List.mapM_cons]
      refine (letBinding_parallel hs hcd).bind fun a b hab => ih.bind fun as bs has => ?_
      exact .pure ⟨.cons ⟨hab.1, hab.2.1⟩ has.1, .cons hab.2.2 has.2⟩

theorem letNames_parallel (hs : Similar ρ s t) {as bs : List (Value × Value)}
    (h : List.Forall₂ (fun a b => Related ρ a.1 b.1 ∧ Related ρ a.2 b.2) as bs)
    (params : List String) :
    Parallel s t (as.foldlM (fun params a => addParameter params a.1) params)
      (bs.foldlM (fun params b => addParameter params b.1) params) Eq := by
  induction h generalizing params with
  | nil => exact .pure rfl
  | cons hab _ ih =>
      rw [List.foldlM_cons, List.foldlM_cons]
      refine (addParameter_parallel hs hab.1 params).bind fun ps qs hps => ?_
      obtain ⟨rfl, -⟩ := hps
      exact ih ps

/-- The closure of a `let`, known by its name if it has one. -/
def letClosure (name : Option String) (params : List String) (body : Value) (scope : Ref)
    (s : Store) : Value × Store :=
  match name with
  | some name => s.newLoop scope name params none body
  | none => s.newClosure { name := none, params, rest := none, body, scope }

theorem letClosure_made (hs : Similar ρ s t) {a b : Ref} (hscope : ρ .scope a b)
    (name : Option String) (params : List String) {body body' : Value}
    (hbody : BodyOf ρ s t cs ds body body') :
    ∃ ρ', ClosureMade ρ s t cs ds ρ' (letClosure name params body a s).2
      (letClosure name params body' b t).2 (letClosure name params body a s).1
      (letClosure name params body' b t).1 := by
  cases name with
  | none =>
      exact closureMade (hs.newClosure (c := ⟨none, params, none, body, a⟩)
        (d := ⟨none, params, none, body', b⟩) ⟨rfl, rfl, rfl, hscope⟩) (s.keeps_newClosure _)
        (t.keeps_newClosure _) rfl rfl rfl rfl hbody
  | some name =>
      exact closureMade (hs.newLoop hscope name params none body body')
        ((s.keeps_pushScope _).trans (Store.keeps_newClosure _ _))
        ((t.keeps_pushScope _).trans (Store.keeps_newClosure _ _)) rfl rfl rfl rfl hbody

/-- Both computations make a closure and a list that applies it to the expressions of a `let`, which
are found in the list of bindings; or both stop for the same reason. -/
def AppliesLet (ρ : Renaming) (s t : Store) (cs ds : List Ref) (x y : Eval Value) : Prop :=
  (∃ ρ' s' t' p q cb vs ws, ClosureMade ρ s t cs ds ρ' s' t' p q ∧ p.isProcedure = true ∧
      (∃ c ∈ cs, s.ListAt (s.car c) cb) ∧
      List.Forall₂ (fun c v => ∃ x y, s.ListAt (s.car c) [x, y] ∧ s.car y = v) cb vs ∧
      List.Forall₂ (Related ρ) vs ws ∧
      x.run s = .ok (s'.list (p :: vs)).1 (s'.list (p :: vs)).2 ∧
      y.run t = .ok (t'.list (q :: ws)).1 (t'.list (q :: ws)).2) ∨
    ∃ e, x.run s = .error (.error e) s ∧ y.run t = .error (.error e) t

theorem letApplication_appliesLet (hs : Similar ρ s t) (h : Listed ρ s t v w cs ds) {a b : Ref}
    (hscope : ρ .scope a b) : AppliesLet ρ s t cs ds (letApplication v a) (letApplication w b) := by
  rw [AppliesLet, letApplication, letApplication]
  rcases letParts_parallel hs h with ⟨parts, parts', hl, hr, hname, hbindings, hfrom, hbody⟩ |
    ⟨e, hl, hr⟩
  · rw [Eval.run_bind_ok hl, Eval.run_bind_ok hr, Eval.run_ask_bind, Eval.run_ask_bind]
    cases hlist : s.isList parts.bindings with
    | false =>
        have hlist' := (hs.isList_eq hbindings).symm.trans hlist
        rw [Store.elements?_of_not_isList hlist, Store.elements?_of_not_isList hlist']
        exact .inr (misfit_eq _ h hs)
    | true =>
        obtain ⟨cb, db, hb, -⟩ := hs.listed hbindings hlist
        rw [hb.left.elements?_eq, hb.right.elements?_eq]
        rcases letBindings_parallel hs hb.elements with ⟨as, bs, has, hbs, hpairs, hwhere⟩ |
          ⟨e, hl, hr⟩
        · rw [Eval.run_bind_ok has, Eval.run_bind_ok hbs, Eval.run_bind_ok hbody.run_checkBody.1,
            Eval.run_bind_ok hbody.run_checkBody.2]
          rcases letNames_parallel hs hpairs [] with ⟨params, _, hps, hqs, rfl⟩ | ⟨e, hl, hr⟩
          · rw [Eval.run_bind_ok hps, Eval.run_bind_ok hqs]
            have hvalues : List.Forall₂ (Related ρ) (as.map Prod.snd) (bs.map Prod.snd) := by
              rw [List.forall₂_map_left_iff, List.forall₂_map_right_iff]
              exact hpairs.imp fun _ _ hab => hab.2
            have hplaces : List.Forall₂ (fun c v => ∃ x y, s.ListAt (s.car c) [x, y] ∧ s.car y = v)
                cb (as.map Prod.snd) := by
              rwa [List.forall₂_map_right_iff]
            have hfrom' : ∃ c ∈ cs, s.ListAt (s.car c) cb := by
              obtain ⟨c, hc, hcar⟩ := hfrom
              exact ⟨c, hc, hcar ▸ hb.left⟩
            obtain ⟨ρ', hmade⟩ := letClosure_made hs hscope parts.name params hbody
            refine .inl ⟨ρ', _, _, _, _, cb, _, _, hmade, ?_, hfrom', hplaces, hvalues, ?_, ?_⟩
            · cases parts.name <;> rfl
            · cases hn : parts.name <;> rfl
            · rw [← hname]
              cases hn : parts.name <;> rfl
          · exact .inr ⟨e, Eval.run_bind_error hl, Eval.run_bind_error hr⟩
        · exact .inr ⟨e, Eval.run_bind_error hl, Eval.run_bind_error hr⟩
  · exact .inr ⟨e, Eval.run_bind_error hl, Eval.run_bind_error hr⟩

end Form
end
end LittleScheme
