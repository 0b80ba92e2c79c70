import LittleScheme.Proofs.EvaluationBodies

/-!
# Loops in library code

A named `let` makes a closure that is known by its name in a scope of its own, and applies it. On the
stack the body of the closure is a part of the copy that the frame worked on, so this part is kept as
long as the loop runs.
-/
namespace LittleScheme

open Eval (Ends Fuelled untraced)

namespace Form

variable {s : Store}

theorem run_letBindings {bs : List Value} {ps : List (String × Value)}
    (h : List.Forall₂ (fun b p => s.elements? b = some [.symbol p.1, p.2]) bs ps) :
    (bs.mapM letBinding).run s = .ok (ps.map fun p => (.symbol p.1, p.2)) s := by
  induction h with
  | nil => rfl
  | @cons b p bs ps hb _ ih =>
      have hfirst : (letBinding b).run s = .ok (.symbol p.1, p.2) s := by
        rw [letBinding, Eval.run_ask_bind, hb]
        rfl
      rw [List.mapM_cons, Eval.run_bind_ok hfirst, Eval.run_bind_ok ih]
      rfl

theorem run_addParameters (params : List String) (ps : List (String × Value))
    (h : (params ++ ps.map Prod.fst).Nodup) :
    ((ps.map fun p => (Value.symbol p.1, p.2)).foldlM
      (fun params binding => addParameter params binding.1) params).run s =
      .ok (params ++ ps.map Prod.fst) s := by
  induction ps generalizing params with
  | nil =>
      rw [List.map_nil, List.map_nil, List.append_nil]
      rfl
  | cons p ps ih =>
      rw [List.map_cons, List.append_cons] at h
      have hnew : p.1 ∉ params := fun hmem =>
        List.disjoint_of_nodup_append (List.Nodup.of_append_left h) hmem (by simp)
      have hadd : (addParameter params (.symbol p.1)).run s = .ok (params ++ [p.1]) s :=
        run_addParameter_eq_ok.2 ⟨p.1, rfl, hnew, rfl, rfl⟩
      rw [List.map_cons, List.foldlM_cons, Eval.run_bind_ok hadd, ih _ h, List.map_cons, ← List.append_cons]

/-- A named `let` stands for the application of a loop to its initial values. -/
theorem run_letApplication_named (scope : Ref) {operands : Value} {c₁ c₂ c₃ : Ref} {name : String}
    {bs : List Value} {ps : List (String × Value)} (hlist : s.ListAt operands [c₁, c₂, c₃])
    (hname : s.car c₁ = .symbol name) (hbindings : s.elements? (s.car c₂) = some bs)
    (hbs : List.Forall₂ (fun b p => s.elements? b = some [.symbol p.1, p.2]) bs ps)
    (hnodup : (ps.map Prod.fst).Nodup) :
    let s₁ := (s.newLoop scope name (ps.map Prod.fst) none (.pair c₃)).2
    (letApplication operands scope).run s =
      .ok (s₁.list (.closure s.closures.size :: ps.map Prod.snd)).1
        (s₁.list (.closure s.closures.size :: ps.map Prod.snd)).2 := by
  intro s₁
  have hbody : s.cdr c₂ = .pair c₃ := hlist.tail.tail.1.1
  have hparts : (letParts operands).run s = .ok ⟨some name, s.car c₂, .pair c₃⟩ s := by
    rw [run_letParts hlist, hname, ← hbody]
    rfl
  have hcheck : (checkBody (.pair c₃)).run s = .ok () s := run_checkBody (hbody ▸ hlist.tail.tail)
  rw [letApplication, Eval.run_bind_ok hparts, Eval.run_ask_bind, hbindings]
  simp only
  rw [Eval.run_bind_ok (run_letBindings hbs), Eval.run_bind_ok hcheck,
    Eval.run_bind_ok (run_addParameters [] ps hnodup)]
  simp only [List.nil_append, List.map_map]
  rfl

end Form

namespace Estate

variable {W N : Ref → Prop} {g g' : Estate} {t t' : Store}

/-- The estate with fewer pairs that are kept. -/
def drop (g : Estate) (N : Ref → Prop) : Estate := { g with kept := fun r => g.kept r ∧ ¬ N r }

/-- Pairs that were kept for a while are kept no longer. -/
theorem Holds.advances_drop (hg : g.Holds t) (h : (g.keep N).Advances W t g' t')
    (hN : ∀ r, N r → r < t.pairs.size ∧ ¬ g.kept r ∧ ¬ W r) : g.Advances W t (g'.drop N) t' where
  becomes := h.becomes
  holds :=
    { realm := h.holds.realm
      shared := fun r hr => ⟨h.holds.shared hr, fun hn => by
        obtain ⟨hlt, hkept, -⟩ := hN r hn
        rcases h.becomes.gains.fresh hr with hold | ⟨hnew, -⟩
        · exact hkept (hg.shared hold)
        · exact Nat.not_lt.2 hnew hlt⟩
      text := fun r hr => ⟨h.holds.text hr, fun hn => by
        obtain ⟨hlt, hkept, hw⟩ := hN r hn
        rcases h.becomes.newText hr with hold | hnew | hwritten
        · exact hkept (hg.text hold)
        · exact Nat.not_lt.2 hnew hlt
        · exact hw hwritten⟩
      bound := fun r hr => h.holds.bound hr.1 }
  kept r hr := ⟨h.kept (.inl hr), fun hn => (hN r hn).2.1 hr⟩
  fresh r hr := by
    rcases h.fresh hr.1 with (hold | hn) | hnew
    · exact .inl hold
    · exact absurd hn hr.2
    · exact .inr hnew

theorem Comes.drop {Q : Estate → Value → Store → Prop} {v : Value}
    (h : (g.keep N).Comes W t (fun g' => Q (g'.drop N)) v t') (hg : g.Holds t)
    (hN : ∀ r, N r → r < t.pairs.size ∧ ¬ g.kept r ∧ ¬ W r) : g.Comes W t Q v t' := by
  obtain ⟨g', s', hadvances, hholds, hcalm, hq⟩ := h
  have hadvances' := hg.advances_drop hadvances hN
  exact ⟨g'.drop N, s', hadvances', ⟨hholds.realm, hadvances'.holds.shared, hadvances'.holds.text,
    fun _ hr => hholds.bound hr.1⟩, hcalm.mono fun _ hr => hr.1, hq⟩

end Estate

theorem Calm.of_keeps {kept : Ref → Prop} {s t : Store} (h : s.Keeps t) (hconsole : t.console = s.console)
    (hkept : ∀ r, kept r → r < s.pairs.size) : Calm kept s t where
  count := h.count
  pair r hr := h.same .pair r (hkept r hr)
  same k r _ hr := h.same k r hr
  console := hconsole

theorem Store.keeps_newLoop (s : Store) (scope : Ref) (name : String) (params : List String)
    (rest : Option String) (body : Value) : s.Keeps (s.newLoop scope name params rest body).2 :=
  (s.keeps_pushScope _).trans (Store.keeps_newClosure _ _)

/-- A list of new pairs. -/
theorem Store.listAt_list_cons (s : Store) (v : Value) (vs : List Value) :
    ∃ q qs, (s.list (v :: vs)).1 = .pair q ∧ (s.list (v :: vs)).2.ListAt (.pair q) (q :: qs) ∧
      (q :: qs).map (s.list (v :: vs)).2.car = v :: vs ∧ ∀ c ∈ q :: qs, s.pairs.size ≤ c := by
  have hnew := s.listAt_list (v :: vs)
  have hcars := s.map_car_list (v :: vs)
  have hbound : ∀ c ∈ newCells s.pairs.size (v :: vs).length, s.pairs.size ≤ c := fun c hc =>
    (mem_newCells.1 hc).1
  obtain ⟨hhead, -⟩ := hnew.1
  rw [hhead] at hnew ⊢
  exact ⟨_, _, rfl, hnew, hcars, hbound⟩

namespace Evaluator

variable {e : Evaluator} {K : Exits} {g : Estate} {s : Store} {scope : Ref}
  {Q : Estate → Value → Store → Prop}

/-- A named `let` with one expression for its body. -/
theorem yieldsForm_loop {name : String} {bindings a : Value} {bs : List Value}
    {ps : List (String × Value)} (hbindings : g.realm.Text bindings) (hbs : s.elements bindings = bs)
    (hps : List.Forall₂ (fun b p => g.realm.Text b ∧ s.elements b = [.symbol p.1, p.2]) bs ps)
    (hnodup : (ps.map Prod.fst).Nodup)
    (h : ∀ t b N, Calm g.kept s t → t.ListAt (.pair b) [b] → t.car b = a → ¬ g.realm.shared .pair b b →
      (g.keep N).kept b → (∀ r, N r → r < t.pairs.size) →
      e.YieldsForm K (g.keep N) (t.newLoop scope name (ps.map Prod.fst) none (.pair b)).2
        (.closure t.closures.size :: ps.map Prod.snd) scope fun g' => Q (g'.drop N)) :
    e.YieldsForm K g s [.keyword .letIn, .symbol name, bindings, a] scope Q := by
  intro hg t hcalm r cs hlist hcars
  obtain ⟨hhead, hcars⟩ := List.cons.inj hcars
  obtain ⟨c₁, c₂, c₃, rfl, hname, rfl, rfl⟩ : ∃ c₁ c₂ c₃, cs = [c₁, c₂, c₃] ∧ t.car c₁ = .symbol name ∧
      t.car c₂ = bindings ∧ t.car c₃ = a := by simpa [List.map_eq_cons_iff] using hcars
  have hgt := hg.calm hcalm
  have helements : ∀ {v : Value}, g.realm.Text v → t.elements? v = some (s.elements v) := by
    rintro _ ⟨q, rfl, hq⟩
    obtain ⟨cs, hcs, -⟩ := hgt.realm.text_list hq
    rw [← hg.elements_calm hcalm ⟨q, rfl, hq⟩, hcs.elements?_eq, hcs.elements_eq]
  have hbody : t.ListAt (.pair c₃) [c₃] := hlist.tail.tail.tail.1.1 ▸ hlist.tail.tail.tail
  -- The loop's body is kept while it runs, unless it is anyway.
  let N : Ref → Prop := fun q => q = c₃ ∧ ¬ g.kept c₃
  have hkept : (g.keep N).kept c₃ := (Classical.em (g.kept c₃)).imp_right fun h => ⟨rfl, h⟩
  have hN : ∀ q, N q → q < t.pairs.size := by
    rintro _ ⟨rfl, -⟩
    exact hlist.2 _ (by simp)
  have hholds : (g.keep N).Holds t := ⟨hgt.realm, fun _ hr => .inl (hgt.shared hr),
    fun _ hr => .inl (hgt.text hr), fun q hq => hq.elim (fun hq => hgt.bound hq) (hN q)⟩
  have hrun := Form.run_letApplication_named scope hlist.tail hname (helements hbindings)
    (hbs ▸ hps.imp fun b p hb => hb.2 ▸ helements hb.1) hnodup
  have hloop := h t c₃ N hcalm hbody rfl
  have hkeeps := t.keeps_newLoop scope name (ps.map Prod.fst) none (.pair c₃)
  have hsize : (t.newLoop scope name (ps.map Prod.fst) none (.pair c₃)).2.pairs.size = t.pairs.size := rfl
  have hconsole : (t.newLoop scope name (ps.map Prod.fst) none (.pair c₃)).2.console = t.console := rfl
  generalize (t.newLoop scope name (ps.map Prod.fst) none (.pair c₃)).2 = t₁ at *
  have hcalm₁ : Calm (g.keep N).kept t t₁ := .of_keeps hkeeps hconsole hholds.bound
  have hholds₁ := hholds.calm hcalm₁
  obtain ⟨q, qs, hq, hlist', hcars', hnew⟩ := t₁.listAt_list_cons (.closure t.closures.size) (ps.map Prod.snd)
  have hgrows := Store.GrowsTo.list t₁ (.closure t.closures.size :: ps.map Prod.snd)
  have hcalm₂ : Calm (g.keep N).kept t₁ _ := .of_growsTo hgrows hholds₁.bound
  simp only [hq] at hrun
  generalize (t₁.list (.closure t.closures.size :: ps.map Prod.snd)).2 = t₂ at *
  have hadvances : (g.keep N).Advances (fun _ => False) t (g.keep N) t₂ :=
    hholds.advances (hcalm₁.trans hcalm₂) fun c hc _ =>
      (hgrows.pair_eq (hsize ▸ hc)).trans (hkeeps.same .pair c hc)
  have hfree : ∀ c ∈ q :: qs, ¬ (g.keep N).kept c := fun c hc => hholds₁.not_kept (hnew c hc)
  obtain ⟨strategy, limit⟩ := e
  cases strategy with
  | recursive =>
      intro hunshared
      have hdoes := hloop (hunshared c₃ (by simp)) hkept hN hholds₁ t₂ hcalm₂ q qs hlist' hcars'
        fun c hc => hholds₁.not_shared (hfree c hc)
      refine (hdoes.of_iff fun _ => Eval.ends_congr 2 0 fun fuel _ => ?_).mono fun v t' hcomes =>
        (hcomes.after hadvances nofun).drop hgt fun c hc => ⟨hN c hc, hc.1 ▸ hc.2, not_false⟩
      rw [Direct.evalForm]
      simp only [Eval.run_ask_bind, hhead]
      rw [Eval.run_bind_ok hrun, Direct.eval, Eval.run_ask_bind]
      simp only [hlist'.isList, if_true]
  | stack =>
      intro hfree' d hd
      have hgone : ∀ c, N c → ¬ d = some c := by
        rintro _ ⟨rfl, -⟩ hd'
        exact (hd _ hd').2.2 (by simp)
      have hawaits : (g.keep N).Awaits t₂ d (q :: qs) := fun c hc =>
        ⟨Nat.lt_of_lt_of_le (hd c hc).1 hadvances.size_le,
          fun hk => hk.elim (hd c hc).2.1 fun hn => hgone c hn hc,
          fun hmem => Nat.not_lt.2 (hsize ▸ hnew c hmem) (hd c hc).1⟩
      have hdoes := hloop (hgt.not_shared (hfree' c₃ (by simp))) hkept hN hholds₁ t₂ hcalm₂ q qs hlist' hcars'
        hfree d hawaits
      refine Machine.does_step (Machine.IsForm.run_step ⟨rfl, hlist.isList, hhead⟩)
        (Machine.does_suspend (Eval.run_bind_ok hrun) (hdoes.mono ?_))
      rintro u t' ⟨v, ⟨hu, hlands⟩, hcomes⟩
      have hcomes' : g.Comes (fun c => d = some c) t Q v t' := by
        refine (hcomes.after (hadvances.restrict fun _ => False.elim) fun c hc => ?_).drop hgt fun c hc =>
          ⟨hN c hc, hc.1 ▸ hc.2, hgone c hc⟩
        exact hc.symm.imp_right fun hc => hsize ▸ hnew c hc
      refine ⟨v, ⟨hu, fun c hc => ?_⟩, hcomes'.after hgt.refl fun c hc => .inl (.inr hc)⟩
      rw [hlands c hc, Store.cdr_eq_of_pair_eq (hadvances.pair_eq (hd c hc).1
        (hgt.not_shared (hd c hc).2.1) not_false)]

end Evaluator
end LittleScheme
