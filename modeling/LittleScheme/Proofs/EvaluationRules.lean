import LittleScheme.Proofs.Evaluation

/-!
# Rules of evaluation

For each form that library code is written in, what it yields follows from what its parts yield. Every
rule is proved for both strategies, after which nothing depends on them any more.
-/
namespace LittleScheme

open Eval (Ends Fuelled untraced)

/-! ### Names -/

/-- The value of a name as seen from a scope, told by the scopes that are passed. -/
inductive Store.Binds (s : Store) (name : String) (v : Value) : Ref → Prop
  | here {r : Ref} (hr : r < s.scopes.size) (h : (s.scope r).lookup? name = some v) : Binds s name v r
  | outward {r p : Ref} (hr : r < s.scopes.size) (h : (s.scope r).lookup? name = none)
      (hparent : (s.scope r).parent = some p) (hlt : p < r) (hp : Binds s name v p) : Binds s name v r

namespace Store.Binds

variable {s t : Store} {name : String} {v : Value} {r : Ref}

theorem lt (h : s.Binds name v r) : r < s.scopes.size := by
  cases h with
  | here hr => exact hr
  | outward hr => exact hr

theorem findSome? (h : s.Binds name v r) {n : Nat} (hn : r < n) :
    (s.chainWithin n r).findSome? (fun r => (s.scope r).lookup? name) = some v := by
  induction h generalizing n with
  | here hr h =>
      obtain ⟨n, rfl⟩ := Nat.exists_eq_add_of_lt hn
      simp [chainWithin, h]
  | @outward r p hr h hparent hlt hp ih =>
      obtain ⟨k, rfl⟩ : ∃ k, n = k + 1 := ⟨n - 1, by lia⟩
      simp only [chainWithin, hparent, List.findSome?_cons, h]
      exact ih (by lia)

theorem get?_eq (h : s.Binds name v r) : s.get? r name = some v := h.findSome? (Nat.lt_succ_self r)

theorem run_lookup (h : s.Binds name v r) : (Eval.lookup r name).run s = .ok v s := by
  rw [Eval.lookup, Eval.run_ask_bind, h.get?_eq]
  rfl

/-- Only the scopes that are passed matter. -/
theorem congr (h : s.Binds name v r) (hsize : s.scopes.size ≤ t.scopes.size)
    (hsame : ∀ q < s.scopes.size, q ≤ r → t.scope q = s.scope q) : t.Binds name v r := by
  induction h with
  | here hr h =>
      refine .here (Nat.lt_of_lt_of_le hr hsize) ?_
      rw [hsame _ hr (Nat.le_refl _), h]
  | outward hr h hparent hlt hp ih =>
      have heq := hsame _ hr (Nat.le_refl _)
      exact .outward (Nat.lt_of_lt_of_le hr hsize) (by rw [heq, h]) (by rw [heq, hparent]) hlt
        (ih fun q hq hle => hsame q hq (Nat.le_trans hle (Nat.le_of_lt hlt)))

theorem calm {kept : Ref → Prop} (h : s.Binds name v r) (hcalm : Calm kept s t) : t.Binds name v r :=
  h.congr (hcalm.count .scope) fun _ hq _ => hcalm.scope_eq hq

end Store.Binds

/-! ### Steps of a frame -/

namespace Machine

variable {limit : Nat} {K : Exits} {g : Estate} {t t₁ : Store} {f : Frame} {v : Value} {C : List Ref}
  {Q : Estate → Value → Store → Prop}

/-- A frame is followed by its next step. -/
theorem does_step {P : Value → Store → Prop} {x : Eval Frame.Transition}
    (hstep : f.step.run t = x.run t)
    (h : Does K (fun n => x >>= fun transition =>
      advance ⟨[], .void, []⟩ f.destination transition >>= run limit n) t P) :
    Does K (fun n => run limit n ⟨[f], .void, []⟩) t P :=
  h.of_iff fun _ => Eval.ends_congr 1 0 fun _ _ => by
    rw [untraced_run_succ, Eval.run_bind, hstep, ← Eval.run_bind]

theorem does_suspend {P : Value → Store → Prop} {x : Eval Frame.Transition} {f' : Frame}
    {above : List Frame} {d : Option Ref} (hx : x.run t = .ok (.suspend f' above) t₁)
    (h : Does K (fun n => run limit n ⟨above ++ [f'], .void, []⟩) t₁ P) :
    Does K (fun n => x >>= fun transition =>
      advance ⟨[], .void, []⟩ d transition >>= run limit n) t P :=
  h.of_iff fun _ => Eval.ends_congr 0 0 fun _ _ => congrArg untraced (Eval.run_bind_ok hx)

/-- A frame that is done delivers its value. -/
theorem yields_value {x : Eval Frame.Transition} {d : Option Ref} (hg : g.Holds t)
    (hx : x.run t = .ok (.value v) t₁) (hcomes : g.Comes (· ∈ C) t Q v t₁) (hd : g.Awaits t d C) :
    Does K (fun n => x >>= fun transition =>
      advance ⟨[], .void, []⟩ d transition >>= run limit n) t (Yields d C g t Q) := by
  cases d with
  | none =>
      have hends : Ends (fun n => x >>= fun transition =>
          advance ⟨[], .void, []⟩ none transition >>= run limit n) t (.ok v t₁) :=
        (Eval.ends_congr 0 0 fun fuel _ => congrArg untraced (Eval.run_bind_ok hx)).2 (ends_done v t₁)
      obtain ⟨g', s', hadvances, hcomes⟩ := hcomes
      exact .of_ok hends ⟨v, ⟨rfl, nofun⟩, g', s', hadvances.restrict fun _ hr => .inl (.inl hr), hcomes⟩
  | some c =>
      have hends : Ends (fun n => x >>= fun transition =>
          advance ⟨[], .void, []⟩ (some c) transition >>= run limit n) t (.ok .void (t₁.setCar c v)) :=
        (Eval.ends_congr 0 0 fun fuel _ => congrArg untraced (Eval.run_bind_ok hx)).2
          (ends_done .void (t₁.setCar c v))
      obtain ⟨hlt, hkept, hC⟩ := hd c rfl
      obtain ⟨g', s', hadvances, hholds, hcalm, hq⟩ := hcomes
      have hsame := hadvances.pair_eq hlt (hg.not_shared hkept) hC
      have hset : Calm g'.kept t₁ (t₁.setCar c v) := .setCar (hadvances.not_kept hlt hkept) t₁ v
      refine .of_ok hends ⟨v, ⟨rfl, ?_⟩, g', s', (hadvances.restrict fun _ hr => .inl (.inl hr)).trans
        (hadvances.holds.advances (W := (· = c)) hset fun r _ hr => Store.pair_setCar_ne hr v)
        fun r hr => .inl (.inr (congrArg some hr.symm)), hholds, hcalm.trans hset, hq⟩
      rintro _ ⟨⟩
      rw [Store.pair_setCar, if_pos ⟨rfl, Nat.lt_of_lt_of_le hlt hadvances.size_le⟩,
        ← Store.cdr_eq_of_pair_eq hsame]
      rfl

/-- What is yielded later is yielded from before as well. -/
theorem Yields.after {g' : Estate} {t' : Store} {d : Option Ref} {C' : List Ref} {u : Value}
    (h : Yields d C' g' t₁ Q u t') (hg : g.Holds t) (hadvances : g.Advances (· ∈ C) t g' t₁)
    (hC : ∀ c ∈ C', c ∈ C ∨ t.pairs.size ≤ c) (hd : g.Awaits t d C) : Yields d C g t Q u t' := by
  obtain ⟨v, ⟨hu, hlands⟩, hcomes⟩ := h
  refine ⟨v, ⟨hu, fun c hc => ?_⟩, hcomes.after (hadvances.restrict fun _ hr => .inl (.inl hr)) fun r hr => ?_⟩
  · obtain ⟨hlt, hkept, hmem⟩ := hd c hc
    rw [hlands c hc, Store.cdr_eq_of_pair_eq (hadvances.pair_eq hlt (hg.not_shared hkept) hmem)]
  · rcases hr with hr | hr
    · exact (hC r hr).imp_left .inl
    · exact .inl (.inr hr)

/-- A list of a frame's own, one pair of which has received a value. -/
theorem own_received {g' : Estate} {t' : Store} {c : Ref} {u : Value} (hg : g.Holds t)
    (h : g.Advances (· = c) t g' t') (hlist : t.ListAt v C) (hfree : ∀ q ∈ C, ¬ g.kept q)
    (hc : t'.pair c = ⟨u, t.cdr c⟩) :
    t'.ListAt v C ∧ (∀ q ∈ C, q ≠ c → t'.car q = t.car q) ∧ ∀ q ∈ C, ¬ g'.kept q := by
  have hpair : ∀ q ∈ C, q ≠ c → t'.pair q = t.pair q := fun q hq hne =>
    h.pair_eq (hlist.2 q hq) (hg.not_shared (hfree q hq)) hne
  refine ⟨hlist.congr (fun q hq => ?_) h.size_le, fun q hq hne => Store.car_eq_of_pair_eq (hpair q hq hne),
    fun q hq => h.not_kept (hlist.2 q hq) (hfree q hq)⟩
  by_cases hne : q = c
  · subst hne
    rw [Store.cdr, hc]
  · exact Store.cdr_eq_of_pair_eq (hpair q hq hne)

/-- A frame goes on with an expression in tail position. -/
theorem yields_goOn {s : Store} {x : Eval Frame.Transition} (hg : g.Holds s) (hcalm : Calm g.kept s t)
    (hv : g.realm.Plain v) (h : Evaluator.Yields ⟨.stack, limit⟩ K g s v f.scope Q)
    (hd : g.Awaits t f.destination C) (hx : x.run t = (Frame.goOn f v).run t) :
    Does K (fun n => x >>= fun transition =>
      advance ⟨[], .void, []⟩ f.destination transition >>= run limit n) t
      (Yields f.destination C g t Q) := by
  have hgt := hg.calm hcalm
  obtain ⟨C', hcopy, hC'⟩ := hgt.copySpine hv
  have hgrows := Estate.growsTo_copySpine t v
  have hadvances : g.Advances (· ∈ C) t g (t.copySpine v).2 := hgt.advances_growsTo hgrows
  have hawaits : g.Awaits (t.copySpine v).2 f.destination C' :=
    hd.advance hadvances fun c hc hmem => absurd (hC' c hmem).1 (Nat.not_le.2 hc)
  have hgoes := h hg _ (hcalm.trans (.of_growsTo hgrows hgt.bound)) _ C' f.destination hcopy hawaits
  refine does_suspend (hx.trans (Frame.run_goOn f v t)) (hgoes.mono fun u t' hu => ?_)
  exact hu.after hgt hadvances (fun c hc => .inr (hC' c hc).1) hd

/-- A frame waits for the value of an expression in a pair of its own. -/
theorem does_await {s : Store} {x : Eval Frame.Transition} {c : Ref}
    {P : Value → Store → Prop} (hg : g.Holds s) (hcalm : Calm g.kept s t) (hv : g.realm.Plain v)
    (h : Evaluator.Yields ⟨.stack, limit⟩ K g s v f.scope Q) (hc : c < t.pairs.size) (hkept : ¬ g.kept c)
    (hx : x.run t = (Frame.await f v c).run t)
    (hrest : ∀ g' u s' t', g.Advances (· = c) t g' t' → g'.Holds s' → Calm g'.kept s' t' →
      t'.pair c = ⟨u, t.cdr c⟩ → Q g' u s' →
      Does K (fun n => run limit n ⟨[{ f with pushed := true }], .void, []⟩) t' P) :
    Does K (fun n => x >>= fun transition =>
      advance ⟨[], .void, []⟩ f.destination transition >>= run limit n) t P := by
  have hgt := hg.calm hcalm
  obtain ⟨C', hcopy, hC'⟩ := hgt.copySpine hv
  have hgrows := Estate.growsTo_copySpine t v
  have hadvances : g.Advances (· = c) t g (t.copySpine v).2 := hgt.advances_growsTo hgrows
  have hawaits : g.Awaits (t.copySpine v).2 (some c) C' := by
    rintro _ ⟨⟩
    exact ⟨Nat.lt_of_lt_of_le hc hgrows.size_le, hkept, fun hmem => Nat.not_le.2 hc (hC' c hmem).1⟩
  have hgoes := h hg _ (hcalm.trans (.of_growsTo hgrows hgt.bound)) _ C' (some c) hcopy hawaits
  refine does_suspend (hx.trans (Frame.run_await f v c t)) (does_stack hgoes fun u t' hu => ?_)
  obtain ⟨w, ⟨rfl, hlands⟩, g', s', hadvances', hholds, hcalm', hq⟩ := hu
  refine hrest g' w s' t' (hadvances.trans hadvances' fun r hr => ?_) hholds hcalm' ?_ hq
  · rcases hr with hr | hr
    · exact .inr (hC' r hr).1
    · exact .inl (Option.some.inj hr).symm
  · rw [hlands c rfl, Store.cdr_eq_of_pair_eq (hgrows.pair_eq hc)]

end Machine

namespace Evaluator

variable {e : Evaluator} {K : Exits} {g : Estate} {s : Store} {v : Value} {scope : Ref}
  {Q Q' : Estate → Value → Store → Prop}

theorem yields_symbol {name : String} (h : s.Binds name v scope) (hq : Q g v s) :
    e.Yields K g s (.symbol name) scope Q := by
  intro hg t hcalm
  have hrun := (h.calm hcalm).run_lookup
  obtain ⟨strategy, limit⟩ := e
  cases strategy with
  | recursive =>
      have hends : Ends (fun n => Direct.eval n (.symbol name) scope) t (.ok v t) :=
        (Direct.eval_fuelled _ scope).ends (n := 1) (by rw [Direct.eval, hrun]; rfl) nofun
      exact .of_ok hends (.same hg hcalm hq)
  | stack =>
      intro x C d hcopy hd
      cases hcopy with
      | atom =>
          refine Machine.does_step rfl (Machine.yields_value (hg.calm hcalm) ?_ (.same hg hcalm hq) hd)
          exact Eval.run_bind_ok hrun
      | list hv =>
          obtain ⟨r, hr, -⟩ := hv
          cases hr

/-- An expression that stands for itself. -/
theorem yields_constant (hpair : v.isPair = false) (hsymbol : ∀ name, v ≠ .symbol name)
    (hkeyword : ∀ k, v ≠ .keyword k) (hq : Q g v s) : e.Yields K g s v scope Q := by
  intro hg t hcalm
  obtain ⟨strategy, limit⟩ := e
  cases strategy with
  | recursive =>
      have hends : Ends (fun n => Direct.eval n v scope) t (.ok v t) := by
        refine (Direct.eval_fuelled _ scope).ends (n := 1) ?_ nofun
        unfold Direct.eval
        cases v with
        | pair => cases hpair
        | symbol name => exact absurd rfl (hsymbol name)
        | keyword k => exact absurd rfl (hkeyword k)
        | _ => rfl
      exact .of_ok hends (.same hg hcalm hq)
  | stack =>
      intro x C d hcopy hd
      cases hcopy with
      | atom =>
          refine Machine.does_step (x := pure (.value v)) ?_
            (Machine.yields_value (hg.calm hcalm) rfl (.same hg hcalm hq) hd)
          cases v with
          | pair => cases hpair
          | symbol name => exact absurd rfl (hsymbol name)
          | keyword k => exact absurd rfl (hkeyword k)
          | _ => rfl
      | list hv =>
          obtain ⟨r, rfl, -⟩ := hv
          cases hpair

/-! ### Forms -/

theorem yieldsForm_quote (hq : Q g v s) : e.YieldsForm K g s [.keyword .quote, v] scope Q := by
  intro hg t hcalm r cs hlist hcars
  obtain ⟨hhead, hcars⟩ := List.cons.inj hcars
  obtain ⟨c, rfl, rfl⟩ : ∃ c, cs = [c] ∧ t.car c = v := by simpa [List.map_eq_cons_iff] using hcars
  have hrun := Form.run_quotation hlist.tail
  obtain ⟨strategy, limit⟩ := e
  cases strategy with
  | recursive =>
      intro _
      have hends : Ends (fun n => Direct.evalForm n r scope) t (.ok (t.car c) t) := by
        refine Fuelled.ends (fun n => Direct.evalForm_prolongs n r scope) (n := 1) ?_ nofun
        rw [Direct.evalForm]
        simp only [Eval.run_ask_bind, hhead, hrun]
        rfl
      exact .of_ok hends (.same hg hcalm hq)
  | stack =>
      intro _ d hd
      refine Machine.does_step ((Machine.IsForm.run_step ⟨rfl, hlist.isList, hhead⟩)) ?_
      exact Machine.yields_value (hg.calm hcalm) (Eval.run_bind_ok hrun) (.same hg hcalm hq) hd

theorem yieldsForm_if {a b c : Value} (ha : g.realm.Plain a) (hb : g.realm.Plain b)
    (hc : g.realm.Plain c)
    (h : e.Yields K g s a scope fun g' u s' =>
      e.Yields K g' s' (if u.isTrue then b else c) scope Q) :
    e.YieldsForm K g s [.keyword .ifThen, a, b, c] scope Q := by
  intro hg t hcalm r cs hlist hcars
  obtain ⟨hhead, hcars⟩ := List.cons.inj hcars
  obtain ⟨c₁, c₂, c₃, rfl, rfl, rfl, rfl⟩ : ∃ c₁ c₂ c₃, cs = [c₁, c₂, c₃] ∧ t.car c₁ = a ∧
      t.car c₂ = b ∧ t.car c₃ = c := by simpa [List.map_eq_cons_iff] using hcars
  obtain ⟨strategy, limit⟩ := e
  cases strategy with
  | recursive =>
      intro _
      have htest := h hg t hcalm
      have hboth : Does K (fun n => Direct.eval n (t.car c₁) scope >>= fun test =>
          Direct.eval n (if test.isTrue then t.car c₂ else t.car c₃) scope) t
          (g.Comes (fun _ => False) t Q) := by
        refine htest.bind (Direct.eval_fuelled _ scope) (fun _ => Direct.eval_fuelled _ scope) ?_
        rintro u t' ⟨g', s', hadvances, hholds, hcalm', hq⟩
        exact (hq hholds t' hcalm').mono fun _ _ hcomes => hcomes.after hadvances fun _ => False.elim
      refine hboth.of_iff fun _ => Eval.ends_congr 1 0 fun fuel _ => ?_
      have hparts := Form.run_conditional hlist.tail (by simp)
      rw [Direct.evalForm]
      simp only [Eval.run_ask_bind, hhead]
      rw [Eval.run_bind_ok hparts, Eval.run_ask_bind]
      refine congrArg untraced (congrArg (fun y : Eval Value => y.run t) (bind_congr fun test => ?_))
      cases test.isTrue <;> rfl
  | stack =>
      intro hfree d hd
      have hgt := hg.calm hcalm
      have hnodup := hlist.1.nodup
      simp only [List.nodup_cons, List.mem_cons, List.not_mem_nil, or_false, not_or] at hnodup
      obtain ⟨⟨hr₁, hr₂, hr₃⟩, ⟨h₁₂, h₁₃⟩, -⟩ := hnodup
      have hparts := Form.run_conditional hlist.tail (by simp)
      refine Machine.does_step (Machine.IsForm.run_step ⟨rfl, hlist.isList, hhead⟩) ?_
      refine Machine.does_await (c := c₁) hg hcalm ha h (hlist.2 c₁ (by simp)) (hfree c₁ (by simp))
        (Eval.run_bind_ok hparts) fun g' u s' t' hadvances hholds hcalm' hpair hq => ?_
      obtain ⟨hlist', hsame, hfree'⟩ := Machine.own_received hgt hadvances hlist hfree hpair
      have hparts' := Form.run_conditional hlist'.tail (by simp)
      have htest : t'.car c₁ = u := congrArg Pair.car hpair
      have hmem : ∀ q, q = c₁ → q ∈ [r, c₁, c₂, c₃] := by simp
      have hawaits : g'.Awaits t' d [r, c₁, c₂, c₃] := hd.advance hadvances fun _ _ h => h
      refine Machine.does_step (Machine.IsForm.run_step ⟨rfl, hlist'.isList, (hsame r (by simp) hr₁).trans hhead⟩) ?_
      refine (Machine.yields_goOn (C := [r, c₁, c₂, c₃]) (v := if u.isTrue then t.car c₂ else t.car c₃)
        hholds hcalm' ?_ hq hawaits ?_).mono fun w t'' hw =>
          hw.after hgt (hadvances.restrict fun q hq => .inl (hmem q hq)) (fun _ => .inl) hd
      · split
        · exact hadvances.becomes.plain hb
        · exact hadvances.becomes.plain hc
      · refine (Eval.run_bind_ok hparts').trans ?_
        rw [Eval.run_ask_bind, htest]
        simp only [hsame c₂ (by simp) (Ne.symm h₁₂), List.head?_cons, Option.map_some,
          hsame c₃ (by simp) (Ne.symm h₁₃)]
        cases u.isTrue <;> rfl

/-! ### Clauses -/

/-- A body of one expression. -/
theorem does_evalBody {b : Ref} {t : Store} {P : Value → Store → Prop} (hb : t.cdr b = .nil)
    (h : Does K (fun n => Direct.eval n (t.car b) scope) t P) :
    Does K (fun n => Direct.evalBody n .void (.pair b) scope) t P := by
  refine h.of_iff fun _ => Eval.ends_congr 1 1 fun fuel hfuel => ?_
  obtain ⟨n, rfl⟩ := Nat.exists_eq_add_of_le' hfuel
  rw [Direct.evalBody, Eval.run_ask_bind, Eval.run_ask_bind, hb]
  simp only [Direct.evalBody, bind_pure]

/-- The value of the first of some clauses whose test is true. -/
def YieldsClauses (e : Evaluator) (K : Exits) (g : Estate) (s : Store) (vs : List Value) (scope : Ref)
    (Q : Estate → Value → Store → Prop) : Prop :=
  g.Holds s → ∀ t, Calm g.kept s t →
    match e.strategy with
    | .recursive => ∀ v cs, t.ListAt v cs → cs.map t.car = vs →
        (∀ c ∈ cs, ¬ g.realm.shared .pair c c) →
        Does K (fun n => Direct.evalClauses n v scope) t (g.Comes (fun _ => False) t Q)
    | .stack => ∀ f r cs, f.expr = .pair r → f.scope = scope → t.ListAt (.pair r) (r :: cs) →
        t.car r = .keyword .cond → cs.map t.car = vs → (∀ c ∈ r :: cs, ¬ g.kept c) →
        g.Awaits t f.destination (r :: cs) →
        Does K (fun n => Frame.stepCond f r false cs >>= fun transition =>
          Machine.advance ⟨[], .void, []⟩ f.destination transition >>= Machine.run e.traceLimit n) t
          (Machine.Yields f.destination (r :: cs) g t Q)

theorem yieldsForm_cond {vs : List Value} (h : e.YieldsClauses K g s vs scope Q) :
    e.YieldsForm K g s (.keyword .cond :: vs) scope Q := by
  intro hg t hcalm r cs hlist hcars
  obtain ⟨hhead, hcars⟩ := List.cons.inj hcars
  obtain ⟨strategy, limit⟩ := e
  cases strategy with
  | recursive =>
      intro hfree
      have hclauses := h hg t hcalm (t.cdr r) cs hlist.tail hcars fun c hc => hfree c (by simp [hc])
      refine hclauses.of_iff fun _ => Eval.ends_congr 1 0 fun fuel _ => ?_
      rw [Direct.evalForm]
      simp only [Eval.run_ask_bind, hhead]
  | stack =>
      intro hfree d hd
      refine Machine.does_step (x := Frame.stepCond (.fresh scope d (.pair r)) r false cs) ?_
        (h hg t hcalm _ r cs rfl rfl hlist hhead hcars hfree hd)
      rw [Machine.IsForm.run_step ⟨rfl, hlist.isList, hhead⟩, Frame.stepHead, Eval.run_ask_bind,
        hlist.tail.cells_eq]
      rfl

/-- The parts of a clause with one expression after its test. -/
theorem clause_parts {clause test a : Value} {t : Store} (hg : g.Holds t) (hclause : g.realm.Text clause)
    (helements : t.elements clause = [test, a]) :
    ∃ q b, clause = .pair q ∧ g.realm.text q ∧ g.realm.text b ∧ t.isList (.pair q) = true ∧
      t.car q = test ∧ t.cdr q = .pair b ∧ t.car b = a ∧ t.cdr b = .nil := by
  obtain ⟨q, rfl, hq⟩ := hclause
  obtain ⟨cs, hlist, htext⟩ := hg.realm.text_list hq
  rw [hlist.elements_eq] at helements
  obtain ⟨htest, hcs⟩ := List.cons.inj helements
  obtain ⟨b, rfl, hb⟩ : ∃ b, cs = [b] ∧ t.car b = a := by simpa [List.map_eq_cons_iff] using hcs
  obtain ⟨-, hcdr, hnil, -⟩ := hlist.1
  exact ⟨q, b, rfl, hq, htext b (by simp), hlist.isList, htest, hcdr, hb, hnil⟩

/-- The last clause. -/
theorem yieldsClauses_else {clause a : Value} {vs : List Value} (hclause : g.realm.Text clause)
    (helements : s.elements clause = [.keyword .otherwise, a]) (ha : g.realm.Plain a)
    (h : e.Yields K g s a scope Q) : e.YieldsClauses K g s (clause :: vs) scope Q := by
  intro hg t hcalm
  have hgt := hg.calm hcalm
  rw [← hg.elements_calm hcalm hclause] at helements
  obtain ⟨q, b, rfl, hq, hb, hisList, htest, hcdr, rfl, hnil⟩ := clause_parts hgt hclause helements
  have hrun := Form.run_clause hisList
  obtain ⟨strategy, limit⟩ := e
  cases strategy with
  | recursive =>
      intro v cs hlist hcars _
      obtain ⟨c, cs, rfl, hc, -⟩ := List.map_eq_cons_iff.1 hcars
      obtain ⟨rfl, -⟩ := hlist.1
      refine (does_evalBody hnil (h hg t hcalm)).of_iff fun _ => Eval.ends_congr 1 0 fun fuel _ => ?_
      rw [Direct.run_evalClauses_pair fuel scope (hc.symm ▸ hrun), htest]
      simp only [Direct.evalTest, pure_bind, Eval.run_ask_bind, hcdr]
      rfl
  | stack =>
      intro f r cs hf hscope hlist hhead hcars hfree hd
      obtain ⟨c, cs, rfl, hc, -⟩ := List.map_eq_cons_iff.1 hcars
      subst hscope
      refine Machine.yields_goOn hg hcalm ha h hd ?_
      refine Machine.run_stepCond_true (w := .bool true)
        (show (Form.clause (t.car c)).run t = .ok q t from hc.symm ▸ hrun) ?_ rfl ?_ ?_
      · rw [htest]
        rfl
      · rw [hcdr]
        rfl
      · rw [hcdr]
        exact Form.run_sequence_single hnil

/-- A clause whose test has to be evaluated makes way for a pair that waits for the value. -/
theorem run_stepCond_wait {f : Frame} {form c q : Ref} {cs : List Ref} {t : Store}
    (hclause : (Form.clause (t.car c)).run t = .ok q t) (hpair : (t.car q).isPair = true)
    (hneeds : Frame.needsEvaluation t (t.car q) = true) :
    (Frame.stepCond f form false (c :: cs)).run t = (Frame.await f (t.car q) t.pairs.size).run
      ((t.pushPair (t.car q) (t.cdr q)).setCar c (.pair t.pairs.size)) := by
  have hsettled : (Frame.settledTest false (t.car q) f.scope).run t = .ok none t := by
    generalize t.car q = test at hpair hneeds
    cases test with
    | pair r =>
        rw [Frame.settledTest, Frame.settledValue, Frame.trivialValue]
        · simp only [Bool.false_eq_true, if_false, Eval.run_ask_bind, hneeds, if_true]
          rfl
        all_goals simp
    | _ => cases hpair
  rw [Frame.stepCond, Eval.run_ask_bind, Eval.run_bind_ok hclause, Eval.run_ask_bind,
    Eval.run_ask_bind, Eval.run_bind_ok hsettled]
  rfl

/-- A clause whose test has failed is dropped. -/
theorem run_stepCond_drop {f : Frame} {form c q : Ref} {cs : List Ref} {t : Store}
    (hclause : (Form.clause (t.car c)).run t = .ok q t) (hfalse : (t.car q).isTrue = false) :
    (Frame.stepCond f form true (c :: cs)).run t =
      (Frame.stepCond f form false cs).run (t.setCdr form (t.cdr c)) := by
  have hsettled : (Frame.settledTest true (t.car q) f.scope).run t = .ok (some (t.car q)) t := rfl
  rw [Frame.stepCond, Eval.run_ask_bind, Eval.run_bind_ok hclause, Eval.run_ask_bind,
    Eval.run_ask_bind, Eval.run_bind_ok hsettled]
  simp only [hfalse, Bool.false_eq_true, if_false]
  rfl

theorem listAt_drop {t : Store} {r c : Ref} {cs : List Ref} (h : t.ListAt (.pair r) (r :: c :: cs)) :
    (t.setCdr r (t.cdr c)).ListAt (.pair r) (r :: cs) := by
  have hnodup := List.nodup_cons.1 h.1.nodup
  refine ⟨⟨rfl, ?_⟩, fun q hq => ?_⟩
  · rw [Store.cdr_setCdr (h.2 r (by simp))]
    refine h.1.2.2.congr fun q hq => Store.cdr_setCdr_ne ?_ _
    rintro rfl
    exact hnodup.1 (by simp [hq])
  · rw [Store.size_setCdr]
    refine h.2 q ?_
    rcases List.mem_cons.1 hq with rfl | hq
    · simp
    · simp [hq]

/-- A pair that waits for the value of a test has been put in the place of a clause. -/
theorem parked {t : Store} {r c : Ref} {cs : List Ref} (test body : Value) (hg : g.Holds t)
    (hlist : t.ListAt (.pair r) (r :: c :: cs)) (hfree : ∀ d ∈ r :: c :: cs, ¬ g.kept d) :
    let t₁ := (t.pushPair test body).setCar c (.pair t.pairs.size)
    Calm g.kept t t₁ ∧ g.Advances (· ∈ r :: c :: cs) t g t₁ ∧ t₁.ListAt (.pair r) (r :: c :: cs) ∧
      t₁.car c = .pair t.pairs.size ∧ (∀ d ∈ r :: cs, t₁.car d = t.car d) ∧
      t₁.pair t.pairs.size = ⟨test, body⟩ ∧ t.pairs.size < t₁.pairs.size := by
  intro t₁
  have hgrows : t.GrowsTo (t.pushPair test body) := ⟨t.keeps_pushPair _ _, rfl⟩
  have hnew : (t.pushPair test body).pairs.size = t.pairs.size + 1 := Array.size_push _
  have hc : c ∈ r :: c :: cs := by simp
  have hcalm : Calm g.kept t t₁ := (Calm.of_growsTo hgrows hg.bound).trans (.setCar (hfree c hc) _ _)
  have hpair : ∀ d < t.pairs.size, d ≠ c → t₁.pair d = t.pair d := fun d hd hne => by
    rw [Store.pair_setCar_ne hne, hgrows.pair_eq hd]
  have hnodup := hlist.1.nodup
  refine ⟨hcalm, hg.advances hcalm fun d hd hmem => hpair d hd ?_, ?_, ?_, fun d hd => ?_, ?_, ?_⟩
  · rintro rfl
    exact hmem hc
  · refine hlist.congr (fun d hd => ?_) (hcalm.count .pair)
    rw [Store.cdr_setCar, Store.cdr_eq_of_pair_eq (hgrows.pair_eq (hlist.2 d hd))]
  · exact Store.car_setCar (Nat.lt_of_lt_of_le (hlist.2 c hc) hgrows.size_le) _
  · have hd' : d ∈ r :: c :: cs := by
      rcases List.mem_cons.1 hd with rfl | hd
      · simp
      · simp [hd]
    refine Store.car_eq_of_pair_eq (hpair d (hlist.2 d hd') ?_)
    rintro rfl
    simp only [List.nodup_cons, List.mem_cons, not_or] at hnodup
    rcases List.mem_cons.1 hd with rfl | hd
    · exact hnodup.1.1 rfl
    · exact hnodup.2.1 hd
  · rw [Store.pair_setCar_ne (Nat.ne_of_gt (hlist.2 c hc))]
    exact getD_push_self _ _ _
  · rw [Store.size_setCar, hnew]
    exact Nat.lt_succ_self _

/-- A clause is tried, and if its test fails the clauses after it. -/
theorem yieldsClauses_test {clause test a : Value} {vs : List Value} (hclause : g.realm.Text clause)
    (helements : s.elements clause = [test, a]) (htext : g.realm.Text test) (ha : g.realm.Plain a)
    (h : e.Yields K g s test scope fun g' u s' =>
      if u.isTrue then e.Yields K g' s' a scope Q else e.YieldsClauses K g' s' vs scope Q) :
    e.YieldsClauses K g s (clause :: vs) scope Q := by
  intro hg t hcalm
  have hgt := hg.calm hcalm
  rw [← hg.elements_calm hcalm hclause] at helements
  obtain ⟨q, b, rfl, hq, hb, hisList, rfl, hcdr, rfl, hnil⟩ := clause_parts hgt hclause helements
  have hrun := Form.run_clause hisList
  have hother : t.car q ≠ .keyword .otherwise := by
    obtain ⟨r, hr, -⟩ := htext
    rw [hr]
    nofun
  obtain ⟨strategy, limit⟩ := e
  cases strategy with
  | recursive =>
      intro v cs hlist hcars hfree
      obtain ⟨c, cs, rfl, hc, hcars⟩ := List.map_eq_cons_iff.1 hcars
      obtain ⟨rfl, -⟩ := hlist.1
      have hboth : Does K (fun n => Direct.eval n (t.car q) scope >>= fun test =>
          (Eval.ask fun s => s.cdr q) >>= fun body => Direct.evalClause n test body (t.cdr c) scope) t
          (g.Comes (fun _ => False) t Q) := by
        have hfuelled : ∀ test : Value, Fuelled fun n => (Eval.ask fun s => s.cdr q) >>= fun body =>
            Direct.evalClause n test body (t.cdr c) scope := fun test n => .bind_same _ fun body =>
          .ite (.ite (.refl _) (Direct.evalBody_prolongs n _ body scope))
            (Direct.evalClauses_prolongs n _ scope)
        refine (h hg t hcalm).bind (Direct.eval_fuelled _ scope) hfuelled ?_
        rintro u t' ⟨g', s', hadvances, hholds, hcalm', hq'⟩
        have hcdr' : t'.cdr q = .pair b :=
          (Store.cdr_eq_of_pair_eq (hadvances.becomes.text hq).2).trans hcdr
        have hsameb := (hadvances.becomes.text hb).2
        have hnil' : t'.cdr b = .nil := (Store.cdr_eq_of_pair_eq hsameb).trans hnil
        have hafter : ∀ u t'', g'.Comes (fun _ => False) t' Q u t'' → g.Comes (fun _ => False) t Q u t'' :=
          fun _ _ hcomes => hcomes.after hadvances fun _ => False.elim
        cases htrue : u.isTrue with
        | true =>
            rw [if_pos htrue, ← Store.car_eq_of_pair_eq hsameb] at hq'
            refine (does_evalBody hnil' (hq' hholds t' hcalm')).mono hafter |>.of_iff fun _ =>
              Eval.ends_congr 0 0 fun fuel _ => ?_
            rw [Nat.add_zero, Eval.run_ask_bind, hcdr', Direct.evalClause, if_pos htrue]
            rfl
        | false =>
            rw [htrue] at hq'
            have hpair : ∀ d ∈ cs, t'.pair d = t.pair d := fun d hd =>
              hadvances.pair_eq (hlist.2 d (by simp [hd])) (hfree d (by simp [hd])) not_false
            have hlist' := hlist.tail.congr (fun d hd => Store.cdr_eq_of_pair_eq (hpair d hd))
              hadvances.size_le
            have hcars' : cs.map t'.car = vs :=
              (List.map_congr_left fun d hd => Store.car_eq_of_pair_eq (hpair d hd)).trans hcars
            have hfree' : ∀ d ∈ cs, ¬ g'.realm.shared .pair d d := fun d hd =>
              hadvances.becomes.not_shared (k := .pair) (hlist.2 d (by simp [hd])) (hfree d (by simp [hd]))
            refine (hq' hholds t' hcalm' _ cs hlist' hcars' hfree').mono hafter |>.of_iff fun _ =>
              Eval.ends_congr 0 0 fun fuel _ => ?_
            rw [Nat.add_zero, Eval.run_ask_bind, Direct.evalClause, htrue]
            rfl
      refine hboth.of_iff fun _ => Eval.ends_congr 1 0 fun fuel _ => ?_
      rw [Direct.run_evalClauses_pair fuel scope (hc.symm ▸ hrun), Direct.evalTest_eq hother]
  | stack =>
      intro f r cs hf hscope hlist hhead hcars hfree hd
      obtain ⟨c, cs, rfl, hc, hcars⟩ := List.map_eq_cons_iff.1 hcars
      subst hscope
      obtain ⟨hcalm₁, hadvances₁, hlist₁, hpark, hsame₁, hpair₁, hsize₁⟩ :=
        parked (t.car q) (t.cdr q) hgt hlist hfree
      generalize ht₁ : (t.pushPair (t.car q) (t.cdr q)).setCar c (.pair t.pairs.size) = t₁ at *
      have hneeds := hgt.realm.needsEvaluation_text htext
      have hfree₁ : ∀ d ∈ r :: c :: cs, d ≠ t.pairs.size := fun d hd => Nat.ne_of_lt (hlist.2 d hd)
      refine (Machine.does_await (c := t.pairs.size) (Q := _) hg (hcalm.trans hcalm₁) (.inr htext) h hsize₁
        (hgt.not_kept (Nat.le_refl _)) rfl ?_).of_iff fun _ => Eval.ends_congr 0 0 fun fuel _ => ?_
      rotate_left
      · exact congrArg untraced (by
          rw [Nat.add_zero, Eval.run_bind, run_stepCond_wait (hc.symm ▸ hrun) htext.isPair hneeds, ht₁,
            ← Eval.run_bind])
      intro g' u s' t' hadvances hholds hcalm' hpair hq'
      rw [Store.cdr, hpair₁] at hpair
      obtain ⟨hlist', hcars', hfree'⟩ := hadvances.own_list (hgt.calm hcalm₁) hlist₁ hfree hfree₁
      simp only [List.map_cons, List.cons.injEq] at hcars'
      obtain ⟨hr', hc', hcs'⟩ := hcars'
      rw [hsame₁ r (by simp), hhead] at hr'
      rw [hpark] at hc'
      have htotal : g.Advances (· ∈ r :: c :: cs) t g' t' :=
        hadvances₁.trans hadvances fun d hd => .inr (Nat.le_of_eq hd.symm)
      have hsameb := (htotal.becomes.text hb).2
      have hisList' : t'.isList (.pair t.pairs.size) = true := by
        refine Store.isList_of_cdr ?_
        rw [Store.cdr, hpair, hcdr]
        exact (htotal.holds.realm.text (htotal.becomes.text hb).1).list
      have hclause' : (Form.clause (t'.car c)).run t' = .ok t.pairs.size t' := by
        rw [hc']
        exact Form.run_clause hisList'
      have hu : t'.car t.pairs.size = u := congrArg Pair.car hpair
      have hbody' : t'.cdr t.pairs.size = .pair b := (congrArg Pair.cdr hpair).trans hcdr
      have hawaits' := hd.advance htotal fun _ _ h => h
      have hstep : ({ f with pushed := true } : Frame).step.run t' =
          (Frame.stepCond { f with pushed := true } r true (c :: cs)).run t' := by
        rw [Machine.IsForm.run_step (f := { f with pushed := true }) ⟨hf, hf ▸ hlist'.isList, hr'⟩,
          Frame.stepHead, Eval.run_ask_bind, hlist'.tail.cells_eq]
      refine Machine.does_step hstep ?_
      cases htrue : u.isTrue with
      | true =>
          rw [if_pos htrue] at hq'
          refine (Machine.yields_goOn (f := { f with pushed := true }) (C := r :: c :: cs) hholds hcalm'
            (htotal.becomes.plain ha) hq' hawaits' ?_).mono fun w t'' hw =>
              hw.after hgt htotal (fun _ => .inl) hd
          refine Machine.run_stepCond_true hclause' (w := u) (by rw [hu]; rfl) htrue ?_ ?_
          · rw [hbody']
            rfl
          · rw [hbody', ← Store.car_eq_of_pair_eq hsameb]
            exact Form.run_sequence_single ((Store.cdr_eq_of_pair_eq hsameb).trans hnil)
      | false =>
          rw [htrue] at hq'
          have hset : Calm g'.kept t' (t'.setCdr r (t'.cdr c)) := .setCdr (hfree' r (by simp)) _ _
          have hdropped : g.Advances (· ∈ r :: c :: cs) t g' (t'.setCdr r (t'.cdr c)) := by
            refine htotal.trans (htotal.holds.advances (W := (· = r)) hset fun q _ hq =>
              Store.pair_setCdr_ne hq _) fun q hq => .inl ?_
            rw [hq]
            simp
          have hmem : ∀ q ∈ r :: cs, q ∈ r :: c :: cs := by
            intro q hq
            rcases List.mem_cons.1 hq with rfl | hq
            · simp
            · simp [hq]
          have hrest := hq' hholds _ (hcalm'.trans hset) { f with pushed := true } r cs hf rfl
            (listAt_drop hlist') (by rw [Store.car_setCdr, hr'])
            (by rw [← hcars, ← List.map_congr_left fun d hd => hsame₁ d (by simp [hd]), ← hcs']; simp)
            (fun q hq => hfree' q (hmem q hq))
            (hd.advance hdropped fun q _ hq => hmem q hq)
          refine (hrest.mono fun w t'' hw => hw.after hgt hdropped (fun q hq => .inl (hmem q hq)) hd).of_iff
            fun _ => Eval.ends_congr 0 0 fun fuel _ => congrArg untraced ?_
          rw [Nat.add_zero, Eval.run_bind, run_stepCond_drop hclause' (by rw [hu, htrue]), ← Eval.run_bind]

end Evaluator
end LittleScheme
