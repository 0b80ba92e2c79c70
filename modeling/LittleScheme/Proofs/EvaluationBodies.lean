import LittleScheme.Proofs.EvaluationCalls

/-!
# Procedures in library code

A closure enters a scope of its own and evaluates its body there. A native procedure answers with a
value, and `apply` with a call. Of a procedure that library code is handed nothing is known but what
holds of every call: it stays in its realm.
-/
namespace LittleScheme

open Eval (Ends Fuelled untraced)

/-! ### Entering a closure -/

namespace Store

theorem GrowsTo.bind {s t : Store} (h : s.GrowsTo t) {r : Ref} (hr : s.scopes.size ≤ r) (name : String)
    (v : Value) : s.GrowsTo (t.bind r name v) := by
  refine ⟨⟨fun k => ?_, fun k q hq => ?_⟩, h.rest⟩
  · refine Nat.le_trans (h.keeps.count k) ?_
    cases k with
    | scope => exact (size_scopes_bind t r name v).ge
    | _ => exact Nat.le_refl _
  · cases k with
    | scope =>
        have hne : q ≠ r := fun heq => Nat.not_lt.2 hr (heq ▸ hq)
        exact (scope_bind_of_ne hne name v).trans (h.keeps.same .scope q hq)
    | pair => exact h.keeps.same .pair q hq
    | string => exact h.keeps.same .string q hq
    | vector => exact h.keeps.same .vector q hq
    | bytes => exact h.keeps.same .bytes q hq
    | closure => exact h.keeps.same .closure q hq
    | port => exact h.keeps.same .port q hq

theorem GrowsTo.bindAll {s t : Store} (h : s.GrowsTo t) {r : Ref} (hr : s.scopes.size ≤ r)
    (bindings : List (String × Value)) : s.GrowsTo (t.bindAll r bindings) := by
  induction bindings generalizing t with
  | nil => exact h
  | cons b bindings ih => exact ih (h.bind hr b.1 b.2)

theorem growsTo_enterCall (s : Store) (r : Ref) (args : List Value) : s.GrowsTo (s.enterCall r args).2 := by
  have hfixed := (GrowsTo.pushScope s { parent := some (s.closure r).scope, caller := some r }).bindAll
    (Nat.le_refl s.scopes.size) ((s.closure r).params.zip args)
  cases hrest : (s.closure r).rest with
  | none =>
      simp only [enterCall, hrest]
      exact hfixed
  | some rest =>
      simp only [enterCall, hrest]
      exact (hfixed.trans (.list _ _)).bind (Nat.le_refl _) rest _

/-- The pairs that are made as a closure is entered. -/
def Entered (t : Store) (r : Ref) (args : List Value) (q : Ref) : Prop :=
  t.pairs.size ≤ q ∧ q < (t.enterCall r args).2.pairs.size

end Store

namespace Direct

theorem run_eval_bool (n : Nat) (b : Bool) (scope : Ref) (t : Store) :
    (eval (n + 1) (.bool b) scope).run t = .ok (.bool b) t := by
  unfold eval
  rfl

end Direct

namespace Evaluator

variable {e : Evaluator} {K : Exits} {g : Estate} {s t : Store} {v : Value} {scope : Ref}
  {Q : Estate → Value → Store → Prop}

/-! ### Bodies -/

/-- The value of a body with the given expressions. -/
def YieldsBody (e : Evaluator) (K : Exits) (g : Estate) (s : Store) (vs : List Value) (scope : Ref)
    (Q : Estate → Value → Store → Prop) : Prop :=
  g.Holds s → ∀ t, Calm g.kept s t → ∀ d, g.Awaits t d [] → ∀ body cs, t.ListAt body cs →
    cs.map t.car = vs → (∀ c ∈ cs, ¬ g.realm.shared .pair c c) →
    Does K (fun n => e.evalBodyTo n d body scope) t fun v t' =>
      e.Landed d t v t' ∧ g.Comes (fun r => d = some r) t Q v t'

theorem does_evalBodyTo {limit : Nat} {d : Option Ref} {body : Value}
    (h : Does K (fun n => do Machine.run limit n { frames := ← Frame.ofBody body scope d }) t
      (Machine.Yields d [] g t Q)) :
    Does K (fun n => evalBodyTo ⟨.stack, limit⟩ n d body scope) t fun v t' =>
      Landed ⟨.stack, limit⟩ d t v t' ∧ g.Comes (fun r => d = some r) t Q v t' := by
  have hwritten : ∀ r : Ref, r ∈ ([] : List Ref) ∨ d = some r → d = some r := fun r hr => hr.resolve_left nofun
  cases d with
  | none =>
      refine h.mono ?_
      rintro _ t' ⟨v, ⟨rfl, hlands⟩, g', s', hadvances, hcomes⟩
      exact ⟨fun _ => hlands, g', s', hadvances.restrict fun r hr => .inl (hwritten r hr), hcomes⟩
  | some c =>
      have hboth : Does K (fun n => (do Machine.run limit n { frames := ← Frame.ofBody body scope (some c) }) >>=
          fun _ => Eval.ask fun s => s.car c) t fun v t' =>
          Landed ⟨.stack, limit⟩ (some c) t v t' ∧ g.Comes (fun r => some c = some r) t Q v t' := by
        refine h.bind (fun n => .bind_same _ fun frames => Machine.run_fuelled limit _ n)
          (fun _ _ => .refl _) ?_
        rintro _ t' ⟨v, ⟨rfl, hlands⟩, g', s', hadvances, hcomes⟩
        have hv : t'.car c = v := congrArg Pair.car (hlands c rfl)
        have hends : Ends (fun _ => Eval.ask fun s => s.car c) t' (.ok v t') :=
          ⟨nofun, 0, fun _ _ => by rw [← hv]; rfl⟩
        exact .of_ok hends
          ⟨fun _ => hlands, g', s', hadvances.restrict fun r hr => .inl (hwritten r hr), hcomes⟩
      exact hboth.of_iff fun _ => Eval.ends_congr 0 0 fun fuel _ => by simp only [bind_assoc]; rfl

/-- A body of one expression. -/
theorem yieldsBody_single (hv : g.realm.Plain v) (h : e.Yields K g s v scope Q) :
    e.YieldsBody K g s [v] scope Q := by
  intro hg t hcalm d hd body cs hlist hcars hfree
  obtain ⟨b, rfl, rfl⟩ : ∃ b, cs = [b] ∧ t.car b = v := by simpa [List.map_eq_cons_iff] using hcars
  obtain ⟨rfl, hcdr⟩ := hlist.1
  have hgt := hg.calm hcalm
  obtain ⟨strategy, limit⟩ := e
  cases strategy with
  | recursive =>
      refine (does_evalBody hcdr.1 (h hg t hcalm)).mono fun v t' hcomes => ⟨nofun, ?_⟩
      exact hcomes.after hgt.refl nofun
  | stack =>
      obtain ⟨C, hcopy, hC⟩ := hgt.copySpine hv
      have hgrows := Estate.growsTo_copySpine t (t.car b)
      have hadvances : g.Advances (· ∈ []) t g (t.copySpine (t.car b)).2 := hgt.advances_growsTo hgrows
      have hframes : (Frame.ofBody (.pair b) scope d).run t =
          .ok [.fresh scope d (t.copySpine (t.car b)).1] (t.copySpine (t.car b)).2 := by
        rw [Frame.run_ofBody, hlist.elements_eq]
        rfl
      have hyields := h hg _ (hcalm.trans (.of_growsTo hgrows hgt.bound)) _ C d hcopy
        (hd.advance hadvances fun c hc hmem => absurd (hC c hmem).1 (Nat.not_le.2 hc))
      refine does_evalBodyTo ((hyields.mono fun u t' hu => ?_).of_iff fun _ =>
        Eval.ends_congr 0 0 fun fuel _ => congrArg untraced (Eval.run_bind_ok hframes))
      exact hu.after hgt hadvances (fun c hc => .inr (hC c hc).1) hd

/-! ### A body that ends in the void value -/

/-- The elements of `(if #f #f)`, an expression without a value. -/
def voidElements : List Value := [.keyword .ifThen, .bool false, .bool false]

theorem parts_of_void {r : Ref} {cs : List Ref} (hcars : (r :: cs).map t.car = voidElements) :
    t.car r = .keyword .ifThen ∧
      ∃ c₁ c₂, cs = [c₁, c₂] ∧ t.car c₁ = .bool false ∧ t.car c₂ = .bool false := by
  simpa [voidElements, List.map_eq_cons_iff] using hcars

theorem run_evalBody_void {b : Ref} {last : Value} (hg : g.Holds t) (hx : g.realm.Text (t.car b))
    (helements : t.elements (t.car b) = voidElements) (hcdr : t.cdr b = .nil) :
    (Direct.evalBody 4 last (.pair b) scope).run t = .ok .void t := by
  obtain ⟨r, hr, htext⟩ := hx
  obtain ⟨cs, hlist, -⟩ := hg.realm.text_list htext
  rw [hr, hlist.elements_eq] at helements
  obtain ⟨hhead, c₁, c₂, rfl, h₁, -⟩ := parts_of_void helements
  have hparts := Form.run_conditional hlist.tail (by simp)
  have heval : (Direct.eval 3 (.pair r) scope).run t = .ok .void t := by
    rw [Direct.eval, Eval.run_ask_bind]
    simp only [hlist.isList, if_true]
    rw [Direct.evalForm]
    simp only [Eval.run_ask_bind, hhead]
    rw [Eval.run_bind_ok hparts, Eval.run_ask_bind, h₁, Eval.run_bind_ok (Direct.run_eval_bool 0 false scope t)]
    rfl
  rw [Direct.evalBody, Eval.run_ask_bind, Eval.run_ask_bind, hr, Eval.run_bind_ok heval, hcdr,
    Direct.run_evalBody_nil]

/-- The frame of such an expression delivers the void value, whatever the result was before. -/
theorem reaches_void (limit : Nat) (scope : Ref) (d : Option Ref) (x : Value) {r c₁ c₂ : Ref}
    (hlist : t.ListAt (.pair r) [r, c₁, c₂]) (hhead : t.car r = .keyword .ifThen)
    (h₁ : t.car c₁ = .bool false) :
    Machine.Reaches limit (⟨[.fresh scope d (.pair r)], x, []⟩, t)
      (match d with
        | none => (⟨[], .void, []⟩, t)
        | some c => (⟨[], x, []⟩, t.setCar c .void)) := by
  have hparts := Form.run_conditional hlist.tail (by simp)
  have hstep : ∀ f : Frame, f.expr = .pair r → f.step.run t = (do
      if !f.pushed then Frame.await f (.bool false) c₁ else return .value .void :
        Eval Frame.Transition).run t := by
    intro f hf
    rw [Machine.IsForm.run_step ⟨hf, by rw [hf]; exact hlist.isList, hhead⟩]
    refine (Eval.run_bind_ok hparts).trans ?_
    rw [Eval.run_ask_bind, h₁]
    cases f.pushed <;> rfl
  have hset : t.setCar c₁ (.bool false) = t := h₁ ▸ t.setCar_car c₁
  let f : Frame := .fresh scope d (.pair r)
  have hwaits : Machine.Next limit (⟨[f], x, []⟩, t)
      (⟨[.fresh scope (some c₁) (.bool false), { f with pushed := true }], x, []⟩, t) :=
    Machine.next_cons_iff.2 ⟨_, _, hstep f rfl, rfl⟩
  have harrives : Machine.Next limit
      (⟨[.fresh scope (some c₁) (.bool false), { f with pushed := true }], x, []⟩, t)
      (⟨[{ f with pushed := true }], x, []⟩, t) :=
    Machine.next_cons_iff.2 ⟨.value (.bool false), t, rfl, congrArg (EStateM.Result.ok _) hset⟩
  refine (hwaits.reaches.trans harrives.reaches).trans (Machine.Next.reaches ?_)
  refine Machine.next_cons_iff.2 ⟨.value .void, t, hstep _ rfl, ?_⟩
  cases d <;> rfl

/-- A body of an expression and one without a value. -/
theorem yieldsBody_void {x : Value} (hv : g.realm.Plain v) (hx : g.realm.Text x)
    (helements : s.elements x = voidElements)
    (h : e.Yields K g s v scope fun g' _ s' => Q g' .void s') :
    e.YieldsBody K g s [v, x] scope Q := by
  intro hg t hcalm d hd body cs hlist hcars hfree
  obtain ⟨b, b', rfl, rfl, rfl⟩ : ∃ b b', cs = [b, b'] ∧ t.car b = v ∧ t.car b' = x := by
    simpa [List.map_eq_cons_iff] using hcars
  obtain ⟨rfl, hb, hb'⟩ := hlist.1
  have hgt := hg.calm hcalm
  have helements' : t.elements (t.car b') = voidElements := (hg.elements_calm hcalm hx).trans helements
  obtain ⟨strategy, limit⟩ := e
  cases strategy with
  | recursive =>
      have hboth : Does K (fun n => Direct.eval n (t.car b) scope >>= fun u =>
          Direct.evalBody n u (.pair b') scope) t (g.Comes (fun _ => False) t Q) := by
        refine (h hg t hcalm).bind (Direct.eval_fuelled _ scope)
          (fun u n => Direct.evalBody_prolongs n u _ scope) ?_
        rintro u t' ⟨g', s', hadvances, hholds, hcalm', hq⟩
        have hsame : t'.pair b' = t.pair b' :=
          hadvances.pair_eq (hlist.2 b' (by simp)) (hfree b' (by simp)) not_false
        have hcar := Store.car_eq_of_pair_eq hsame
        have hrun : (Direct.evalBody 4 u (.pair b') scope).run t' = .ok .void t' :=
          run_evalBody_void hadvances.holds (hcar ▸ hadvances.becomes.text_value hx)
          (by rw [hcar, hadvances.becomes.elements_text hgt.realm hx, helements'])
          ((Store.cdr_eq_of_pair_eq hsame).trans hb'.1)
        have hends : Ends (fun n => Direct.evalBody n u (.pair b') scope) t' (.ok .void t') :=
          Fuelled.ends (fun n => Direct.evalBody_prolongs n u _ scope) (congrArg untraced hrun) nofun
        exact .of_ok hends ⟨g', s', hadvances, hholds, hcalm', hq⟩
      refine (hboth.of_iff fun _ => Eval.ends_congr 1 0 fun fuel _ => ?_).mono fun v t' hcomes =>
        ⟨nofun, hcomes.after hgt.refl nofun⟩
      change untraced ((Direct.evalBody (fuel + 1) .void (.pair b) scope).run t) = _
      rw [Direct.evalBody, Eval.run_ask_bind, Eval.run_ask_bind, hb]
  | stack =>
      -- The copies for both expressions are made before the first is evaluated.
      obtain ⟨C₁, hcopy₁, hC₁⟩ := hgt.copySpine hv
      have hgrows₁ := Estate.growsTo_copySpine t (t.car b)
      have hadvances₁ : g.Advances (· ∈ []) t g (t.copySpine (t.car b)).2 := hgt.advances_growsTo hgrows₁
      have hframes : (Frame.ofBody (.pair b) scope d).run t =
          .ok [.fresh scope d (t.copySpine (t.car b)).1,
            .fresh scope d ((t.copySpine (t.car b)).2.copySpine (t.car b')).1]
            ((t.copySpine (t.car b)).2.copySpine (t.car b')).2 := by
        rw [Frame.run_ofBody, hlist.elements_eq]
        rfl
      generalize t.copySpine (t.car b) = made₁ at *
      obtain ⟨x₁, t₁⟩ := made₁
      obtain ⟨C₂, hcopy₂, hC₂⟩ := hadvances₁.holds.copySpine (.inr hx)
      have hgrows₂ := Estate.growsTo_copySpine t₁ (t.car b')
      have hadvances₂ : g.Advances (· ∈ []) t₁ g (t₁.copySpine (t.car b')).2 :=
        hadvances₁.holds.advances_growsTo hgrows₂
      generalize t₁.copySpine (t.car b') = made₂ at *
      obtain ⟨x₂, t₂⟩ := made₂
      have hgrows := hgrows₁.trans hgrows₂
      have hadvances : g.Advances (· ∈ []) t g t₂ := hgt.advances_growsTo hgrows
      have hawaits : g.Awaits t₂ d C₁ :=
        hd.advance hadvances fun c hc hmem => absurd (hC₁ c hmem).1 (Nat.not_le.2 hc)
      have hyields := h hg t₂ (hcalm.trans (.of_growsTo hgrows hgt.bound)) x₁ C₁ d
        (hcopy₁.advance hadvances₁.holds hadvances₂ (by simp)) hawaits
      refine does_evalBodyTo (Does.of_iff (x := fun n => Machine.run limit n
        ⟨[.fresh scope d x₁] ++ [.fresh scope d x₂], .void, []⟩) (s := t₂) ?_ fun _ =>
        Eval.ends_congr 0 0 fun fuel _ => congrArg untraced (Eval.run_bind_ok hframes))
      refine Machine.does_stack hyields ?_
      rintro _ t' ⟨u, ⟨rfl, hlands⟩, g', s', hadvances', hholds, hcalm', hq⟩
      have hC : ∀ c ∈ C₂, ¬ (c ∈ C₁ ∨ d = some c) := by
        rintro c hc (hmem | hmem)
        · exact Nat.not_lt.2 (hC₂ c hc).1 (hC₁ c hmem).2
        · exact Nat.not_lt.2 (Nat.le_trans hgrows₁.size_le (hC₂ c hc).1) (hd c hmem).1
      have hcopy := hcopy₂.advance hadvances.holds hadvances' hC
      have helements'' : t'.elements (t.car b') = voidElements :=
        (hadvances'.becomes.elements_text hadvances.holds.realm hx).trans
          ((hadvances.becomes.elements_text hgt.realm hx).trans helements')
      have htotal : g.Advances (fun r => d = some r) t g' t' :=
        (hadvances.restrict (by simp)).trans hadvances' fun r hr => hr.symm.imp_right fun hr => (hC₁ r hr).1
      cases hcopy with
      | atom hatom => exact absurd hx.isPair (by simp [hatom])
      | list _ hlist' hcars' =>
          obtain ⟨hhead, c₁, c₂, rfl, h₁, -⟩ := parts_of_void (hcars'.trans helements'')
          have hreaches := fun x => reaches_void limit scope d x hlist' hhead h₁
          cases d with
          | none =>
              refine .of_ok ((Machine.ends_iff_of_reaches (hreaches _)).2 (Machine.ends_done .void t')) ?_
              exact ⟨.void, ⟨rfl, nofun⟩, g', s', htotal.restrict nofun, hholds, hcalm', hq⟩
          | some c =>
              obtain ⟨hlt, hkept, -⟩ := hd c rfl
              have hset : Calm g'.kept t' (t'.setCar c .void) :=
                .setCar (htotal.not_kept hlt hkept) t' .void
              refine .of_ok ((Machine.ends_iff_of_reaches (hreaches _)).2
                (Machine.ends_done .void (t'.setCar c .void))) ?_
              refine ⟨.void, ⟨rfl, ?_⟩, g', s', (htotal.restrict fun _ hr => .inl (.inr hr)).trans
                (htotal.holds.advances (W := (· = c)) hset fun r _ hr => Store.pair_setCar_ne hr .void)
                fun r hr => .inl (.inr (congrArg some hr.symm)), hholds, hcalm'.trans hset, hq⟩
              rintro _ ⟨⟩
              rw [Store.pair_setCar, if_pos ⟨rfl, Nat.lt_of_lt_of_le hlt htotal.size_le⟩, hlands c rfl,
                Store.cdr_eq_of_pair_eq (hgrows.pair_eq hlt)]

/-! ### Closures -/

theorem yieldsCall_closure {r : Ref} {args : List Value} {cs : List Ref} (hr : r < s.closures.size)
    (harity : (s.closure r).arity.accepts args.length = true)
    (hbody : s.ListAt (s.closure r).body cs) (hkept : ∀ c ∈ cs, g.kept c)
    (hfree : ∀ c ∈ cs, ¬ g.realm.shared .pair c c)
    (h : ∀ t, Calm g.kept s t → e.YieldsBody K (g.keep (t.Entered r args)) (t.enterCall r args).2
      (cs.map s.car) t.scopes.size Q) : e.YieldsCall K g s (.closure r) args Q := by
  intro hg t hcalm d hd
  have hgt := hg.calm hcalm
  have hclosure := hcalm.closure_eq hr
  have hgrows := t.growsTo_enterCall r args
  have hadvances : g.Advances (fun _ => False) t (g.keep (t.Entered r args)) (t.enterCall r args).2 :=
    (hgt.advances_growsTo hgrows).keep fun _ hq => hq
  have hcalm' : Calm g.kept s (t.enterCall r args).2 := hcalm.trans (.of_growsTo hgrows hgt.bound)
  have hbody' := hcalm'.listAt hbody hkept
  have hdoes := h t hcalm hadvances.holds _ (.refl _ _) d (hd.advance hadvances fun _ _ => nofun) _ cs
    hbody' (hcalm'.map_car hkept) hfree
  have henter : (Eval.enterCall r args).run t = .ok t.scopes.size (t.enterCall r args).2 := by
    rw [Eval.run_enterCall, hclosure, if_pos harity, Store.fst_enterCall]
  refine (hdoes.of_iff fun _ => Eval.ends_congr 0 0 fun fuel _ => ?_).mono fun v t' ⟨hlanded, hcomes⟩ => ⟨?_, ?_⟩
  · rw [callTo, Eval.run_bind_ok henter, Eval.run_ask_bind, hcalm'.closure_eq hr]
    rfl
  · intro hstack c hc
    rw [hlanded hstack c hc, Store.cdr_eq_of_pair_eq (hgrows.pair_eq (hd c hc).1)]
  · exact hcomes.after (hadvances.restrict fun _ => False.elim) fun _ => .inl

/-! ### Native procedures -/

/-- A value that has come is brought to where it is wanted. -/
theorem lands {d : Option Ref} {t' : Store} (hg : g.Holds t) (hd : g.Awaits t d [])
    (h : g.Comes (fun _ => False) t Q v t') : ∃ t'', (e.land d v).run t' = .ok v t'' ∧
      e.Landed d t v t'' ∧ g.Comes (fun r => d = some r) t Q v t'' := by
  unfold land
  obtain ⟨g', s', hadvances, hholds, hcalm, hq⟩ := h
  split
  · rename_i c _
    obtain ⟨hlt, hkept, -⟩ := hd c rfl
    have hset : Calm g'.kept t' (t'.setCar c v) := .setCar (hadvances.not_kept hlt hkept) t' v
    refine ⟨t'.setCar c v, rfl, ?_, g', s', (hadvances.restrict fun _ => False.elim).trans
      (hadvances.holds.advances (W := (· = c)) hset fun r _ hr => Store.pair_setCar_ne hr v)
      fun r hr => .inl (congrArg some hr.symm), hholds, hcalm.trans hset, hq⟩
    rintro - _ ⟨⟩
    rw [Store.pair_setCar, if_pos ⟨rfl, Nat.lt_of_lt_of_le hlt hadvances.size_le⟩,
      ← Store.cdr_eq_of_pair_eq (hadvances.pair_eq hlt (hg.not_shared hkept) not_false)]
    rfl
  · rename_i hnone
    refine ⟨t', rfl, ?_, g', s', hadvances.restrict fun _ => False.elim, hholds, hcalm, hq⟩
    rintro hstack c rfl
    exact absurd rfl (hnone c hstack)

/-- A native procedure that answers with a value. -/
theorem yieldsCall_native {p : Native} {args : List Value}
    (h : ∀ t, Calm g.kept s t → g.Holds t → ∃ v t', (p.call args).run t = .ok (.value v) t' ∧
      g.Comes (fun _ => False) t Q v t') : e.YieldsCall K g s (.native p) args Q := by
  intro hg t hcalm d hd
  have hgt := hg.calm hcalm
  obtain ⟨v, t', hrun, hcomes⟩ := h t hcalm hgt
  obtain ⟨t'', hland, hlanded⟩ := lands (e := e) hgt hd hcomes
  have hcall : ∀ n, (e.callTo n d (.native p) args).run t = .ok v t'' := fun n =>
    (Eval.run_bind_ok hrun).trans hland
  have hends : Ends (fun n => e.callTo n d (.native p) args) t (.ok v t'') :=
    ⟨nofun, 0, fun n _ => congrArg untraced (hcall n)⟩
  exact .of_ok hends hlanded

/-- The native `apply` calls a procedure with the elements of a list after some other arguments. -/
theorem yieldsCall_apply {f l : Value} {args : List Value} {cs : List Ref} (hf : f.isProcedure = true)
    (hlist : s.ListAt l cs) (hkept : ∀ c ∈ cs, g.kept c)
    (h : e.YieldsCall K g s f (args ++ cs.map s.car) Q) :
    e.YieldsCall K g s (.native (.control .apply)) (f :: (args ++ [l])) Q := by
  intro hg t hcalm d hd
  have hgt := hg.calm hcalm
  have hreply : ((Native.control .apply).call (f :: (args ++ [l]))).run t =
      .ok (.call f (args ++ cs.map t.car)) t :=
    Native.run_call_apply_list hf (hcalm.listAt hlist hkept)
  rw [hcalm.map_car hkept] at hreply
  obtain ⟨t₁, hgrows, hiff⟩ := e.exists_ends_call t hf (args ++ cs.map s.car)
  have hadvances : g.Advances (fun _ => False) t g t₁ := hgt.advances_growsTo hgrows
  have hcall : Does K (fun n => e.apply n f (args ++ cs.map s.car)) t (g.Comes (fun _ => False) t Q) := by
    refine ((h hg t₁ (hcalm.trans (.of_growsTo hgrows hgt.bound)) none nofun).of_iff fun r => ?_).mono
      fun v t' hv => hv.2.after hadvances nofun
    rw [hiff r]
    exact Eval.ends_congr 0 0 fun fuel _ => by rw [callTo_none]; rfl
  have hboth : Does K (fun n => e.apply n f (args ++ cs.map s.car) >>= e.land d) t fun v t' =>
      e.Landed d t v t' ∧ g.Comes (fun r => d = some r) t Q v t' := by
    refine hcall.bind (e.apply_fuelled _ _) (fun _ _ => .refl _) fun v t' hcomes => ?_
    obtain ⟨t'', hland, hlanded⟩ := lands (e := e) hgt hd hcomes
    have hends : Ends (fun _ => e.land d v) t' (.ok v t'') := ⟨nofun, 0, fun _ _ => congrArg untraced hland⟩
    exact .of_ok hends hlanded
  exact hboth.of_iff fun _ => Eval.ends_congr 0 0 fun fuel _ => congrArg untraced (Eval.run_bind_ok hreply)

/-! ### Procedures that are handed in -/

/-- What a call of a procedure within reach comes to is left to the caller to say. -/
theorem yieldsCall_unknown {f : Value} {args : List Value} (hf : g.realm.Shared f)
    (hargs : ∀ v ∈ args, g.realm.Shared v)
    (h : ∀ t d, Calm g.kept s t → g.Awaits t d [] →
      ((∀ r, ¬ Ends (fun n => e.callTo n d f args) t r) → K.escapes) ∧
      (∀ err t', Ends (fun n => e.callTo n d f args) t (.error err t') → K.fails err t') ∧
      ∀ v t' w, Ends (fun n => e.callTo n d f args) t (.ok v t') →
        g.Advances (fun r => d = some r) t (g.reaching w) t' → w.Shared v →
        K.escapes ∨ Q (g.reaching w) v t') : e.YieldsCall K g s f args Q := by
  intro hg t hcalm d hd
  have hgt := hg.calm hcalm
  obtain ⟨hnever, hfails, hok⟩ := h t d hcalm hd
  by_cases hends : ∃ r, Ends (fun n => e.callTo n d f args) t r
  · obtain ⟨r, hends⟩ := hends
    cases r with
    | error err t' => exact .inr (.inl ⟨err, t', hends, hfails err t' hends⟩)
    | ok v t' =>
        obtain ⟨-, n, hn⟩ := id hends
        have hrun := Eval.eq_ok_of_untraced (hn n (Nat.le_refl n))
        have hawaits : Awaits g.realm t d := fun c hc => ⟨(hd c hc).1, hgt.apart (hd c hc).2.1⟩
        have hstays := e.callTo_stays n hgt.realm hawaits hf hargs
        rw [Stays, hrun] at hstays
        obtain ⟨w, hbecomes, hreturned⟩ := hstays
        have hadvances := hgt.reaching hbecomes fun c hc _ => (hreturned.awaits c hc).2.2
        rcases hok v t' w hends hadvances hreturned.shared with hescapes | hq
        · exact .inl hescapes
        · exact .of_ok hends ⟨hreturned.landed, .of_ok hadvances hq⟩
  · exact .inl (hnever fun r hr => hends ⟨r, hr⟩)

end Evaluator
end LittleScheme
