import LittleScheme.Proofs.EvaluationRules

/-!
# Applications and calls in library code

The operator and the operands of an application are evaluated from left to right, then the procedure
is called. On the stack the frames of all operands are there from the start, each with its copy.
-/
namespace LittleScheme

open Eval (Ends Fuelled untraced)

/-! ### Operands by recursion -/

namespace Evaluator

variable {K : Exits} {P : Value → Store → Prop} {scope : Ref}

theorem does_evalEach {limit : Nat} {G : Nat → List Value → Eval Value} (hG : ∀ us, Fuelled fun n => G n us)
    {vs : List Value} {g : Estate} {s t : Store} {v : Value} {cs : List Ref}
    {Q : Estate → List Value → Store → Prop}
    (h : YieldsEach ⟨.recursive, limit⟩ K g s vs scope Q) (hg : g.Holds s) (hcalm : Calm g.kept s t)
    (hlist : t.ListAt v cs) (hcars : cs.map t.car = vs) (hfree : ∀ c ∈ cs, ¬ g.realm.shared .pair c c)
    (hrest : ∀ g' us s' t', g.Advances (fun _ => False) t g' t' → g'.Holds s' → Calm g'.kept s' t' →
      Q g' us s' → Does K (fun n => G n us) t' P) :
    Does K (fun n => Direct.evalEach n v scope >>= G n) t P := by
  induction vs generalizing g s t v cs Q G with
  | nil =>
      obtain rfl : cs = [] := List.map_eq_nil_iff.1 hcars
      obtain ⟨rfl, -⟩ := hlist.1
      refine (hrest g [] s t (hg.calm hcalm).refl hg hcalm h).of_iff fun r =>
        (Eval.ends_congr 1 0 fun fuel _ => ?_).trans
          (Eval.ends_congr (x := fun n => G n []) (y := fun n => G (n + 1) []) 1 0 fun _ _ => rfl).symm
      rw [Direct.evalEach, pure_bind]
      nofun
  | cons u vs ih =>
      obtain ⟨r, cs, rfl, rfl, rfl⟩ := List.map_eq_cons_iff.1 hcars
      obtain ⟨rfl, -⟩ := hlist.1
      have hboth : Does K (fun n => Direct.eval n (t.car r) scope >>= fun u =>
          Direct.evalEach n (t.cdr r) scope >>= fun us => G (n + 1) (u :: us)) t P := by
        refine (h hg t hcalm).bind (Direct.eval_fuelled _ scope) (fun u n => ?_) ?_
        · exact (Direct.evalEach_prolongs n _ scope).bind fun us => hG (u :: us) (n + 1)
        rintro u t' ⟨g', s', hadvances, hholds, hcalm', hq⟩
        have hpair : ∀ d ∈ cs, t'.pair d = t.pair d := fun d hd =>
          hadvances.pair_eq (hlist.2 d (by simp [hd])) (hfree d (by simp [hd])) not_false
        refine ih (fun us n => hG (u :: us) (n + 1)) hq hholds hcalm'
          (hlist.tail.congr (fun d hd => Store.cdr_eq_of_pair_eq (hpair d hd)) hadvances.size_le)
          (List.map_congr_left fun d hd => Store.car_eq_of_pair_eq (hpair d hd))
          (fun d hd => hadvances.becomes.not_shared (k := .pair) (hlist.2 d (by simp [hd]))
            (hfree d (by simp [hd]))) fun g'' us s'' t'' hadvances' hholds' hcalm'' hq' => ?_
        exact (hrest g'' (u :: us) s'' t'' (hadvances.trans hadvances' fun _ => .inl) hholds' hcalm'' hq').of_iff
          fun _ => (Eval.ends_congr (x := fun n => G n (u :: us)) (y := fun n => G (n + 1) (u :: us)) 1 0
            fun _ _ => rfl).symm
      refine hboth.of_iff fun _ => Eval.ends_congr 1 0 fun fuel _ => ?_
      rw [Direct.evalEach]
      simp only [bind_assoc, pure_bind, Eval.run_ask_bind]

end Evaluator

/-! ### Operands on the stack -/

namespace Estate

/-- The frames of those of some pairs that hold expressions still to be evaluated, with copies made
one after the other from `a` on. -/
inductive Pending (g : Estate) (t : Store) (scope : Ref) : Nat → List Ref → List Frame → Prop
  | nil {a : Nat} : Pending g t scope a [] []
  | settled {a : Nat} {c : Ref} {C : List Ref} {F : List Frame}
      (hneeds : Frame.needsEvaluation t (t.car c) = false) (h : Pending g t scope a C F) :
      Pending g t scope a (c :: C) F
  | waiting {a b : Nat} {c : Ref} {C D : List Ref} {x : Value} {F : List Frame}
      (hneeds : Frame.needsEvaluation t (t.car c) = true) (hcopy : g.Copy t (t.car c) x D)
      (hD : ∀ q ∈ D, a ≤ q ∧ q < b) (hab : a ≤ b) (hb : b ≤ t.pairs.size)
      (h : Pending g t scope b C F) :
      Pending g t scope a (c :: C) (.fresh scope (some c) x :: F)

variable {W : Ref → Prop} {g g' : Estate} {t t' : Store} {v : Value} {scope : Ref}

theorem Advances.needsEvaluation_eq (h : g.Advances W t g' t') (hg : g.Holds t) (hv : g.realm.Plain v) :
    Frame.needsEvaluation t' v = Frame.needsEvaluation t v := by
  rcases hv with hv | hv
  · cases v with
    | pair => cases hv
    | _ => rfl
  · rw [hg.realm.needsEvaluation_text hv, h.holds.realm.needsEvaluation_text (h.becomes.text_value hv)]

theorem Pending.advance {a : Nat} {C : List Ref} {F : List Frame} (hp : g.Pending t scope a C F)
    (hg : g.Holds t) (h : g.Advances W t g' t') (hcars : ∀ c ∈ C, t'.car c = t.car c)
    (hplain : ∀ c ∈ C, g.realm.Plain (t.car c)) (hW : ∀ q, a ≤ q → ¬ W q) :
    g'.Pending t' scope a C F := by
  induction hp with
  | nil => exact .nil
  | @settled a c C F hneeds _ ih =>
      refine .settled ?_ (ih (fun d hd => hcars d (by simp [hd])) (fun d hd => hplain d (by simp [hd])) hW)
      rw [hcars c (by simp), h.needsEvaluation_eq hg (hplain c (by simp)), hneeds]
  | @waiting a b c C D x F hneeds hcopy hD hab hb _ ih =>
      refine .waiting ?_ ?_ hD hab (Nat.le_trans hb h.size_le) (ih (fun d hd => hcars d (by simp [hd]))
        (fun d hd => hplain d (by simp [hd])) fun q hq => hW q (Nat.le_trans hab hq))
      · rw [hcars c (by simp), h.needsEvaluation_eq hg (hplain c (by simp)), hneeds]
      · rw [hcars c (by simp)]
        exact hcopy.advance hg h fun q hq => hW q (hD q hq).1

/-- The frames of the operands of an application are made. -/
theorem Holds.forCells (hg : g.Holds t) {C : List Ref}
    (hC : ∀ c ∈ C, c < t.pairs.size ∧ g.realm.Plain (t.car c)) (scope : Ref) :
    ∃ F t', ((C.filter fun c => Frame.needsEvaluation t (t.car c)).mapM (Frame.forCell scope)).run t =
      .ok F t' ∧ t.GrowsTo t' ∧ g.Pending t' scope t.pairs.size C F := by
  induction C generalizing t with
  | nil => exact ⟨[], t, rfl, .refl t, .nil⟩
  | cons c C ih =>
      obtain ⟨hlt, hplain⟩ := hC c (by simp)
      have hrest : ∀ d ∈ C, d < t.pairs.size ∧ g.realm.Plain (t.car d) := fun d hd => hC d (by simp [hd])
      cases hneeds : Frame.needsEvaluation t (t.car c) with
      | false =>
          obtain ⟨F, t', hrun, hgrows, hpending⟩ := ih hg hrest
          refine ⟨F, t', ?_, hgrows, .settled ?_ hpending⟩
          · rw [List.filter_cons_of_neg (by simp [hneeds]), hrun]
          · have hadvances : g.Advances (fun _ => False) t g t' := hg.advances_growsTo hgrows
            rw [Store.car_eq_of_pair_eq (hgrows.pair_eq hlt), hadvances.needsEvaluation_eq hg hplain, hneeds]
      | true =>
          obtain ⟨D, hcopy, hD⟩ := hg.copySpine hplain
          have hgrows := growsTo_copySpine t (t.car c)
          have hadvances : g.Advances (fun _ => False) t g (t.copySpine (t.car c)).2 := hg.advances_growsTo hgrows
          have hnew : (Frame.forCell scope c).run t = .ok (.fresh scope (some c) (t.copySpine (t.car c)).1)
              (t.copySpine (t.car c)).2 := rfl
          generalize t.copySpine (t.car c) = made at *
          obtain ⟨x, t₁⟩ := made
          have hcar : ∀ d ∈ C, t₁.car d = t.car d := fun d hd =>
            Store.car_eq_of_pair_eq (hgrows.pair_eq (hrest d hd).1)
          have hfilter : C.filter (fun d => Frame.needsEvaluation t (t.car d)) =
              C.filter fun d => Frame.needsEvaluation t₁ (t₁.car d) :=
            List.filter_congr fun d hd => by
              rw [hcar d hd, ← hadvances.needsEvaluation_eq hg (hrest d hd).2]
          obtain ⟨F, t', hrun, hgrows', hpending⟩ := ih hadvances.holds fun d hd =>
            ⟨Nat.lt_of_lt_of_le (hrest d hd).1 hgrows.size_le, by rw [hcar d hd]; exact (hrest d hd).2⟩
          have hadvances' : g.Advances (fun _ => False) t₁ g t' := hadvances.holds.advances_growsTo hgrows'
          have hcar' : t'.car c = t.car c :=
            Store.car_eq_of_pair_eq ((hgrows.trans hgrows').pair_eq hlt)
          refine ⟨.fresh scope (some c) x :: F, t', ?_, hgrows.trans hgrows',
            .waiting ?_ ?_ hD hgrows.size_le hgrows'.size_le hpending⟩
          · rw [List.filter_cons_of_pos (by simp [hneeds]), List.mapM_cons, Eval.run_bind_ok hnew, hfilter,
              Eval.run_bind_ok hrun]
            rfl
          · have hboth : g.Advances (fun _ => False) t g t' := hg.advances_growsTo (hgrows.trans hgrows')
            rw [hcar', hboth.needsEvaluation_eq hg hplain, hneeds]
          · rw [hcar']
            exact hcopy.advance hadvances.holds hadvances' fun _ _ => not_false

end Estate

namespace Machine

variable {limit : Nat} {K : Exits} {P : Value → Store → Prop} {scope : Ref} {g : Estate} {s t : Store}

/-- An operand that stands for itself is a value already: to evaluate it would change nothing. -/
theorem comes_of_settled {c : Ref} {Q : Estate → Value → Store → Prop}
    (h : Evaluator.Yields ⟨.stack, limit⟩ K g s (t.car c) scope Q) (hg : g.Holds s)
    (hcalm : Calm g.kept s t) (hplain : g.realm.Plain (t.car c))
    (hneeds : Frame.needsEvaluation t (t.car c) = false) (hc : c < t.pairs.size) (hkept : ¬ g.kept c) :
    K.escapes ∨ g.Comes (· = c) t Q (t.car c) t := by
  have hgt := hg.calm hcalm
  have hatom : (t.car c).isPair = false := by
    rcases hplain with hatom | htext
    · exact hatom
    · rw [hgt.realm.needsEvaluation_text htext] at hneeds
      cases hneeds
  have hawaits : g.Awaits t (some c) [] := by
    rintro _ ⟨⟩
    exact ⟨hc, hkept, List.not_mem_nil⟩
  have hstep : (Frame.fresh scope (some c) (t.car c)).step.run t = .ok (.value (t.car c)) t := by
    unfold Frame.step
    rw [Frame.fresh]
    generalize t.car c = v at hneeds hatom
    cases v with
    | pair => cases hatom
    | symbol name => cases hneeds
    | keyword k => cases hneeds
    | _ => rfl
  have hnext : Next limit (⟨[.fresh scope (some c) (t.car c)], .void, []⟩, t) (⟨[], .void, []⟩, t) :=
    next_cons_iff.2 ⟨_, _, hstep, congrArg (EStateM.Result.ok _) (t.setCar_car c)⟩
  have hends := (ends_next hnext).2 (ends_done .void t)
  rcases h hg t hcalm _ _ (some c) (.atom hatom) hawaits with hescape | ⟨e, u, he, -⟩ | ⟨w, t', hw, hyields⟩
  · exact .inl hescape
  · have hfails := hends.unique he
    cases hfails
  · obtain ⟨rfl, rfl⟩ := EStateM.Result.ok.inj (hends.unique hw)
    obtain ⟨v, ⟨-, hlands⟩, hcomes⟩ := hyields
    have hv : t.car c = v := congrArg Pair.car (hlands c rfl)
    rw [hv]
    refine .inr (hcomes.after hgt.refl fun r hr => .inl ?_)
    rcases hr with hr | hr
    · cases hr
    · exact (Option.some.inj hr).symm

/-- The frames of the operands run one after the other, and each value goes to its pair. -/
theorem does_each {R : List Frame} {C : List Ref} {F : List Frame} {a : Nat} {vs : List Value}
    {Q : Estate → List Value → Store → Prop}
    (h : Evaluator.YieldsEach ⟨.stack, limit⟩ K g s vs scope Q) (hg : g.Holds s)
    (hcalm : Calm g.kept s t) (hcars : C.map t.car = vs) (hnodup : C.Nodup)
    (hC : ∀ c ∈ C, c < a ∧ ¬ g.kept c) (ha : a ≤ t.pairs.size) (hplain : ∀ v ∈ vs, g.realm.Plain v)
    (hpending : g.Pending t scope a C F)
    (hrest : ∀ g' us s' t', g.Advances (fun r => r ∈ C ∨ a ≤ r) t g' t' → g'.Holds s' →
      Calm g'.kept s' t' → C.map t'.car = us → (∀ c ∈ C, t'.cdr c = t.cdr c) → Q g' us s' →
      Does K (fun n => run limit n ⟨R, .void, []⟩) t' P) :
    Does K (fun n => run limit n ⟨F ++ R, .void, []⟩) t P := by
  induction C generalizing g s t F a vs Q with
  | nil =>
      obtain rfl : vs = [] := hcars.symm
      cases hpending
      exact hrest g [] s t (hg.calm hcalm).refl hg hcalm rfl nofun h
  | cons c C ih =>
      obtain rfl : vs = t.car c :: C.map t.car := hcars.symm
      obtain ⟨hc, hkept⟩ := hC c (by simp)
      obtain ⟨hnotin, hnodup⟩ := List.nodup_cons.1 hnodup
      have hgt := hg.calm hcalm
      -- What is done with the first operand leaves the others as they are.
      have hgoes : ∀ {g' u s' t' F'} {W : Ref → Prop} {b : Nat}, g.Advances W t g' t' →
          (∀ q ∈ C, ¬ W q) → (∀ q, b ≤ q → ¬ W q) → (∀ q, W q → q = c ∨ a ≤ q) → a ≤ b → b ≤ t.pairs.size →
          g'.Holds s' → Calm g'.kept s' t' → t'.pair c = ⟨u, t.cdr c⟩ →
          (Evaluator.YieldsEach ⟨.stack, limit⟩ K g' s' (C.map t.car) scope fun g'' us s'' =>
            Q g'' (u :: us) s'') → g.Pending t scope b C F' →
          Does K (fun n => run limit n ⟨F' ++ R, .void, []⟩) t' P := by
        intro g' u s' t' F' W b hadvances hWC hWb hWa hab hb hholds hcalm' hpair hq hpending
        have hsame : ∀ q ∈ C, t'.pair q = t.pair q := fun q hq =>
          hadvances.pair_eq (Nat.lt_of_lt_of_le (hC q (by simp [hq])).1 ha)
            (hgt.not_shared (hC q (by simp [hq])).2) (hWC q hq)
        have hcar : ∀ q ∈ C, t'.car q = t.car q := fun q hq => Store.car_eq_of_pair_eq (hsame q hq)
        have hplainC : ∀ q ∈ C, g.realm.Plain (t.car q) := fun q hq =>
          hplain _ (List.mem_cons_of_mem _ (List.mem_map_of_mem hq))
        refine ih hq hholds hcalm' (List.map_congr_left hcar) hnodup (fun q hq => ?_)
          (Nat.le_trans hb hadvances.size_le) (fun v hv => ?_)
          (hpending.advance hgt hadvances hcar hplainC hWb)
          fun g'' us s'' t'' hadvances' hholds' hcalm'' hus hcdr hq' => ?_
        · exact ⟨Nat.lt_of_lt_of_le (hC q (by simp [hq])).1 hab,
            hadvances.not_kept (Nat.lt_of_lt_of_le (hC q (by simp [hq])).1 ha) (hC q (by simp [hq])).2⟩
        · obtain ⟨q, hq, rfl⟩ := List.mem_map.1 hv
          exact hadvances.becomes.plain (hplainC q hq)
        · have hcb : c < b := Nat.lt_of_lt_of_le hc hab
          have hpair'' : t''.pair c = t'.pair c :=
            hadvances'.pair_eq (Nat.lt_of_lt_of_le hcb (Nat.le_trans hb hadvances.size_le))
              (hadvances.holds.not_shared (hadvances.not_kept (Nat.lt_of_lt_of_le hcb hb) hkept))
              (fun hr => hr.elim hnotin fun hle => Nat.not_lt.2 hle hcb)
          have htotal : g.Advances (fun r => r ∈ c :: C ∨ a ≤ r) t g'' t'' := by
            refine (hadvances.restrict fun q hq => .inl ?_).trans hadvances' fun q hq => .inl ?_
            · exact (hWa q hq).imp_left fun hq => by simp [hq]
            · exact hq.imp (fun hq => by simp [hq]) fun hle => Nat.le_trans hab hle
          refine hrest g'' (u :: us) s'' t'' htotal hholds' hcalm'' ?_ (fun q hq => ?_) hq'
          · rw [List.map_cons, hus, Store.car, hpair'', hpair]
          · rcases List.mem_cons.1 hq with rfl | hq
            · rw [Store.cdr, hpair'', hpair]
            · rw [hcdr q hq, Store.cdr_eq_of_pair_eq (hsame q hq)]
      cases hpending with
      | settled hneeds hpending =>
          rcases comes_of_settled h hg hcalm (hplain _ (by simp)) hneeds (Nat.lt_of_lt_of_le hc ha) hkept with
            hescape | ⟨g', s', hadvances, hholds, hcalm', hq⟩
          · exact .inl hescape
          · refine hgoes hadvances (fun q hmem => ?_) (fun q hle => ?_) (fun q => .inl) (Nat.le_refl a) ha
              hholds hcalm' rfl hq hpending
            · rintro rfl
              exact hnotin hmem
            · rintro rfl
              exact Nat.not_lt.2 hle hc
      | @waiting _ b _ _ D x F hneeds hcopy hD hab hb hpending =>
          have hawaits : g.Awaits t (some c) D := by
            rintro _ ⟨⟩
            exact ⟨Nat.lt_of_lt_of_le hc ha, hkept, fun hmem => Nat.not_lt.2 (hD c hmem).1 hc⟩
          refine does_stack (F := [.fresh scope (some c) x]) (h hg t hcalm x D (some c) hcopy hawaits) ?_
          rintro _ t' ⟨u, ⟨rfl, hlands⟩, g', s', hadvances, hholds, hcalm', hq⟩
          refine hgoes hadvances (fun q hq hW => ?_) (fun q hq hW => ?_) (fun q hW => ?_) hab hb hholds hcalm'
            (hlands c rfl) hq hpending <;> rcases hW with hW | hW
          · exact Nat.not_lt.2 (hD q hW).1 (hC q (by simp [hq])).1
          · obtain rfl := Option.some.inj hW
            exact hnotin hq
          · exact Nat.not_lt.2 hq (hD q hW).2
          · obtain rfl := Option.some.inj hW
            exact Nat.not_lt.2 (Nat.le_trans hab hq) hc
          · exact .inr (hD q hW).1
          · exact .inl (Option.some.inj hW).symm

end Machine

/-! ### Applications -/

namespace Direct

theorem applyFirst_fuelled (us : List Value) : Fuelled fun n => applyFirst (n - 1) us := by
  rintro (_ | n)
  · exact .refl _
  · cases us with
    | nil => exact .refl _
    | cons procedure args => exact apply_prolongs n procedure args

end Direct

namespace Evaluator

variable {e : Evaluator} {K : Exits} {g : Estate} {s : Store} {v : Value} {scope : Ref}
  {Q : Estate → Value → Store → Prop}

/-- The operator and the operands have been evaluated, and the first is a procedure whose call with
the others yields what is wanted. -/
def YieldsCalled (e : Evaluator) (K : Exits) (Q : Estate → Value → Store → Prop) (g : Estate)
    (us : List Value) (s : Store) : Prop :=
  ∃ procedure args, us = procedure :: args ∧ procedure.isProcedure = true ∧
    e.YieldsCall K g s procedure args Q

theorem does_application {limit : Nat} {op : Value} {vs : List Value} {t : Store} {r : Ref} {cs : List Ref}
    (hop : ∀ k, op ≠ .keyword k)
    (h : YieldsEach ⟨.recursive, limit⟩ K g s (op :: vs) scope (YieldsCalled ⟨.recursive, limit⟩ K Q))
    (hg : g.Holds s) (hcalm : Calm g.kept s t) (hlist : t.ListAt (.pair r) (r :: cs))
    (hcars : (r :: cs).map t.car = op :: vs) (hfree : ∀ c ∈ r :: cs, ¬ g.realm.shared .pair c c) :
    Does K (fun n => Direct.evalForm n r scope) t (g.Comes (fun _ => False) t Q) := by
  have hhead : t.car r = op := (List.cons.inj hcars).1
  have heach : Does K (fun n => Direct.evalEach n (.pair r) scope >>= Direct.applyFirst (n - 1)) t
      (g.Comes (fun _ => False) t Q) := by
    refine does_evalEach Direct.applyFirst_fuelled h hg hcalm hlist hcars hfree ?_
    rintro g' us s' t' hadvances hholds hcalm' ⟨procedure, args, rfl, -, hcall⟩
    refine ((hcall hholds t' hcalm' none nofun).of_iff fun _ => Eval.ends_congr 2 0 fun fuel _ => ?_).mono
      fun v t'' hv => hv.2.after hadvances nofun
    rw [callTo_none, call_eq_apply]
    rfl
  refine heach.of_iff fun _ => Eval.ends_congr 0 1 fun fuel hfuel => ?_
  obtain ⟨n, rfl⟩ : ∃ n, fuel = n + 1 := ⟨fuel - 1, by omega⟩
  exact congrArg untraced (Direct.run_evalForm_application fun k => hhead ▸ hop k)

theorem yields_application {limit : Nat} {op : Value} {vs : List Value} {t : Store} {r : Ref}
    {cs : List Ref} {d : Option Ref} (hop : ∀ k, op ≠ .keyword k)
    (hplain : ∀ v ∈ op :: vs, g.realm.Plain v)
    (hneeds : ∃ v ∈ op :: vs, (∃ name, v = .symbol name) ∨ g.realm.Text v)
    (h : YieldsEach ⟨.stack, limit⟩ K g s (op :: vs) scope (YieldsCalled ⟨.stack, limit⟩ K Q))
    (hg : g.Holds s) (hcalm : Calm g.kept s t) (hlist : t.ListAt (.pair r) (r :: cs))
    (hcars : (r :: cs).map t.car = op :: vs) (hfree : ∀ c ∈ r :: cs, ¬ g.kept c)
    (hd : g.Awaits t d (r :: cs)) :
    Does K (fun n => Machine.run limit n ⟨[.fresh scope d (.pair r)], .void, []⟩) t
      (Machine.Yields d (r :: cs) g t Q) := by
  have hgt := hg.calm hcalm
  have hhead : t.car r = op := (List.cons.inj hcars).1
  have hmem : ∀ c ∈ r :: cs, t.car c ∈ op :: vs := fun c hc => hcars ▸ List.mem_map_of_mem hc
  obtain ⟨F, t₁, hframes, hgrows, hpending⟩ := hgt.forCells
    (fun c hc => ⟨hlist.2 c hc, hplain _ (hmem c hc)⟩) scope
  -- Some operand is an expression still to be evaluated.
  have hsome : ((r :: cs).filter fun c => Frame.needsEvaluation t (t.car c)).isEmpty = false := by
    obtain ⟨v, hv, hneeds⟩ := hneeds
    obtain ⟨c, hc, rfl⟩ := List.mem_map.1 (hcars ▸ hv)
    refine List.isEmpty_eq_false_iff.2 (List.ne_nil_of_mem (List.mem_filter.2 ⟨hc, ?_⟩))
    rcases hneeds with ⟨name, hname⟩ | htext
    · rw [hname]
      rfl
    · exact hgt.realm.needsEvaluation_text htext
  have hstep : (Frame.stepApplication (.fresh scope d (.pair r)) r).run t =
      .ok (.suspend { Frame.fresh scope d (.pair r) with pushed := true } F) t₁ := by
    have hcells : Frame.pendingCells t (.fresh scope d (.pair r)) =
        (r :: cs).filter fun c => Frame.needsEvaluation t (t.car c) := by
      rw [← hlist.cells_eq]
      rfl
    rw [Frame.stepApplication, Eval.run_ask_bind, hcells, if_neg (by simp [hsome])]
    exact Eval.run_bind_ok hframes
  refine Machine.does_step (x := Frame.stepApplication (.fresh scope d (.pair r)) r) ?_
    (Machine.does_suspend hstep ?_)
  · rw [Machine.IsForm.run_step ⟨rfl, hlist.isList, hhead⟩, Machine.stepHead_eq_application hop]
  have hadvances : g.Advances (· ∈ r :: cs) t g t₁ := hgt.advances_growsTo hgrows
  have hlist₁ := hlist.congr (fun c hc => Store.cdr_eq_of_pair_eq (hgrows.pair_eq (hlist.2 c hc)))
    hgrows.size_le
  have hcars₁ : (r :: cs).map t₁.car = op :: vs := by
    rw [← hcars]
    exact List.map_congr_left fun c hc => Store.car_eq_of_pair_eq (hgrows.pair_eq (hlist.2 c hc))
  refine Machine.does_each h hg (hcalm.trans (.of_growsTo hgrows hgt.bound)) hcars₁ hlist.1.nodup
    (fun c hc => ⟨hlist.2 c hc, hfree c hc⟩) hgrows.size_le hplain hpending ?_
  rintro g' us s' t' hadvances' hholds hcalm' hus hcdrs ⟨procedure, args, rfl, hprocedure, hcall⟩
  have htotal : g.Advances (· ∈ r :: cs) t g' t' := hadvances.trans hadvances' fun _ hr => hr
  have hlist' : t'.ListAt (.pair r) (r :: cs) := hlist₁.congr hcdrs hadvances'.size_le
  have hloaded : Frame.Loaded { Frame.fresh scope d (.pair r) with pushed := true } t' procedure args :=
    ⟨⟨r, cs, rfl, hlist', (List.cons.inj hus).1, (List.cons.inj hus).2⟩, rfl⟩
  have hawaits : g'.Awaits t' d [] := hd.advance htotal fun _ _ hc => absurd hc List.not_mem_nil
  refine (does_loaded hloaded hprocedure (hcall hholds t' hcalm' d hawaits)).mono ?_
  rintro _ t'' ⟨v, rfl, hlanded, hcomes⟩
  refine Machine.Yields.after (show Machine.Yields d [] g' t' Q _ t'' from ⟨v, ⟨rfl, hlanded rfl⟩, ?_⟩)
    hgt htotal (by simp) hd
  exact hcomes.after hadvances'.holds.refl fun _ hr => .inl (.inr hr)

/-- The value of an application. -/
theorem yieldsForm_application {op : Value} {vs : List Value} (hop : ∀ k, op ≠ .keyword k)
    (hplain : ∀ v ∈ op :: vs, g.realm.Plain v)
    (hneeds : ∃ v ∈ op :: vs, (∃ name, v = .symbol name) ∨ g.realm.Text v)
    (h : e.YieldsEach K g s (op :: vs) scope (e.YieldsCalled K Q)) :
    e.YieldsForm K g s (op :: vs) scope Q := by
  intro hg t hcalm r cs hlist hcars
  obtain ⟨strategy, limit⟩ := e
  cases strategy with
  | recursive => exact does_application hop h hg hcalm hlist hcars
  | stack => exact fun hfree d hd => yields_application hop hplain hneeds h hg hcalm hlist hcars hfree hd

end Evaluator
end LittleScheme
