import LittleScheme.Proofs.Following

/-!
# Choosing forms on the machine

The forms `and`, `or` and `cond` try their operands one after the other. The recursion makes a call
for each; the machine drops the operands that did not decide from its copy, and passes several of them
in one step when they need no frame. What is left of the form is the same on both sides.
-/
namespace LittleScheme

namespace Direct

/-- The forms `and`, where `wanted` is true, and `or`, where it is false. -/
def evalLogical (wanted : Bool) (n : Nat) (last operands : Value) (scope : Ref) : Eval Value :=
  if wanted then evalAnd n last operands scope else evalOr n operands scope

theorem run_evalLogical_zero (wanted : Bool) (last operands : Value) (a : Ref) (s : Store) :
    (evalLogical wanted 0 last operands a).run s = .error .outOfFuel s := by
  cases wanted
  · simp [evalLogical, evalOr]
  · simp [evalLogical, evalAnd]

theorem run_evalLogical_nil (wanted : Bool) (n : Nat) (last : Value) (a : Ref) (s : Store) :
    (evalLogical wanted (n + 1) last .nil a).run s = .ok (if wanted then last else .bool false) s := by
  cases wanted
  · exact run_evalOr_nil n a s
  · exact run_evalAnd_nil n last a s

theorem run_evalLogical_pair (wanted : Bool) (n : Nat) (last : Value) (r a : Ref) (s : Store) :
    (evalLogical wanted (n + 1) last (.pair r) a).run s = (do
      let v ← eval n (s.car r) a
      if v.isTrue = wanted then evalLogical wanted n v (s.cdr r) a
      else return if wanted then .bool false else v : Eval Value).run s := by
  cases wanted
  · rw [evalLogical, if_neg (by simp), evalOr, Eval.run_ask_bind, Eval.run_ask_bind, Eval.run_bind,
      Eval.run_bind]
    cases (eval n (s.car r) a).run s with
    | error e s' => rfl
    | ok v s' => cases hv : v.isTrue <;> simp [hv, evalLogical]
  · rw [evalLogical, if_pos rfl, evalAnd, Eval.run_ask_bind, Eval.run_ask_bind, Eval.run_bind,
      Eval.run_bind]
    cases (eval n (s.car r) a).run s with
    | error e s' => rfl
    | ok v s' => cases hv : v.isTrue <;> simp [hv, evalLogical]

/-- The value of the last operand is that of the form. -/
theorem run_evalLogical_last (wanted : Bool) (n : Nat) (last : Value) {r : Ref} (a : Ref) {s : Store}
    (hr : s.cdr r = .nil) :
    (evalLogical wanted (n + 1) last (.pair r) a).run s = (eval n (s.car r) a).run s := by
  rw [run_evalLogical_pair, Eval.run_bind, hr]
  cases hv : (eval n (s.car r) a).run s with
  | error e s' => rfl
  | ok v s' =>
      cases n with
      | zero =>
          rw [run_eval_zero] at hv
          cases hv
      | succ n =>
          cases htrue : v.isTrue with
          | true => cases wanted <;> simp [htrue, run_evalLogical_nil]
          | false =>
              obtain rfl : v = .bool false := by
                unfold Value.isTrue at htrue
                split at htrue <;> simp_all
              cases wanted <;> simp [run_evalLogical_nil, Value.isTrue]

/-- What comes after the test of a clause. -/
def evalClause (n : Nat) (test body rest : Value) (scope : Ref) : Eval Value :=
  if test.isTrue then if body.isNil then return test else evalBody n .void body scope
  else evalClauses n rest scope

theorem run_evalClauses_zero (clauses : Value) (a : Ref) (s : Store) :
    (evalClauses 0 clauses a).run s = .error .outOfFuel s := by simp [evalClauses]

theorem evalTest_eq {v : Value} (h : v ≠ .keyword .otherwise) (n : Nat) (a : Ref) :
    evalTest n v a = eval n v a := by
  unfold evalTest
  split
  · contradiction
  · rfl

theorem run_evalClauses_pair (n : Nat) {r c : Ref} (a : Ref) {s : Store}
    (hclause : (Form.clause (s.car r)).run s = .ok c s) :
    (evalClauses (n + 1) (.pair r) a).run s = (do
      let test ← evalTest n (s.car c) a
      let body ← Eval.ask fun s => s.cdr c
      evalClause n test body (s.cdr r) a : Eval Value).run s := by
  have hrest : ∀ test s', (if test.isTrue then do
        let body ← Eval.ask fun s => s.cdr c
        if body.isNil then return test else evalBody n .void body a
      else evalClauses n (s.cdr r) a : Eval Value).run s' = (do
        let body ← Eval.ask fun s => s.cdr c
        evalClause n test body (s.cdr r) a : Eval Value).run s' := fun test s' => by
    cases htest : test.isTrue <;> simp [evalClause, htest]
  rw [evalClauses, Eval.run_ask_bind, Eval.run_ask_bind, Eval.run_bind_ok hclause, Eval.run_ask_bind]
  split
  · rename_i hother
    rw [hother]
    exact hrest (.bool true) s
  · rename_i hother
    rw [evalTest_eq hother, Eval.run_bind, Eval.run_bind]
    cases (eval n (s.car c) a).run s with
    | error e s' => rfl
    | ok v s' => exact hrest v s'

theorem run_evalClauses_error (n : Nat) {r : Ref} (a : Ref) {s s' : Store} {e : Stop}
    (hclause : (Form.clause (s.car r)).run s = .error e s') :
    (evalClauses (n + 1) (.pair r) a).run s = .error e s' := by
  rw [evalClauses, Eval.run_ask_bind, Eval.run_ask_bind, Eval.run_bind_error hclause]

end Direct

theorem Store.isList_cdr {s : Store} {r : Ref} (h : s.isList (.pair r) = true) :
    s.isList (s.cdr r) = true := by
  obtain ⟨cs, hcs⟩ := Store.isList_iff.1 h
  cases cs with
  | nil => cases hcs.1
  | cons c cs =>
      obtain ⟨⟨⟩, htail⟩ := hcs
      exact Store.isList_iff.2 ⟨cs, htail⟩

theorem Store.isList_of_cdr {s : Store} {r : Ref} (h : s.isList (s.cdr r) = true) :
    s.isList (.pair r) = true := by
  obtain ⟨cs, hcs⟩ := Store.isList_iff.1 h
  exact Store.isList_iff.2 ⟨r :: cs, rfl, hcs⟩

namespace Form

variable {ρ : Renaming} {s t : Store}

theorem run_clause {r : Ref} (h : s.isList (.pair r) = true) :
    (clause (.pair r)).run s = .ok r s := by simp [clause, h]

theorem run_clause_misfit {r : Ref} (h : ¬ s.isList (.pair r) = true) : (clause (.pair r)).run s =
    (do Eval.malformed (.notClause (← Eval.written (.pair r))) : Eval Ref).run s := by
  rw [clause]
  simp only [Eval.run_ask_bind]
  rw [if_neg h]

/-- A clause is taken apart in the same way on both sides. -/
theorem clause_parallel {v w : Value} (hs : Similar ρ s t) (hv : Value.Related ρ v w) :
    Parallel s t (clause v) (clause w) fun c d => v = .pair c ∧ w = .pair d ∧ ρ .pair c d ∧
      s.isList (.pair c) = true := by
  have hlist := hs.isList_eq hv
  have hraise : Parallel s t (do Eval.malformed (.notClause (← Eval.written v)) : Eval Ref)
      (do Eval.malformed (.notClause (← Eval.written w)) : Eval Ref) fun c d =>
        v = .pair c ∧ w = .pair d ∧ ρ .pair c d ∧ s.isList (.pair c) = true := by
    refine .bind (Q := Eq) (.ask (hs.written hv)) fun a b hab => ?_
    subst hab
    exact .raise _
  cases hv with
  | @pair c d hr =>
      by_cases hl : s.isList (.pair c) = true
      · exact .inl ⟨c, d, run_clause hl, run_clause (hlist ▸ hl), rfl, rfl, hr, hl⟩
      · have hl' : ¬ t.isList (.pair d) = true := hlist ▸ hl
        rw [Parallel, run_clause_misfit hl, run_clause_misfit hl']
        exact hraise
  | _ => exact hraise

theorem run_sequence_single {r : Ref} (h : s.cdr r = .nil) :
    (sequence (.pair r)).run s = .ok (s.car r) s := by simp [sequence, h, Value.isNil]

theorem run_sequence_several {r : Ref} (h : (s.cdr r).isNil = false) :
    (sequence (.pair r)).run s =
      .ok (s.cons (.keyword .begin) (.pair r)).1 (s.cons (.keyword .begin) (.pair r)).2 := by
  simp [sequence, h]

end Form

namespace Machine

open Direct (Careful)
open Value (Related)

variable {limit : Nat}

/-! ### What is left of a form -/

/-- A frame that tries the operands of a form: those that are left are the same on both sides. -/
structure Trying (T K : Ref → Prop) (ρ : Renaming) (s t : Store) (v : Value) (a : Ref) (f : Frame)
    (q : Ref) (k : Keyword) (cs ds : List Ref) : Prop where
  matched : Matched T (Including K (q :: ds)) ρ s t
  listed : Listed ρ s t v (t.cdr q) cs ds
  text : ∀ c ∈ cs, T c
  nodup : (q :: ds).Nodup
  head : t.car q = .keyword k
  expr : f.expr = .pair q
  scope : ρ .scope a f.scope
  apart : ∀ e ∈ q :: ds, ¬ K e
  destination : ∀ e, f.destination = some e → K e

namespace Trying

variable {T K : Ref → Prop} {ρ : Renaming} {s t : Store} {v : Value} {a q c d : Ref} {f : Frame}
  {k : Keyword} {cs ds : List Ref}

theorem released (h : Trying T K ρ s t v a f q k cs ds) : Matched T K ρ s t :=
  h.matched.mono fun _ hq => .inl hq

theorem length_le (h : Trying T K ρ s t v a f q k cs ds) : cs.length ≤ t.pairs.size := by
  rw [h.listed.length_eq]
  exact Store.length_le_of_nodup h.listed.right.1.nodup h.listed.right.2

/-- The first operand that is left is dropped, perhaps after a value has arrived for it. -/
theorem drop {own : List Ref} {D : Ref → Prop} {g : Frame} {ρ' : Renaming} {s' t' : Store}
    (h : Trying T K ρ s t v a f q k (c :: cs) (d :: ds))
    (hg : g.expr = f.expr ∧ g.scope = f.scope ∧ g.destination = f.destination)
    (hown : ∀ e ∈ q :: d :: ds, e ∈ own) (hD : ∀ e ∈ q :: ds, ¬ D e)
    (hafter : After T (Including K own) D ρ s t ρ' s' t') :
    Trying T K ρ' s' (t'.setCdr q (t'.cdr d)) (s.cdr c) a g q k cs ds := by
  have hsub : ∀ e ∈ q :: ds, e ∈ q :: d :: ds := fun e he => by
    rcases List.mem_cons.1 he with rfl | he
    · simp
    · simp [he]
  have hnodup := h.nodup
  simp only [List.nodup_cons, List.mem_cons, not_or] at hnodup
  have hmatched : Matched T (Including K (q :: ds)) ρ' s' t' :=
    hafter.matched.mono fun e he => he.imp_right fun he => hown e (hsub e he)
  have hq : q < t'.pairs.size := (hmatched.reserved (.inr (by simp))).1
  have hleft : ∀ e ∈ cs, s'.pair e = s.pair e := fun e he =>
    hafter.fixed e (h.listed.left.2 e (by simp [he])) (.inl (h.text e (by simp [he])))
  have hright : ∀ e ∈ ds, (t'.setCdr q (t'.cdr d)).pair e = t.pair e := by
    intro e he
    have hne : e ≠ q := by
      rintro rfl
      exact hnodup.1.2 he
    rw [Store.pair_setCdr_ne hne]
    exact hafter.right_pair (.inr (hown e (by simp [he]))) (hD e (by simp [he]))
  refine ⟨hmatched.setCdr (.inr (by simp)) _, ?_, fun e he => h.text e (by simp [he]), ?_, ?_, ?_, ?_,
    fun e he => h.apart e (hsub e he), ?_⟩
  · have hlater : Listed ρ' s' (t'.setCdr q (t'.cdr d)) (s.cdr c) (t.cdr d) cs ds := by
      refine h.listed.tail.later hafter.le (hafter.left .pair) ?_ hleft hright
      rw [Store.size_setCdr]
      exact hafter.right .pair
    rw [← hafter.rests d (.inr (hown d (by simp)))] at hlater
    rwa [Store.cdr_setCdr hq]
  · exact List.nodup_cons.2 ⟨hnodup.1.2, hnodup.2.2⟩
  · rw [Store.car_setCdr, hafter.spared q (.inr (hown q (by simp))) (hD q (by simp)), h.head]
  · rw [hg.1, h.expr]
  · rw [hg.2.1]
    exact hafter.le h.scope
  · rw [hg.2.2]
    exact h.destination

/-- Dropping an operand changes nothing that others use. -/
theorem after_drop {D : Ref → Prop} {t' : Store} {w : Value}
    (h : Trying T K ρ s (t'.setCdr q w) v a f q k cs ds) :
    After T K D ρ s t' ρ s (t'.setCdr q w) := by
  refine .of_right h.released (fun k => (t'.count_setCdr q w k).ge) fun e he => ?_
  refine Store.pair_setCdr_ne ?_ _
  rintro rfl
  exact h.apart e (by simp) he

/-- The frame takes the form apart again, when values have arrived in other pairs than its first. -/
theorem arrive {own : List Ref} {D : Ref → Prop} {ρ' : Renaming} {s' t' : Store}
    (h : Trying T K ρ s t v a f q k cs ds) (hown : ∀ e ∈ q :: ds, e ∈ own) (hq : ¬ D q)
    (hafter : After T (Including K own) D ρ s t ρ' s' t') :
    t'.ListAt (t'.cdr q) ds ∧
      ({ f with pushed := true } : Frame).step.run t' =
        (Frame.stepHead { f with pushed := true } q (t'.cdr q) (.keyword k)).run t' := by
  have hrests : ∀ e ∈ q :: ds, t'.cdr e = t.cdr e := fun e he => hafter.rests e (.inr (hown e he))
  have htail := h.listed.right.congr (fun e he => hrests e (by simp [he])) (hafter.right .pair)
  rw [← hrests q (by simp)] at htail
  have hlist : t'.ListAt (.pair q) (q :: ds) := by
    refine ⟨⟨rfl, htail.1⟩, fun e he => ?_⟩
    exact Nat.lt_of_lt_of_le (h.matched.reserved (.inr he)).1 (hafter.right .pair)
  have hl : t'.isList ({ f with pushed := true } : Frame).expr = true := h.expr ▸ hlist.isList
  refine ⟨htail, ?_⟩
  rw [Frame.run_step_list (f := { f with pushed := true }) h.expr hl, Frame.run_stepForm,
    hafter.spared q (.inr (hown q (by simp))) hq, h.head]

/-- The clause is put aside in a new pair, which is to receive the value of its test. -/
theorem park (h : Trying T K ρ s t v a f q k (c :: cs) (d :: ds)) {test body : Value} {t₁ : Store}
    (hpark : t₁ = (t.pushPair test body).setCar d (.pair t.pairs.size)) :
    Matched T (Including K (t.pairs.size :: q :: d :: ds)) ρ s t₁ ∧
      After T (Including K (q :: d :: ds)) (To (some d)) ρ s t ρ s t₁ ∧
      t₁.car d = .pair t.pairs.size ∧ t₁.cdr t.pairs.size = body ∧
      t₁.pairs.size = t.pairs.size + 1 := by
  have hd : d < t.pairs.size := (h.matched.reserved (.inr (by simp))).1
  have htaken : Taken t (t.pushPair test body) [t.pairs.size] :=
    ⟨t.keeps_pushPair _ _, rfl, by simp, by simp⟩
  have hmatched := htaken.matched h.matched
  have hto : To (some d) d := rfl
  subst hpark
  refine ⟨?_, ?_, Store.car_setCar (by simp; lia) _, ?_, by simp⟩
  · refine (hmatched.setCar (.inl (.inr (by simp))) _).mono fun e he => ?_
    rcases he with hk | he
    · exact .inl (.inl hk)
    · rcases List.mem_cons.1 he with rfl | he
      · exact .inr (by simp)
      · exact .inl (.inr he)
  · refine (htaken.after h.matched).trans (.deliver ?_ (.inr (by simp)) hto _)
    exact hmatched.mono fun e he => .inl he
  · rw [Store.cdr_setCar, Store.cdr, Store.pair_pushPair_self]

end Trying

section

variable {T K : Ref → Prop} {ρ : Renaming} {s t : Store} {a b : Ref} {v w : Value}

/-- An operand that needs no frame has the same value on both sides, or the same fault. -/
theorem settled_cases (h : Similar ρ s t) (hv : Related ρ v w) (hscope : ρ .scope a b) :
    (Frame.settledValue false w b).run t = .ok none t ∨
      (∃ v' w', (∀ n, (Direct.eval (n + 1) v a).run s = .ok v' s) ∧
        (Frame.settledValue false w b).run t = .ok (some w') t ∧ Related ρ v' w') ∨
      ∃ e, (∀ n, (Direct.eval (n + 1) v a).run s = .error e s) ∧
        (Frame.settledValue false w b).run t = .error e t := by
  by_cases hsymbol : ∃ name, v = .symbol name
  · obtain ⟨name, rfl⟩ := hsymbol
    cases hv
    have hget := h.get? hscope name
    generalize hx : s.get? a name = x, hy : t.get? b name = y at hget
    refine .inr ?_
    cases hget with
    | @some v' w' hv' =>
        refine .inl ⟨v', w', fun n => ?_, ?_, hv'⟩
        · simp [Direct.eval, Eval.lookup, hx]
        · simp [Frame.settledValue, Frame.trivialValue, Eval.lookup, hy]
    | none =>
        refine .inr ⟨.error (.unbound name .none), fun n => ?_, ?_⟩
        · simp [Direct.eval, Eval.lookup, hx, Eval.unbound]
        · have hlookup : (Eval.lookup b name).run t = .error (.error (.unbound name .none)) t := by
            simp [Eval.lookup, hy, Eval.unbound]
          exact Eval.run_bind_error hlookup
  · have htrivial : (Frame.settledValue false w b).run t =
        .ok (if Frame.needsEvaluation t w then none else some w) t := by
      cases hv with
      | symbol name => exact absurd ⟨name, rfl⟩ hsymbol
      | _ =>
          rw [Frame.settledValue, if_neg (by simp), Frame.trivialValue, Eval.run_ask_bind]
          split <;> rfl
          simp
    have hneeds := needsEvaluation_related h hv
    cases hcase : Frame.needsEvaluation s v with
    | true =>
        rw [htrivial, ← hneeds, hcase]
        exact .inl rfl
    | false =>
        rw [htrivial, ← hneeds, hcase]
        exact .inr (.inl ⟨v, w, fun n => Direct.run_eval_settled hcase a, rfl, hv⟩)

end

/-! ### The forms `and` and `or` -/

/-- The keyword of `and`, where `wanted` is true, and of `or`, where it is false. -/
def logicalKeyword (wanted : Bool) : Keyword := if wanted then .and else .or

/-- The machine follows `and` and `or` to some depth. The operands that it passes without a step are
accounted for by the next. -/
def FollowsLogical (limit n : Nat) : Prop :=
  ∀ ⦃T K : Ref → Prop⦄ ⦃ρ : Renaming⦄ ⦃s t t₀ : Store⦄ ⦃v : Value⦄ ⦃a : Ref⦄ ⦃f : Frame⦄ ⦃q : Ref⦄
    ⦃wanted : Bool⦄ ⦃cs ds : List Ref⦄ (last x : Value),
    Trying T K ρ s t v a f q (logicalKeyword wanted) cs ds → cs ≠ [] →
    t₀.pairs.size = t.pairs.size →
    f.step.run t₀ = (Frame.stepLogical f q wanted false ds).run t →
    Careful T n (.logical wanted v a) s →
    Serves limit T K ρ s t (n + 2 + (t.pairs.size - cs.length)) [f] f.destination x t₀
      ((Direct.evalLogical wanted n last v a).run s)

theorem followsLogical_zero : FollowsLogical limit 0 := by
  intro T K ρ s t t₀ v a f q wanted cs ds last x _ _ hsize _ _
  rw [Direct.run_evalLogical_zero]
  refine .inr ⟨rfl, .of_le ?_⟩
  simp only [hsize]
  omega

/-- The value of an operand that is not the last decides the form, or the operand is dropped. -/
theorem followsLogical_rest {n : Nat} (hlogical : FollowsLogical limit n) {T K : Ref → Prop}
    {ρ : Renaming} {s t t₀ : Store} {v v' w' : Value} {a q d : Ref} {f : Frame} {wanted : Bool}
    {cs ds : List Ref} (hne : cs ≠ []) (hmatched : Matched T K ρ s t)
    (h : Trying T K ρ s (t.setCdr q (t.cdr d)) v a f q (logicalKeyword wanted) cs ds)
    (hv : Related ρ v' w') (hsize : t₀.pairs.size = t.pairs.size)
    (hstep : f.step.run t₀ = (if w'.isTrue != wanted then
      return .value (if wanted then .bool false else w')
      else do
        Eval.update fun s => s.setCdr q (s.cdr d)
        Frame.stepLogical f q wanted false ds : Eval Frame.Transition).run t)
    (hcareful : v'.isTrue = wanted → Careful T n (.logical wanted v a) s) (x : Value) :
    Serves limit T K ρ s t (n + 2 + (t.pairs.size - cs.length)) [f] f.destination x t₀
      ((if v'.isTrue = wanted then Direct.evalLogical wanted n v' v a
        else return if wanted then .bool false else v' : Eval Value).run s) := by
  rw [← hv.isTrue_eq] at hstep
  by_cases htrue : v'.isTrue = wanted
  · rw [if_pos htrue]
    rw [if_neg (by simp [htrue]), Eval.run_update_bind] at hstep
    have hrest := hlogical v' x h hne (by rw [hsize, Store.size_setCdr]) hstep (hcareful htrue)
    rw [Store.size_setCdr] at hrest
    exact .after h.after_drop hrest
  · rw [if_neg htrue]
    rw [if_pos (by simpa using htrue)] at hstep
    refine .value hmatched h.destination ?_ hstep
    split
    · exact .bool false
    · exact hv

theorem followsLogical_succ {n : Nat} (heval : FollowsEval limit n)
    (hlogical : FollowsLogical limit n) : FollowsLogical limit (n + 1) := by
  intro T K ρ s t t₀ v a f q wanted cs ds last x h hne hsize hstep hcareful
  obtain ⟨c, cs, rfl⟩ := List.exists_cons_of_ne_nil hne
  obtain ⟨d, ds, hcd, hrest, rfl⟩ := List.forall₂_cons_left_iff.1 h.listed.elements
  obtain ⟨rfl, -⟩ := h.listed.left.1
  have hcode : Code T (s.car c) := (h.matched.text (h.text c (by simp))).2.1
  have hlength := h.length_le
  simp only [List.length_cons] at hlength
  rw [Frame.stepLogical, Eval.run_ask_bind] at hstep
  cases cs with
  | nil =>
      obtain rfl : ds = [] := by cases hrest; rfl
      rw [Direct.run_evalLogical_last wanted n last a h.listed.left.1.2.1]
      exact .goOn heval h.released h.destination hcd hcode h.scope
        (fun _ _ hcall => hcareful (.operand hcall)) hsize.le hstep
        (by simp only [List.length_cons]; omega)
  | cons c' cs =>
      obtain ⟨d', ds, -, -, rfl⟩ := List.forall₂_cons_left_iff.1 hrest
      rw [Direct.run_evalLogical_pair]
      rw [if_neg (by simp)] at hstep
      rcases settled_cases h.matched.similar hcd h.scope with
        hnone | ⟨v', w', hv', hw', hrelated⟩ | ⟨e, hleft, hright⟩
      · rw [Eval.run_bind_ok hnone] at hstep
        refine .await heval h.matched h.apart (d := d) (by simp) hcd hcode h.scope
          (fun _ _ hcall => hcareful (.operand hcall)) hsize.le hstep
          (by simp only [List.length_cons]; omega) fun v' s' ρ' y t' hrun hafter hv' => ?_
        have hnodup := h.nodup
        simp only [List.nodup_cons, List.mem_cons, not_or] at hnodup
        have hq : ¬ To (some d) q := fun hto => hnodup.1.1 (Option.some.inj hto).symm
        obtain ⟨hlist, hstep'⟩ := h.arrive (fun _ he => he) hq hafter
        have hdrop := h.drop (g := { f with pushed := true }) ⟨rfl, rfl, rfl⟩ (fun _ he => he)
          (by
            rintro e he hto
            obtain rfl := Option.some.inj hto
            simp [hnodup.2.1.1, hnodup.2.1.2, Ne.symm hnodup.1.1] at he) hafter
        have harrived : ({ f with pushed := true } : Frame).step.run t' =
            (Frame.stepLogical { f with pushed := true } q wanted true (d :: d' :: ds)).run t' := by
          rw [hstep', ← hlist.cells_eq]
          cases wanted <;> rfl
        rw [Frame.stepLogical, Eval.run_ask_bind] at harrived
        refine Meets.mono (followsLogical_rest hlogical (by simp)
          (hafter.matched.mono fun _ hq => .inl hq) hdrop hv' rfl harrived
          (fun hwanted _ _ hcall => hcareful (.operands hrun hwanted hcall)) y) (by omega)
      · rw [Eval.run_bind_ok hw'] at hstep
        have hdrop := h.drop ⟨rfl, rfl, rfl⟩ (fun _ he => he) (D := fun _ => False) (by simp)
          (.refl h.matched)
        cases n with
        | zero =>
            rw [Eval.run_bind_error (Direct.run_eval_zero _ _ _)]
            exact .inr ⟨rfl, .of_le (by simp only [hsize, List.length_cons]; omega)⟩
        | succ n =>
            rw [Eval.run_bind_ok (hv' n)]
            refine Meets.mono (followsLogical_rest hlogical (by simp) h.released hdrop hrelated hsize
              hstep (fun hwanted _ _ hcall => hcareful (.operands (hv' n) hwanted hcall)) x) ?_
            simp only [List.length_cons] at hlength ⊢
            omega
      · rw [Eval.run_bind_error hright] at hstep
        cases n with
        | zero =>
            rw [Eval.run_bind_error (Direct.run_eval_zero _ _ _)]
            exact .inr ⟨rfl, .of_le (by simp only [hsize, List.length_cons]; omega)⟩
        | succ n =>
            rw [Eval.run_bind_error (hleft n)]
            exact .fail hstep (.refl ρ) h.released

/-! ### The form `cond` -/

/-- A list with `begin` before its elements, and its copy. -/
theorem copySpine_begin {t : Store} {d : Ref} {ds : List Ref} (h : t.ListAt (.pair d) (d :: ds)) :
    (t.cons (.keyword .begin) (.pair d)).2.copySpine (t.cons (.keyword .begin) (.pair d)).1 =
      (t.cons (.keyword .begin) (.pair d)).2.list (.keyword .begin :: (d :: ds).map t.car) := by
  have hkeeps : t.Keeps (t.pushPair (.keyword .begin) (.pair d)) := t.keeps_pushPair _ _
  have hsame : ∀ e ∈ d :: ds, (t.pushPair (.keyword .begin) (.pair d)).pair e = t.pair e :=
    fun e he => hkeeps.same .pair e (h.2 e he)
  have hself : (t.pushPair (.keyword .begin) (.pair d)).pair t.pairs.size =
    ⟨.keyword .begin, .pair d⟩ := Store.pair_pushPair_self _ _ _
  have hlist : (t.pushPair (.keyword .begin) (.pair d)).ListAt (.pair t.pairs.size)
      (t.pairs.size :: d :: ds) := by
    have htail := h.congr (fun e he => Store.cdr_eq_of_pair_eq (hsame e he)) (hkeeps.count .pair)
    refine ⟨⟨rfl, ?_⟩, fun e he => ?_⟩
    · rw [Store.cdr, hself]
      exact htail.1
    · rcases List.mem_cons.1 he with rfl | he
      · simp
      · exact htail.2 e he
  have hcars : (t.pairs.size :: d :: ds).map (t.pushPair (.keyword .begin) (.pair d)).car =
      .keyword .begin :: (d :: ds).map t.car := by
    rw [List.map_cons, Store.car, hself,
      List.map_congr_left fun e he => Store.car_eq_of_pair_eq (hsame e he)]
  change (t.pushPair _ _).copySpine (.pair t.pairs.size) = (t.pushPair _ _).list _
  rw [Store.copySpine, hlist.elements?_eq, hcars]

/-- A body of several expressions becomes a `begin` in pairs that are new. -/
theorem exists_begin {t : Store} {d : Ref} {ds : List Ref} (f : Frame)
    (h : t.ListAt (.pair d) (d :: ds)) (hds : ds ≠ []) :
    ∃ q es t', (do Frame.goOn f (← Form.sequence (.pair d)) : Eval Frame.Transition).run t =
        .ok (.suspend (f.withExpr (.pair q)) []) t' ∧ Taken t t' [] ∧
      t'.ListAt (.pair q) (q :: es) ∧ t'.car q = .keyword .begin ∧
      es.map t'.car = (d :: ds).map t.car := by
  obtain ⟨d', ds, rfl⟩ := List.exists_cons_of_ne_nil hds
  have hseveral : (t.cdr d).isNil = false := by
    rw [show t.cdr d = .pair d' from h.1.2.1]
    rfl
  obtain ⟨q, es, hfst, hes, hcars, -⟩ :=
    (t.cons (.keyword .begin) (.pair d)).2.exists_list (.keyword .begin) ((d :: d' :: ds).map t.car)
  refine ⟨q, es, _, ?_, ⟨?_, ?_, by simp, .nil⟩, hes, (List.cons.inj hcars).1,
    (List.cons.inj hcars).2⟩
  · rw [Eval.run_bind_ok (Form.run_sequence_several hseveral), Frame.run_goOn, copySpine_begin h,
      hfst]
  · exact (t.keeps_pushPair _ _).trans (Store.keeps_listWithTail _ _ _)
  · rw [Store.list, Store.listWithTail_eq]
    rfl

/-- A frame goes on with the body of a clause: as one expression, or after a step that puts frames for
all of them in its place. -/
theorem Serves.sequence {T K : Ref → Prop} {ρ : Renaming} {s t t₀ : Store} {v w x : Value} {a : Ref}
    {f : Frame} {m n : Nat} (hbody : FollowsBody limit n) (h : Matched T K ρ s t)
    (hdestination : ∀ q, f.destination = some q → K q) (hv : Related ρ v w) (hcode : Code T v)
    (hlist : s.isList v = true) (hne : v.isNil = false) (hscope : ρ .scope a f.scope)
    (hcareful : Careful T n (.body v a) s) (hsize : t₀.pairs.size ≤ t.pairs.size)
    (hstep : f.step.run t₀ = (do Frame.goOn f (← Form.sequence w) : Eval Frame.Transition).run t)
    (hm : m ≤ n + 2 + t.pairs.size) :
    Serves limit T K ρ s t m [f] f.destination x t₀ ((Direct.evalBody n .void v a).run s) := by
  obtain ⟨cs, ds, hlisted, -⟩ := h.similar.listed hv hlist
  have hT := h.text.chain hcode hlisted.left.1
  cases cs with
  | nil =>
      obtain ⟨rfl, -⟩ := hlisted.left.1
      cases hne
  | cons c cs =>
      obtain ⟨d, ds, hcd, hrest, rfl⟩ := List.forall₂_cons_left_iff.1 hlisted.elements
      obtain ⟨rfl, -⟩ := hlisted.left.1
      obtain ⟨rfl, -⟩ := hlisted.right.1
      cases cs with
      | nil =>
          obtain rfl : ds = [] := by cases hrest; rfl
          rw [Eval.run_bind_ok (Form.run_sequence_single hlisted.right.1.2.1), Frame.run_goOn] at hstep
          obtain ⟨own, hcopied⟩ := h.copy hcd (h.text (hT c (by simp))).2.1
          have hgrows := hcopied.keeps.count .pair
          have hqueue : Queue T ρ s (t.copySpine (t.car d)).2 a f.destination ([c].map s.car)
              [(f.withExpr (t.copySpine (t.car d)).1, own)] :=
            .cons ⟨⟨hcopied.expression, hscope, rfl⟩, rfl⟩ .nil
          have hown : allOwn [(f.withExpr (t.copySpine (t.car d)).1, own)] = own := by simp [allOwn]
          have hserves := hbody .void x hlisted.left (by simp) hT
            (by rw [hown]; exact hcopied.matched h) hqueue (by rw [hown]; exact hcopied.nodup)
            (by rw [hown]; exact fun q hq => hcopied.apart h hq) hdestination hcareful
          refine .after (hcopied.after h)
            (.next (next_suspend hstep) (Nat.le_trans hsize hgrows) hserves ?_)
          simp only [List.length_singleton, Store.count] at hgrows ⊢
          omega
      | cons c' cs =>
          obtain ⟨d', ds, -, -, rfl⟩ := List.forall₂_cons_left_iff.1 hrest
          obtain ⟨q, es, t', hrun, htaken, hes, hhead, hcars⟩ :=
            exists_begin f hlisted.right (by simp)
          have hmatched : Matched T K ρ s t' := (htaken.matched h).mono fun _ hq => .inl hq
          have hlisted' : Listed ρ s t' (.pair c) (t'.cdr q) (c :: c' :: cs) es :=
            .of_values hlisted.left hes.tail (hcars ▸ hlisted.values)
          have hbegin : (f.withExpr (.pair q)).step.run t' =
              (do return .replace (← Frame.ofBody (t'.cdr q) f.scope f.destination) :
                Eval Frame.Transition).run t' := by
            have hpair := hlisted'.isPair_eq
            rw [Frame.run_step_list (f := f.withExpr (.pair q)) rfl hes.isList, Frame.run_stepForm,
              hhead]
            generalize t'.cdr q = body at hpair
            cases body <;> first | rfl | cases hpair
          have hserves := Serves.replace (f := f.withExpr (.pair q)) (x := x) hbody hmatched
            hdestination hlisted' (by simp) hT hscope hcareful (Nat.le_refl _) hbegin (Nat.le_refl _)
            .void
          have hgrows : t.pairs.size ≤ t'.pairs.size := htaken.keeps.count .pair
          refine .after (htaken.after h) (.next (next_suspend (hstep.trans hrun))
            (Nat.le_trans hsize hgrows) hserves ?_)
          simp only
          omega

/-- The machine follows `cond` to some depth. -/
def FollowsClauses (limit n : Nat) : Prop :=
  ∀ ⦃T K : Ref → Prop⦄ ⦃ρ : Renaming⦄ ⦃s t t₀ : Store⦄ ⦃v : Value⦄ ⦃a : Ref⦄ ⦃f : Frame⦄ ⦃q : Ref⦄
    ⦃cs ds : List Ref⦄ (x : Value), Trying T K ρ s t v a f q .cond cs ds →
    t₀.pairs.size = t.pairs.size → f.step.run t₀ = (Frame.stepCond f q false ds).run t →
    Careful T n (.clauses v a) s →
    Serves limit T K ρ s t (n + 2 + (t.pairs.size - cs.length)) [f] f.destination x t₀
      ((Direct.evalClauses n v a).run s)

theorem followsClauses_zero : FollowsClauses limit 0 := by
  intro T K ρ s t t₀ v a f q cs ds x _ hsize _ _
  rw [Direct.run_evalClauses_zero]
  refine .inr ⟨rfl, .of_le ?_⟩
  simp only [hsize]
  omega

/-- When the value of its test is known, a clause is chosen or dropped. -/
theorem followsClauses_rest {n : Nat} (hbody : FollowsBody limit n)
    (hclauses : FollowsClauses limit n) {T K : Ref → Prop} {ρ : Renaming} {s t t₀ : Store}
    {v v' w' body body' : Value} {a q d : Ref} {f : Frame} {cs ds : List Ref}
    (hmatched : Matched T K ρ s t)
    (h : Trying T K ρ s (t.setCdr q (t.cdr d)) v a f q .cond cs ds) (hv : Related ρ v' w')
    (hrelated : Related ρ body body') (hcode : Code T body) (hlist : s.isList body = true)
    (hsize : t₀.pairs.size = t.pairs.size)
    (hstep : f.step.run t₀ = (if w'.isTrue then
        if body'.isNil then return .value w' else do Frame.goOn f (← Form.sequence body')
      else do
        Eval.update fun s => s.setCdr q (s.cdr d)
        Frame.stepCond f q false ds : Eval Frame.Transition).run t)
    (hchosen : v'.isTrue = true → Careful T n (.body body a) s)
    (hdropped : v'.isTrue = false → Careful T n (.clauses v a) s) (x : Value) :
    Serves limit T K ρ s t (n + 2 + (t.pairs.size - cs.length)) [f] f.destination x t₀
      ((Direct.evalClause n v' body v a).run s) := by
  unfold Direct.evalClause
  rw [← hv.isTrue_eq] at hstep
  cases htrue : v'.isTrue with
  | true =>
      simp only [htrue, if_true, ← hrelated.isNil_eq] at hstep ⊢
      cases hnil : body.isNil with
      | true =>
          simp only [hnil, if_true] at hstep ⊢
          exact .value hmatched h.destination hv hstep
      | false =>
          simp only [hnil, Bool.false_eq_true, if_false] at hstep ⊢
          exact .sequence hbody hmatched h.destination hrelated hcode hlist hnil h.scope
            (hchosen htrue) hsize.le hstep (by omega)
  | false =>
      simp only [htrue, Bool.false_eq_true, if_false, Eval.run_update_bind] at hstep ⊢
      have hrest := hclauses x h (by rw [hsize, Store.size_setCdr]) hstep (hdropped htrue)
      rw [Store.size_setCdr] at hrest
      exact .after h.after_drop hrest

/-- The test of a clause is put aside in a pair that receives its value; then the clause is chosen or
dropped. -/
theorem followsClauses_await {n : Nat} (heval : FollowsEval limit n) (hbody : FollowsBody limit n)
    (hclauses : FollowsClauses limit n) {T K : Ref → Prop} {ρ : Renaming} {s t t₀ : Store}
    {a q c d c₀ d₀ : Ref} {f : Frame} {cs ds : List Ref}
    (h : Trying T K ρ s t (.pair c) a f q .cond (c :: cs) (d :: ds))
    (hpair : ρ .pair c₀ d₀) (hT : T c₀) (hlist : s.isList (.pair c₀) = true)
    (hsize : t₀.pairs.size = t.pairs.size)
    (hstep : f.step.run t₀ = (do
      let head ← Eval.make fun s => (s.nextPair, s.pushPair (t.car d₀) (t.cdr d₀))
      Eval.update fun s => s.setCar d (.pair head)
      Frame.await f (t.car d₀) head : Eval Frame.Transition).run t)
    (hclause : (Form.clause (s.car c)).run s = .ok c₀ s) (hother : s.car c₀ ≠ .keyword .otherwise)
    (hcareful : Careful T (n + 1) (.clauses (.pair c) a) s) (x : Value) :
    Serves limit T K ρ s t (n + 1 + 2 + (t.pairs.size - (cs.length + 1))) [f] f.destination x t₀
      ((do
        let test ← Direct.eval n (s.car c₀) a
        let body ← Eval.ask fun s => s.cdr c₀
        Direct.evalClause n test body (s.cdr c) a : Eval Value).run s) := by
  rw [Eval.run_make_bind, Eval.run_update_bind] at hstep
  obtain ⟨t₁, ht₁⟩ : ∃ t₁, t₁ = (t.pushPair (t.car d₀) (t.cdr d₀)).setCar d (.pair t.pairs.size) :=
    ⟨_, rfl⟩
  obtain ⟨hmatched, hparked, hcell, hrest, hgrown⟩ := h.park ht₁
  have hcode := h.matched.text hT
  have hfresh : ∀ e ∈ q :: d :: ds, e < t.pairs.size := fun e he =>
    (h.matched.reserved (.inr he)).1
  have hapart : ∀ e ∈ t.pairs.size :: q :: d :: ds, ¬ K e := by
    intro e he hk
    rcases List.mem_cons.1 he with rfl | he
    · exact Nat.lt_irrefl _ (h.released.reserved hk).1
    · exact h.apart e he hk
  have hgone : ∀ e, K e → ¬ To (some d) e := by
    rintro e hk ⟨⟩
    exact h.apart d (by simp) hk
  have hparkedK : After T K (To f.destination) ρ s t ρ s t₁ :=
    hparked.mono (fun _ hk => .inl hk) fun e hk hto => absurd hto (hgone e hk)
  refine .after hparkedK (Serves.await heval hmatched hapart (d := t.pairs.size) (by simp)
    (h.matched.similar.car hpair) hcode.2.1 h.scope
    (fun _ _ hcall => hcareful (.clauseTest hclause hother hcall)) (by lia) (ht₁ ▸ hstep) (by lia)
    fun v' s' ρ' y t' hrun hafter hv' => ?_)
  -- Seen from the pairs of the form, only the one of the clause has received something.
  have hboth : After T (Including K (q :: d :: ds)) (To (some d)) ρ s t ρ' s' t' := by
    refine hparked.trans (hafter.mono (fun e he => ?_) fun e he hto => ?_)
    · exact he.imp_right fun he => List.mem_cons_of_mem _ he
    · obtain rfl : t.pairs.size = e := Option.some.inj hto
      exact absurd (h.matched.reserved he).1 (Nat.lt_irrefl _)
  have hnodup := h.nodup
  simp only [List.nodup_cons, List.mem_cons, not_or] at hnodup
  have hothers : ∀ e ∈ q :: ds, ¬ To (some d) e := by
    rintro e he ⟨⟩
    rcases List.mem_cons.1 he with rfl | he
    · exact hnodup.1.1 rfl
    · exact hnodup.2.1 he
  have hsame : ∀ p, T p → s'.pair p = s.pair p := fun p hp =>
    hafter.fixed p (h.matched.text hp).1 (.inl hp)
  have hbodies : Related ρ' (s.cdr c₀) (t.cdr d₀) := (h.matched.similar.cdr hpair).mono hafter.le
  have hlistS : s'.isList (s.cdr c₀) = true := h.matched.text.isList hsame hcode.2.2
    (Store.isList_cdr hlist)
  -- The clause is found again in the pair where it was put aside.
  have hcellT : t'.car d = .pair t.pairs.size := by
    rw [hafter.spared d (.inr (by simp)) fun hto => ?_, hcell]
    exact absurd (hfresh d (by simp)) (by rw [← Option.some.inj hto]; exact Nat.lt_irrefl _)
  have hrestT : t'.cdr t.pairs.size = t.cdr d₀ := by
    rw [hafter.rests t.pairs.size (.inr (by simp)), hrest]
  have hclauseT : (Form.clause (t'.car d)).run t' = .ok t.pairs.size t' := by
    rw [hcellT]
    refine Form.run_clause (Store.isList_of_cdr ?_)
    rw [hrestT, ← hafter.matched.similar.isList_eq hbodies]
    exact hlistS
  obtain ⟨hlistT, hstep'⟩ := h.arrive (fun _ he => he) (hothers q (by simp)) hboth
  have harrived : ({ f with pushed := true } : Frame).step.run t' =
      (Frame.stepCond { f with pushed := true } q true (d :: ds)).run t' := by
    rw [hstep', ← hlistT.cells_eq]
    rfl
  rw [Frame.stepCond, Eval.run_ask_bind, Eval.run_bind_ok hclauseT, Eval.run_ask_bind,
    Eval.run_ask_bind, hrestT] at harrived
  rw [Eval.run_ask_bind, Store.cdr_eq_of_pair_eq (hsame c₀ hT)]
  have hdrop := h.drop (g := { f with pushed := true }) ⟨rfl, rfl, rfl⟩ (fun _ he => he) hothers
    hboth
  have htest : (Direct.evalTest n (s.car c₀) a).run s = .ok v' s' := by
    rw [Direct.evalTest_eq hother, hrun]
  exact Meets.mono (followsClauses_rest hbody hclauses (hafter.matched.mono fun _ hq => .inl hq)
    hdrop hv' hbodies hcode.2.2 hlistS rfl harrived
    (fun htrue _ _ hcall => hcareful (.clauseBody hclause htest htrue
      (by rwa [Store.cdr_eq_of_pair_eq (hsame c₀ hT)])))
    (fun hfalse _ _ hcall => hcareful (.clauses hclause htest hfalse hcall)) y) (by omega)

theorem followsClauses_succ {n : Nat} (heval : FollowsEval limit n) (hbody : FollowsBody limit n)
    (hclauses : FollowsClauses limit n) : FollowsClauses limit (n + 1) := by
  intro T K ρ s t t₀ v a f q cs ds x h hsize hstep hcareful
  cases cs with
  | nil =>
      obtain ⟨rfl, -⟩ := h.listed.left.1
      obtain rfl : ds = [] := by simpa using h.listed.length_eq.symm
      rw [Direct.run_evalClauses_nil]
      exact .value (h.released) h.destination (.bool false) hstep
  | cons c cs =>
      obtain ⟨d, ds, hcd, -, rfl⟩ := List.forall₂_cons_left_iff.1 h.listed.elements
      obtain ⟨rfl, -⟩ := h.listed.left.1
      have hlength := h.length_le
      simp only [List.length_cons] at hlength ⊢
      rw [Frame.stepCond, Eval.run_ask_bind] at hstep
      rcases Form.clause_parallel h.matched.similar hcd with
        ⟨c₀, d₀, hl, hr, hcar, hcar', hpair, hlist⟩ | ⟨e, hl, hr⟩
      · have hT : T c₀ := (h.matched.text (h.text c (by simp))).2.1 c₀ hcar
        have hcode := h.matched.text hT
        rw [Eval.run_bind_ok hr, Eval.run_ask_bind, Eval.run_ask_bind] at hstep
        rw [Direct.run_evalClauses_pair n a hl]
        have htest := h.matched.similar.car hpair
        have hdrop := h.drop ⟨rfl, rfl, rfl⟩ (fun _ he => he) (D := fun _ => False) (by simp)
          (.refl h.matched)
        -- The value of the test is known without a frame.
        have hsettled : ∀ {v' w'}, Related ρ v' w' → (Direct.evalTest n (s.car c₀) a).run s = .ok v' s →
            (Frame.settledTest false (t.car d₀) f.scope).run t = .ok (some w') t →
            Serves limit T K ρ s t (n + 1 + 2 + (t.pairs.size - (cs.length + 1))) [f] f.destination x
              t₀ ((do
                let test ← Direct.evalTest n (s.car c₀) a
                let body ← Eval.ask fun s => s.cdr c₀
                Direct.evalClause n test body (s.cdr c) a : Eval Value).run s) := by
          intro v' w' hv hleft hright
          rw [Eval.run_bind_ok hright] at hstep
          rw [Eval.run_bind_ok hleft, Eval.run_ask_bind]
          refine Meets.mono (followsClauses_rest hbody hclauses h.released hdrop hv
            (h.matched.similar.cdr hpair) hcode.2.2 (Store.isList_cdr hlist) hsize hstep
            (fun htrue _ _ hcall => hcareful (.clauseBody hl hleft htrue hcall))
            (fun hfalse _ _ hcall => hcareful (.clauses hl hleft hfalse hcall)) x) (by omega)
        by_cases hother : s.car c₀ = .keyword .otherwise
        · have hother' : t.car d₀ = .keyword .otherwise := by
            rw [hother] at htest
            generalize t.car d₀ = w at htest
            cases htest
            rfl
          refine hsettled (.bool true) ?_ ?_
          · rw [hother]
            rfl
          · rw [hother']
            rfl
        · have hsame : Frame.settledTest false (t.car d₀) f.scope =
              Frame.settledValue false (t.car d₀) f.scope := by
            generalize t.car d₀ = w at htest
            generalize s.car c₀ = v at htest hother
            unfold Frame.settledTest
            split
            · cases htest
              contradiction
            · rfl
          rw [Direct.evalTest_eq hother] at hsettled ⊢
          rcases settled_cases h.matched.similar htest h.scope with
            hnone | ⟨v', w', hv', hw', hrelated⟩ | ⟨e, hleft, hright⟩
          · rw [hsame, Eval.run_bind_ok hnone] at hstep
            exact followsClauses_await heval hbody hclauses h hpair hT hlist hsize hstep hl hother
              hcareful x
          · cases n with
            | zero =>
                rw [Eval.run_bind_error (Direct.run_eval_zero _ _ _)]
                exact .inr ⟨rfl, .of_le (by simp only [hsize]; omega)⟩
            | succ n => exact hsettled hrelated (hv' n) (by rw [hsame, hw'])
          · rw [hsame, Eval.run_bind_error hright] at hstep
            cases n with
            | zero =>
                rw [Eval.run_bind_error (Direct.run_eval_zero _ _ _)]
                exact .inr ⟨rfl, .of_le (by simp only [hsize]; omega)⟩
            | succ n =>
                rw [Eval.run_bind_error (hleft n)]
                exact .fail hstep (.refl ρ) h.released
      · rw [Direct.run_evalClauses_error n a hl]
        exact .fail (hstep.trans (Eval.run_bind_error hr)) (.refl ρ) h.released

end Machine
end LittleScheme
