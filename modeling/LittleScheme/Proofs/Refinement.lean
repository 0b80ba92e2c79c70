import LittleScheme.Proofs.Fuel
import LittleScheme.Proofs.Loading
import LittleScheme.Proofs.Simulation
import LittleScheme.Proofs.Sound
import LittleScheme.Proofs.Untraced

/-!
# The stack machine refines the recursive evaluator

From matching states the machine comes to an end exactly when the recursion does, and they end alike:
in related values or for the same reason, in stores that match again. So whole sessions can be compared,
text after text, also when some of them end in errors.
-/
namespace LittleScheme

open Direct (Careful)
open Eval (Ends Fuelled untraced)
open Value (Related)

namespace Evaluator

/-- The recursive evaluator. It makes no traces, so there is nothing to limit. -/
def byRecursion : Evaluator := { strategy := .recursive }

/-- The stack machine with some limit for its traces. -/
def onStack (limit : Nat) : Evaluator := { strategy := .stack, traceLimit := limit }

end Evaluator

/-- The outcome of an evaluation, with the store that it leaves. -/
abbrev Outcome := EStateM.Result Stop Store Value

/-- The store that an evaluation leaves, also when it stops without a value. -/
def Outcome.store : Outcome → Store
  | .ok _ s | .error _ s => s

/-- Stores that match between evaluations, when no pair is in use. -/
abbrev Matches (T : Ref → Prop) : Renaming → Store → Store → Prop := Matched T fun _ => False

/-- Two evaluations end alike: in values that are written alike and have the same type, or for the same
reason. The stores match along a renaming that keeps what was related before, and so do their ports
and consoles. -/
inductive EndsAlike (T : Ref → Prop) (ρ : Renaming) : Outcome → Outcome → Prop
  | value {ρ' : Renaming} {v w : Value} {s t : Store} (hle : ρ.Le ρ') (hmatches : Matches T ρ' s t)
      (hconsole : s.console = t.console) (hrelated : Related ρ' v w)
      (hwritten : s.written v = t.written w) (htype : v.typeName = w.typeName) :
      EndsAlike T ρ (.ok v s) (.ok w t)
  | stop {ρ' : Renaming} {e : Stop} {s t : Store} (hle : ρ.Le ρ') (hmatches : Matches T ρ' s t)
      (hconsole : s.console = t.console) : EndsAlike T ρ (.error e s) (.error e t)

/-- Each of two computations comes to an end exactly when the other does, and they end alike. -/
structure SameEnds (T : Ref → Prop) (ρ : Renaming) (x : Nat → Eval Value) (s : Store)
    (y : Nat → Eval Value) (t : Store) : Prop where
  right : ∀ r, Ends x s r → ∃ r', Ends y t r' ∧ EndsAlike T ρ r r'
  left : ∀ r', Ends y t r' → ∃ r, Ends x s r ∧ EndsAlike T ρ r r'

section

variable {T : Ref → Prop} {ρ ρ' : Renaming} {s t : Store}

theorem EndsAlike.of_related {v w : Value} (hle : ρ.Le ρ') (h : Matches T ρ' s t)
    (hv : Related ρ' v w) : EndsAlike T ρ (.ok v s) (.ok w t) :=
  .value hle h h.similar.console hv (h.similar.written hv) hv.typeName_eq

theorem EndsAlike.mono {r r' : Outcome} (h : EndsAlike T ρ' r r') (hle : ρ.Le ρ') :
    EndsAlike T ρ r r' := by
  cases h with
  | value hle' hmatches _ hv _ _ => exact .of_related (hle.trans hle') hmatches hv
  | stop hle' hmatches hconsole => exact .stop (hle.trans hle') hmatches hconsole

/-- It is enough that one end leads to the other, and back to some end. -/
theorem SameEnds.of_exists {x y : Nat → Eval Value}
    (hright : ∀ r, Ends x s r → ∃ r', Ends y t r' ∧ EndsAlike T ρ r r')
    (hleft : ∀ r', Ends y t r' → ∃ r, Ends x s r) : SameEnds T ρ x s y t where
  right := hright
  left r' hr' := by
    obtain ⟨r, hr⟩ := hleft r' hr'
    obtain ⟨r'', hr'', halike⟩ := hright r hr
    obtain rfl := hr'.unique hr''
    exact ⟨r, hr, halike⟩

end

/-! ### Ends of the machine -/

namespace Machine

variable {limit : Nat}

theorem ends_of_reaches {m : Machine} {v : Value} {s s' : Store}
    (h : Reaches limit (m, s) (⟨[], v, []⟩, s')) : Ends (fun n => run limit n m) s (.ok v s') := by
  obtain ⟨k, hk⟩ := run_of_reaches h
  refine (run_fuelled limit m).ends (n := 1 + k) ?_ nofun
  rw [hk 1]
  rfl

theorem ends_of_reaches_error {c c' : Machine × Store} {e : Stop} {s' : Store}
    (h : Reaches limit c c') (he : (c'.1.step limit).run c'.2 = .error e s')
    (hfuel : e.untraced ≠ .outOfFuel) : Ends (fun n => run limit n c.1) c.2 (.error e.untraced s') := by
  obtain ⟨n, hn⟩ := run_of_reaches_error h he
  refine ⟨fun t ht => hfuel (EStateM.Result.error.inj ht).1, n, fun fuel hle => ?_⟩
  rw [hn fuel hle]
  rfl

/-- A run that does not use up its fuel goes through configurations of bounded size, and is short. -/
theorem exists_bound {n : Nat} {c : Machine × Store}
    (h : ∀ s', (run limit n c.1).run c.2 ≠ .error .outOfFuel s') :
    ∃ N, ∀ k c', Steps limit k c c' → k ≤ n ∧ c'.2.pairs.size ≤ N := by
  induction n generalizing c with
  | zero => exact absurd rfl (h c.2)
  | succ n ih =>
      have hlast (hnone : ∀ c₁, ¬ Next limit c c₁) :
          ∃ N, ∀ k c', Steps limit k c c' → k ≤ n + 1 ∧ c'.2.pairs.size ≤ N := by
        refine ⟨c.2.pairs.size, fun k c' hsteps => ?_⟩
        cases k with
        | zero =>
            obtain rfl : c = c' := hsteps
            exact ⟨Nat.zero_le _, Nat.le_refl _⟩
        | succ k =>
            obtain ⟨c₁, hnext, -⟩ := hsteps
            exact absurd hnext (hnone c₁)
      cases hstep : (c.1.step limit).run c.2 with
      | error e s' =>
          refine hlast fun c₁ hnext => ?_
          rw [Next, hstep] at hnext
          cases hnext
      | ok next s' =>
          cases next with
          | inr v =>
              refine hlast fun c₁ hnext => ?_
              rw [Next, hstep] at hnext
              cases hnext
          | inl m =>
              have hrun : (run limit (n + 1) c.1).run c.2 = (run limit n m).run s' :=
                Eval.run_bind_ok hstep
              obtain ⟨N, hN⟩ := ih (c := (m, s')) (hrun ▸ h)
              refine ⟨max c.2.pairs.size N, fun k c' hsteps => ?_⟩
              cases k with
              | zero =>
                  obtain rfl : c = c' := hsteps
                  exact ⟨Nat.zero_le _, Nat.le_max_left _ _⟩
              | succ k =>
                  obtain ⟨⟨m₁, s₁⟩, hnext, hrest⟩ := hsteps
                  rw [Next, hstep] at hnext
                  obtain ⟨hm, rfl⟩ := EStateM.Result.ok.inj hnext
                  obtain rfl := Sum.inl.inj hm
                  obtain ⟨hk, hsize⟩ := hN k c' hrest
                  exact ⟨Nat.succ_le_succ hk, Nat.le_trans hsize (Nat.le_max_right _ _)⟩

/-- A machine that comes to an end accounts for no more than a certain number of nested calls. -/
theorem laps_bounded {m : Machine} {s : Store} {r : Outcome} (h : Ends (fun n => run limit n m) s r) :
    ∃ N, ∀ n, Laps limit n (m, s) → n ≤ N := by
  obtain ⟨hr, k, hk⟩ := h
  have hrun : ∀ s', (run limit k m).run s ≠ .error .outOfFuel s' := by
    intro s' hout
    have hend := hk k (Nat.le_refl k)
    rw [hout] at hend
    exact hr s' hend.symm
  obtain ⟨N, hN⟩ := exists_bound (c := (m, s)) hrun
  refine ⟨(k + 1) * (N + 8), fun n hlaps => ?_⟩
  obtain ⟨j, c', hsteps, -, hn⟩ := hlaps
  obtain ⟨hj, hsize⟩ := hN j c' hsteps
  exact Nat.le_trans hn (Nat.mul_le_mul (by omega) (by omega))

section

variable {T : Ref → Prop} {ρ : Renaming} {s t : Store} {n : Nat} {f : Frame} {x : Value}

/-- The machine comes to the end of the recursion that it follows, if there is fuel enough for that. -/
theorem ends_of_serves {r : Outcome} (h : Serves limit T (fun _ => False) ρ s t n [f] none x t r)
    (hfuel : ∀ s', untraced r ≠ .error .outOfFuel s') :
    ∃ r', Ends (fun n => run limit n ⟨[f], x, []⟩) t r' ∧ EndsAlike T ρ (untraced r) r' := by
  cases r with
  | ok v s' =>
      obtain ⟨ρ', y, t', hreaches, hafter, hy⟩ := h
      exact ⟨_, ends_of_reaches hreaches, .of_related hafter.le hafter.matched hy⟩
  | error e s' =>
      rcases h with ⟨ρ', c', e', t', hreaches, hstep, heq, hle, hmatched⟩ | ⟨rfl, -⟩
      · have hne : e'.untraced ≠ .outOfFuel := fun hout => hfuel s' (by rw [← hout, heq]; rfl)
        refine ⟨_, ends_of_reaches_error hreaches hstep hne, ?_⟩
        rw [heq]
        exact .stop hle hmatched hmatched.similar.console
      · exact absurd rfl (hfuel s')

/-- A machine that comes to an end while the recursion runs out of fuel accounts for its depth. -/
theorem laps_of_serves {e : Stop} {s' : Store} {r : Outcome}
    (h : Serves limit T (fun _ => False) ρ s t n [f] none x t (.error e s'))
    (he : e.untraced = .outOfFuel) (hends : Ends (fun n => run limit n ⟨[f], x, []⟩) t r) :
    Laps limit n (⟨[f], x, []⟩, t) := by
  rcases h with ⟨ρ', c', e', t', hreaches, hstep, heq, -, -⟩ | ⟨-, hlaps⟩
  · obtain ⟨k, hk⟩ := run_of_reaches_error hreaches hstep
    obtain ⟨hfuel, m, hm⟩ := hends
    have hend := hm (max k m) (Nat.le_max_right _ _)
    rw [hk _ (Nat.le_max_left _ _)] at hend
    exact absurd hend.symm (by rw [untraced, heq, he]; exact hfuel t')
  · exact hlaps

end

end Machine

/-! ### Expressions -/

section

variable {T : Ref → Prop} {ρ : Renaming} {s t : Store} {a b : Ref}

/-- Related expressions come to the same end by recursion and on the machine. -/
theorem eval_sameEnds (limit : Nat) (h : Matches T ρ s t) (ha : ρ .scope a b) {v w : Value}
    (hv : Related ρ v w) (hcode : Code T v) (hcareful : ∀ n, Careful T n (.eval v a) s) :
    SameEnds T ρ (fun n => Direct.eval n v a) s (fun n => Machine.eval limit n w b) t := by
  obtain ⟨own, hcopied⟩ := h.copy hv hcode
  have hready : Machine.Ready T (fun _ => False) ρ s (t.copySpine w).2 v a
      (Frame.fresh b none (t.copySpine w).1) own :=
    ⟨Machine.begins_new hcopied ha, hcopied.matched h, fun q hq => hcopied.apart h hq, nofun⟩
  have hserves (n : Nat) := (Machine.follows limit n).eval .void hready (hcareful n)
  have hstart (r : Outcome) : Ends (fun n => Machine.eval limit n w b) t r ↔
      Ends (fun n => Machine.run limit n ⟨[.fresh b none (t.copySpine w).1], .void, []⟩)
        (t.copySpine w).2 r := Eval.ends_congr 0 0 fun _ _ => rfl
  refine .of_exists (fun r hr => ?_) fun r' hr' => ?_
  · obtain ⟨hfuel, n, hn⟩ := hr
    obtain rfl := hn n (Nat.le_refl n)
    obtain ⟨r', hr', halike⟩ := Machine.ends_of_serves (hserves n) hfuel
    exact ⟨r', (hstart r').2 hr', halike⟩
  -- The machine has come to an end, so it cannot account for arbitrarily deep recursion.
  · have hends := (hstart r').1 hr'
    obtain ⟨N, hN⟩ := Machine.laps_bounded hends
    refine ⟨_, (Direct.eval_fuelled v a).ends (n := N + 1) rfl fun s₁ hout => ?_⟩
    have hdeep := hserves (N + 1)
    cases hrun : (Direct.eval (N + 1) v a).run s with
    | ok v' s' =>
        rw [hrun] at hout
        cases hout
    | error e s' =>
        rw [hrun] at hdeep hout
        have he : e.untraced = .outOfFuel := (EStateM.Result.error.inj hout).1
        exact absurd (hN _ (Machine.laps_of_serves hdeep he hends)) (by omega)

/-! ### Texts -/

theorem SameEnds.of_ends {x y : Nat → Eval Value} {r r' : Outcome} (hx : Ends x s r)
    (hy : Ends y t r') (h : EndsAlike T ρ r r') : SameEnds T ρ x s y t := by
  refine .of_exists (fun r₁ hr₁ => ⟨r', hy, ?_⟩) fun _ _ => ⟨r, hx⟩
  rwa [hr₁.unique hx]

theorem SameEnds.bind {x y : Nat → Eval Value} {f g : Nat → Value → Eval Value} (hx : Fuelled x)
    (hy : Fuelled y) (hf : ∀ v, Fuelled fun n => f n v) (hg : ∀ v, Fuelled fun n => g n v)
    (h : SameEnds T ρ x s y t)
    (hfg : ∀ v w s' t' ρ', Ends x s (.ok v s') → ρ.Le ρ' → Matches T ρ' s' t' → Related ρ' v w →
      SameEnds T ρ' (fun n => f n v) s' (fun n => g n w) t') :
    SameEnds T ρ (fun n => x n >>= f n) s (fun n => y n >>= g n) t := by
  refine .of_exists (fun r hr => ?_) fun r' hr' => ?_
  · rcases (Eval.ends_bind hx hf).1 hr with ⟨v, s', hfirst, hrest⟩ | ⟨e, s', hfirst, rfl⟩
    · obtain ⟨r₁, hr₁, halike⟩ := h.right _ hfirst
      cases halike with
      | value hle hmatches _ hrelated _ _ =>
          obtain ⟨r', hr', halike'⟩ := (hfg _ _ _ _ _ hfirst hle hmatches hrelated).right r hrest
          exact ⟨r', (Eval.ends_bind hy hg).2 (.inl ⟨_, _, hr₁, hr'⟩), halike'.mono hle⟩
    · obtain ⟨r₁, hr₁, halike⟩ := h.right _ hfirst
      cases halike with
      | stop hle hmatches hconsole =>
          exact ⟨_, (Eval.ends_bind hy hg).2 (.inr ⟨_, _, hr₁, rfl⟩), .stop hle hmatches hconsole⟩
  · rcases (Eval.ends_bind hy hg).1 hr' with ⟨w, t', hfirst, hrest⟩ | ⟨e, t', hfirst, rfl⟩
    · obtain ⟨r₁, hr₁, halike⟩ := h.left _ hfirst
      cases halike with
      | value hle hmatches _ hrelated _ _ =>
          obtain ⟨r, hr, -⟩ := (hfg _ _ _ _ _ hr₁ hle hmatches hrelated).left r' hrest
          exact ⟨r, (Eval.ends_bind hx hf).2 (.inl ⟨_, _, hr₁, hr⟩)⟩
    · obtain ⟨r₁, hr₁, halike⟩ := h.left _ hfirst
      cases halike with
      | stop hle hmatches hconsole => exact ⟨_, (Eval.ends_bind hx hf).2 (.inr ⟨_, _, hr₁, rfl⟩)⟩

/-- The evaluation of some expressions in order is careful. -/
def CarefulAll (T : Ref → Prop) (a : Ref) : List Value → Store → Prop
  | [], _ => True
  | v :: vs, s => (∀ n, Careful T n (.eval v a) s) ∧
      ∀ v' s', Ends (fun n => Direct.eval n v a) s (.ok v' s') → CarefulAll T a vs s'

theorem foldlM_eval_fuelled (e : Evaluator) (exprs : List Value) (scope : Ref) (last : Value) :
    Fuelled fun n => exprs.foldlM (fun _ expr => e.eval n expr scope) last :=
  fun n => Eval.prolongs_foldlM (fun _ expr => e.eval_fuelled expr scope n) exprs last

/-- Expressions evaluated in order, the last value before them given. -/
theorem foldlM_eval_sameEnds (limit : Nat) (h : Matches T ρ s t) (ha : ρ .scope a b)
    {vs ws : List Value} (hvs : List.Forall₂ (Related ρ) vs ws) (hcode : ∀ v ∈ vs, Code T v)
    (hcareful : CarefulAll T a vs s) {last last' : Value} (hlast : Related ρ last last') :
    SameEnds T ρ
      (fun n => vs.foldlM (fun _ v => Evaluator.byRecursion.eval n v a) last) s
      (fun n => ws.foldlM (fun _ w => (Evaluator.onStack limit).eval n w b) last') t := by
  induction vs generalizing ws ρ s t last last' with
  | nil =>
      cases hvs
      have hends (v : Value) (u : Store) : Ends (fun _ => pure v) u (.ok v u) :=
        ⟨nofun, 0, fun _ _ => rfl⟩
      exact .of_ends (hends last s) (hends last' t) (.of_related (.refl ρ) h hlast)
  | cons v vs ih =>
      obtain ⟨w, ws, hv, hrest, rfl⟩ := List.forall₂_cons_left_iff.1 hvs
      simp only [List.foldlM_cons]
      have hfirst := eval_sameEnds limit h ha hv (hcode v (by simp)) hcareful.1
      refine .bind (Evaluator.eval_fuelled _ v a) (Evaluator.eval_fuelled _ w b)
        (fun last => foldlM_eval_fuelled _ vs a last) (fun last => foldlM_eval_fuelled _ ws b last)
        hfirst fun v' w' s' t' ρ' hends hle hmatches hv' => ?_
      exact ih hmatches (hle ha) (hrest.imp fun _ _ hvw => hvw.mono hle)
        (fun v hv => hcode v (by simp [hv])) (hcareful.2 v' s' hends) hv'

/-- The text in a store after another text has been read: its pairs, if it is well formed, are new. -/
def textAfter (T : Ref → Prop) (s : Store) (text : String) (r : Ref) : Prop :=
  T r ∨ ∃ data, Reader.parseAll text = .ok data ∧ s.Between (s.loadAll data).2 r

/-- The evaluation of a text is careful. -/
def CarefulText (T : Ref → Prop) (a : Ref) (text : String) (s : Store) : Prop :=
  ∀ data, Reader.parseAll text = .ok data →
    CarefulAll (textAfter T s text) a (s.loadAll data).1 (s.loadAll data).2

theorem evalText_sameEnds (limit : Nat) (h : Matches T ρ s t) (ha : ρ .scope a b) {text : String}
    (hcareful : CarefulText T a text s) :
    SameEnds (textAfter T s text) ρ
      (fun n => Evaluator.byRecursion.evalText n text a) s
      (fun n => (Evaluator.onStack limit).evalText n text b) t := by
  cases hparse : Reader.parseAll text with
  | error e =>
      have htext : textAfter T s text = T := by
        funext r
        simp [textAfter, hparse]
      have hends (e' : Evaluator) (scope : Ref) (s : Store) :
          Ends (fun n => e'.evalText n text scope) s (.error (.error e.untraced) s) := by
        refine ⟨nofun, 0, fun fuel _ => ?_⟩
        simp only [Evaluator.evalText, hparse]
        rfl
      rw [htext]
      exact .of_ends (hends _ a s) (hends _ b t) (.stop (.refl ρ) h h.similar.console)
  | ok data =>
      have htext : textAfter T s text = fun r => T r ∨ s.Between (s.loadAll data).2 r := by
        funext r
        simp [textAfter, hparse]
      obtain ⟨ρ', hle, hmatches, hvs, hcode⟩ := h.loadAll data
      rw [← htext] at hmatches hcode
      have hsame := foldlM_eval_sameEnds limit hmatches (hle ha) hvs hcode (hcareful data hparse)
        (.void : Related ρ' .void .void)
      have hends (e : Evaluator) (scope : Ref) (s : Store) (r : Outcome) :
          Ends (fun n => e.evalText n text scope) s r ↔
            Ends (fun n => e.evalAll n (s.loadAll data).1 scope) (s.loadAll data).2 r := by
        refine Eval.ends_congr 0 0 fun fuel _ => ?_
        simp only [Evaluator.evalText, hparse]
        rfl
      constructor
      · intro r hr
        obtain ⟨r', hr', halike⟩ := hsame.right r ((hends _ a s r).1 hr)
        exact ⟨r', (hends _ b t r').2 hr', halike.mono hle⟩
      · intro r' hr'
        obtain ⟨r, hr, halike⟩ := hsame.left r' ((hends _ b t r').1 hr')
        exact ⟨r, (hends _ a s r).2 hr, halike.mono hle⟩

end

/-! ### Sessions -/

/-- The outcomes of some texts, evaluated one after the other. Each of them starts from the store that
the one before has left, also when that has failed. -/
inductive Evaluator.Answers (e : Evaluator) (scope : Ref) : Store → List String → List Outcome → Prop
  | nil {s : Store} : Answers e scope s [] []
  | cons {s : Store} {text : String} {texts : List String} {r : Outcome} {rs : List Outcome}
      (h : Ends (fun n => e.evalText n text scope) s r) (hrest : Answers e scope r.store texts rs) :
      Answers e scope s (text :: texts) (r :: rs)

/-- The evaluation of some texts by recursion, one after the other, is careful towards all the text
that has been read. -/
def CarefulTexts (T : Ref → Prop) (a : Ref) : List String → Store → Prop
  | [], _ => True
  | text :: texts, s => CarefulText T a text s ∧
      ∀ r : Outcome, Ends (fun n => Evaluator.byRecursion.evalText n text a) s r →
        CarefulTexts (textAfter T s text) a texts r.store

/-- The outcomes of some texts are alike, one by one. -/
inductive AnswersAlike (ρ : Renaming) :
    (Ref → Prop) → Store → List String → List Outcome → List Outcome → Prop
  | nil {T : Ref → Prop} {s : Store} : AnswersAlike ρ T s [] [] []
  | cons {T : Ref → Prop} {s : Store} {text : String} {texts : List String} {r r' : Outcome}
      {rs rs' : List Outcome} (h : EndsAlike (textAfter T s text) ρ r r')
      (hrest : AnswersAlike ρ (textAfter T s text) r.store texts rs rs') :
      AnswersAlike ρ T s (text :: texts) (r :: rs) (r' :: rs')

theorem EndsAlike.exists_matches {T : Ref → Prop} {ρ : Renaming} {r r' : Outcome}
    (h : EndsAlike T ρ r r') : ∃ ρ', ρ.Le ρ' ∧ Matches T ρ' r.store r'.store := by
  cases h with
  | value hle hmatches _ _ _ _ => exact ⟨_, hle, hmatches⟩
  | stop hle hmatches _ => exact ⟨_, hle, hmatches⟩

theorem AnswersAlike.mono {T : Ref → Prop} {ρ ρ' : Renaming} {s : Store} {texts : List String}
    {rs rs' : List Outcome} (h : AnswersAlike ρ' T s texts rs rs') (hle : ρ.Le ρ') :
    AnswersAlike ρ T s texts rs rs' := by
  induction h with
  | nil => exact .nil
  | cons h _ ih => exact .cons (h.mono hle) ih

/-- Two sessions over the same texts give as many answers, and these are alike. -/
structure SameAnswers (limit : Nat) (T : Ref → Prop) (ρ : Renaming) (a : Ref) (s : Store) (b : Ref)
    (t : Store) (texts : List String) : Prop where
  right : ∀ rs, Evaluator.byRecursion.Answers a s texts rs →
    ∃ rs', (Evaluator.onStack limit).Answers b t texts rs' ∧ AnswersAlike ρ T s texts rs rs'
  left : ∀ rs', (Evaluator.onStack limit).Answers b t texts rs' →
    ∃ rs, Evaluator.byRecursion.Answers a s texts rs ∧ AnswersAlike ρ T s texts rs rs'

theorem answers_same (limit : Nat) {T : Ref → Prop} {ρ : Renaming} {s t : Store} {a b : Ref}
    (h : Matches T ρ s t) (ha : ρ .scope a b) {texts : List String}
    (hcareful : CarefulTexts T a texts s) : SameAnswers limit T ρ a s b t texts := by
  induction texts generalizing T ρ s t with
  | nil =>
      constructor
      · rintro _ ⟨⟩
        exact ⟨[], .nil, .nil⟩
      · rintro _ ⟨⟩
        exact ⟨[], .nil, .nil⟩
  | cons text texts ih =>
      have hsame := evalText_sameEnds limit h ha hcareful.1
      constructor
      · rintro _ (_ | @⟨_, _, _, r, rs, hr, hrs⟩)
        obtain ⟨r', hr', halike⟩ := hsame.right r hr
        obtain ⟨ρ', hle, hmatches⟩ := halike.exists_matches
        obtain ⟨rs', hrs', halikes⟩ := (ih hmatches (hle ha) (hcareful.2 r hr)).right rs hrs
        exact ⟨r' :: rs', .cons hr' hrs', .cons halike (halikes.mono hle)⟩
      · rintro _ (_ | @⟨_, _, _, r', rs', hr', hrs'⟩)
        obtain ⟨r, hr, halike⟩ := hsame.left r' hr'
        obtain ⟨ρ', hle, hmatches⟩ := halike.exists_matches
        obtain ⟨rs, hrs, halikes⟩ := (ih hmatches (hle ha) (hcareful.2 r hr)).left rs' hrs'
        exact ⟨r :: rs, .cons hr hrs, .cons halike (halikes.mono hle)⟩

/-! ### Where sessions start -/

/-- The bodies of the closures are lists of text. -/
def Store.BodiesIn (T : Ref → Prop) (s : Store) : Prop :=
  ∀ c < s.closures.size, ∃ cs, cs ≠ [] ∧ s.ListAt (s.closure c).body cs ∧ ∀ e ∈ cs, T e

/-- A store matches itself. -/
theorem Store.Sound.matches {T : Ref → Prop} {s : Store} (h : s.Sound) (htext : TextIn T s)
    (hbodies : s.BodiesIn T) : Matches T (.identity s) s s where
  similar := h.similar
  text := htext
  reserved _ hq := hq.elim
  bodies := by
    rintro c _ ⟨rfl, hc⟩
    obtain ⟨cs, hne, hlist, hcs⟩ := hbodies c hc
    refine ⟨cs, cs, hne, ⟨hlist, hlist, List.forall₂_same.2 fun e he => ?_⟩, hcs, fun e he => ?_⟩
    · exact (h.pair e (hlist.2 e he)).1.related
    · exact ⟨not_false, .inr ⟨e, hcs e he, rfl, hlist.2 e he⟩⟩

theorem nativeEnvironment_agree {ρ : Renaming} :
    Agree ρ nativeEnvironment nativeEnvironment fun ρ' => ρ' .scope := by
  refine Eval.newRoot_agree.bind fun ρ' a b _ hscope => ?_
  have hnatives : List.Forall₂ (fun x y => x.1 = y.1 ∧ Related ρ' x.2 y.2)
      (Native.all.map fun p => (p.name, Value.native p))
      (Native.all.map fun p => (p.name, Value.native p)) := by
    refine List.forall₂_same.2 fun x hx => ?_
    obtain ⟨p, -, rfl⟩ := List.mem_map.1 hx
    exact ⟨rfl, .native p⟩
  exact (Agree.update (fun s t hs => hs.bindAll hscope hnatives) (fun s => s.grows_bindAll a _)
    fun t => t.grows_bindAll b _).bind fun _ _ _ hle _ => .pure (hle hscope)

/-- The environment of a new interpreter, before any text. -/
theorem nativeEnvironment_matches {console : Console} {a : Ref} {s : Store}
    (h : nativeEnvironment.run (.ofConsole console) = .ok a s) :
    ∃ ρ, Matches (fun _ => False) ρ s s ∧ ρ .scope a a := by
  have hsound : (Store.ofConsole console).Sound := by
    refine ⟨?_, ?_, ?_, ?_, ?_, ?_, ?_, ?_⟩ <;> simp [Store.ofConsole]
  have hempty : Matches (fun _ => False) (.identity (.ofConsole console)) (.ofConsole console)
      (.ofConsole console) := hsound.matches (fun _ hr => hr.elim) (by simp [Store.BodiesIn,
        Store.ofConsole])
  rcases hempty.together (D := fun _ => False) nativeEnvironment_agree with
    ⟨ρ', a', b', s', t', hs, ht, hafter, hscope⟩ | ⟨e, ρ', s', t', hs, -, -⟩
  · rw [h] at hs ht
    obtain ⟨rfl, rfl⟩ := EStateM.Result.ok.inj hs
    obtain ⟨rfl, rfl⟩ := EStateM.Result.ok.inj ht
    exact ⟨ρ', hafter.matched, hscope⟩
  · rw [h] at hs
    cases hs

/-! ### Careful applications -/

namespace Direct

variable {T : Ref → Prop} {s s' : Store} {a r : Ref} {k : Nat}

theorem careful_settled {v : Value} (h : Frame.needsEvaluation s v = false) (n : Nat) :
    Careful T n (.eval v a) s := by
  intro _ _ hcalls
  cases hcalls with
  | list hlist _ => exact absurd (hlist.symm.trans h) (by decide)

theorem careful_each_nil (n : Nat) : Careful T n (.each .nil a) s := by
  intro _ _ hcalls
  cases hcalls

theorem careful_each {v : Value} (hrun : (eval k (s.car r) a).run s = .ok v s')
    (hfirst : ∀ n, Careful T n (.eval (s.car r) a) s)
    (hrest : ∀ n, Careful T n (.each (s.cdr r) a) s') (n : Nat) :
    Careful T n (.each (.pair r) a) s := by
  intro _ _ hcalls
  cases hcalls with
  | element hcalls => exact hfirst _ hcalls
  | elements hv hcalls =>
      obtain ⟨-, rfl⟩ := (eval_fuelled _ a).eq_of_ok hv hrun
      exact hrest _ hcalls

theorem careful_application {p : Value} {vs : List Value} (hhead : ∀ k, s.car r ≠ .keyword k)
    (hrun : (evalEach k (.pair r) a).run s = .ok (p :: vs) s')
    (hparts : ∀ n, Careful T n (.each (.pair r) a) s) (hcall : ∀ n, Careful T n (.apply p vs) s')
    (n : Nat) : Careful T n (.eval (.pair r) a) s := by
  intro _ _ hcalls
  cases hcalls with
  | list _ hcalls =>
      cases hcalls with
      | parts _ hcalls => exact hparts _ hcalls
      | application _ hvs hcalls =>
          obtain ⟨heq, rfl⟩ := (evalEach_fuelled _ a).eq_of_ok hvs hrun
          obtain ⟨rfl, rfl⟩ := List.cons.inj heq
          exact hcall _ hcalls
      | _ => exact absurd ‹_› (hhead _)

theorem careful_native {p : Native} {vs : List Value} {v : Value}
    (htarget : ∀ r, p.target? vs = some r → ¬ T r) (hrun : (p.call vs).run s = .ok (.value v) s')
    (n : Nat) : Careful T n (.apply (.native p) vs) s := by
  intro _ _ hcalls
  cases hcalls with
  | call => exact ⟨nofun, fun _ r hp hr => htarget r (Value.native.inj hp ▸ hr)⟩
  | inner hcall _ _ _ =>
      rw [hrun] at hcall
      cases hcall

end Direct

open Direct (careful_settled careful_each careful_each_nil careful_application careful_native)

namespace Evaluator

end Evaluator

end LittleScheme
