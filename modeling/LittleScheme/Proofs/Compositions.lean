import LittleScheme.Proofs.Destinations
import LittleScheme.Proofs.Standing

/-!
# A frame runs as if it were alone

Take any moment of an evaluation, with a frame on top of others. A machine that holds this frame alone,
whose value is the result, takes the same steps, fails at the same step or comes to its end after as
many; the machine with the other frames below then has them on top again and has put the value where
it goes. All that time it leaves them and the pairs they work on alone, and the stores of the two
differ at most in the pair that receives the value. An exception is a frame whose expression was no
proper list when the frame was made: it has not been copied, so what it waits for goes to a pair of
the program, which the frame on top can get at.
-/
namespace LittleScheme

open Eval (Ignores)

namespace Ownership

/-- Nothing but what a frame can get at is shared, and all pairs that it cannot get at are held. -/
def enclosing (ρ : Renaming) (s : Store) : Ownership where
  shared := ρ
  own := fun _ => False
  held := fun r v => r < s.pairs.size ∧ ¬ ρ .pair r r ∧ s.cdr r = v

theorem enclosing_holds {ρ : Renaming} {s : Store} {f : Frame} (h : Machine.Encloses ρ s f) :
    (enclosing ρ s).Holds s.pairs.size s where
  similar := h.similar
  diagonal := h.diagonal
  size := Nat.le_refl _
  young _ hr := hr.elim
  bound _ hr := hr.elim
  apart _ hr := hr.elim
  car _ hr := hr.elim
  cdr _ hr := hr.elim
  body _ ha := .inr (h.body ha)
  held _ _ hr := hr

end Ownership

namespace Machine

variable {N : Nat} {w : Ownership} {s t : Store} {c : Ref} {rest z : Value} {m : Machine}

/-! ### What a machine does not notice -/

theorem quoteAll_setCar (args : List Value) (hc : c < s.pairs.size) :
    (s.setCar c z).quoteAll args = ((s.quoteAll args).1, (s.quoteAll args).2.setCar c z) ∧
      c < (s.quoteAll args).2.pairs.size := by
  induction args generalizing s with
  | nil => exact ⟨rfl, hc⟩
  | cons v args ih =>
      have hkeeps := s.keeps_listWithTail [.keyword .quote, v] .nil
      obtain ⟨hrest, hbound⟩ := ih (Nat.lt_of_lt_of_le hc (hkeeps.count .pair))
      refine ⟨?_, hbound⟩
      simp only [Store.quoteAll, Store.list]
      rw [Store.listWithTail_setCar hc, hrest]

theorem callForm_ignores (procedure : Value) (args : List Value) (hc : c < s.pairs.size) :
    Ignores c z s (Eval.callForm procedure args) := by
  obtain ⟨hquoted, hbound⟩ := quoteAll_setCar (z := z) args hc
  rw [Ignores, Eval.run_callForm, Eval.run_callForm, hquoted, Store.list,
    Store.listWithTail_setCar hbound]
  rfl

theorem inner_ignores (hw : w.Holds N s) (hc : w.held c rest) {procedure : Value} {args : List Value}
    (hp : w.Shared procedure) (hargs : ∀ v ∈ args, w.Shared v) : Ignores c z s (inner procedure args) := by
  have hbound := (hw.hides hc).bound
  refine (callForm_ignores procedure args hbound).guarded (W := fun _ => True)
    (Guarded.agree_shared hw (Eval.callForm_agree hp (List.forall₂_same.2 hargs)))
    fun w₁ form s₁ hle₁ hw₁ hform => ?_
  refine Ignores.guarded (.make rfl) (W := fun _ => True) (Q := fun w' r _ => w'.shared .scope r r)
    (.agree hw₁ Eval.newRoot_agree fun ρ' r s' hr => ⟨rfl, hr⟩) fun w₂ root s₂ hle₂ hw₂ _ => ?_
  exact (Frame.new_ignores hw₂ ((hle₁.trans hle₂).held_of hc) (hform.mono hle₂) root none).map _

theorem not_writable_of_held (hw : w.Holds N s) (hc : w.held c rest) : ¬ Writable N (Open w N) c := by
  have hlt := (hw.held hc).1
  rintro (hle | rfl | hopen)
  · exact Nat.not_lt.2 hle hlt
  · exact Nat.lt_irrefl _ hlt
  · exact hopen rest hc

/-- In a run that leaves the held pairs alone no step notices them. -/
theorem Secluded.overlooks (h : Secluded N w s N (m, t)) (hw : w.Holds N s) (hc : w.held c rest) :
    Overlooks c (m, t) := by
  obtain ⟨w', hle, hw', hm, -⟩ := h
  have hc' := hle.held_of hc
  have hnot := not_writable_of_held hw hc
  have hframe : ∀ f R, m.frames = f :: R → f.Owned N (Open w N) w' :=
    fun f R hf => hm.frames f (by simp [all, hf])
  have hlist : ∀ f R, m.frames = f :: R → t.isList f.expr = true → ¬ w'.Owned f.expr →
      ∀ r ∈ t.cells f.expr, Open w N r := fun f R hf => open_of_mem_cells hle hw' (hframe f R hf)
  refine ⟨fun f R hf z => Frame.step_ignores hw' (hframe f R hf) hc' (hlist f R hf),
    fun f R procedure args t' hf hrun z => ?_, fun f R hf hd => ?_, fun outer B hB hd => ?_⟩
  · have hguarded := Frame.step_guarded hw' (hframe f R hf)
      (fun p args r happlies htarget => open_of_shared hle hw'
        (shared_of_applies hw' (hframe f R hf) happlies htarget)) (hlist f R hf)
    rw [Guarded, hrun] at hguarded
    obtain ⟨w'', hle', hw'', -, hp, hargs⟩ := hguarded
    exact inner_ignores hw'' (hle'.held_of hc') hp hargs
  · exact hnot ((hframe f R hf).destination c hd)
  · exact hnot ((hm.suspended outer (by rw [hB]; simp)).2 c hd)

/-! ### Two machines side by side -/

/-- There is something left to do. -/
def Unfinished (m : Machine) : Prop := m.frames ≠ [] ∨ m.suspended ≠ []

/-- There is something left to do above some frames and suspended stacks, which are in place. -/
def RunsAbove (R : List Frame) (B : List Suspended) (m : Machine) : Prop :=
  ∃ n : Machine, n.Unfinished ∧ m = n.above R B

/-- The machine comes back to the frames `R` and the stacks `B` after so many steps. Until then it runs
above them. -/
def ReturnsTo (limit k : Nat) (R : List Frame) (B : List Suspended) (c c' : Machine × Store) : Prop :=
  Steps limit k c c' ∧ c'.1.frames = R ∧ c'.1.suspended = B ∧
    ∀ j < k, ∀ c₁, Steps limit j c c₁ → RunsAbove R B c₁.1

/-- After so many steps the next one fails. -/
def FailsAfter (limit k : Nat) (c : Machine × Store) (e : Stop) (s : Store) : Prop :=
  ∃ c₁, Steps limit k c c₁ ∧ (c₁.1.step limit).run c₁.2 = .error e s

theorem length_sink (R : List Frame) (B C : List Suspended) :
    (sink R B C).length = C.length + B.length := by
  induction C with
  | nil => simp [sink]
  | cons outer C ih =>
      obtain ⟨F, v, d⟩ := outer
      rw [sink_cons]
      simp only [above, List.length_cons, ih]
      lia

theorem not_runsAbove {R : List Frame} {B : List Suspended} (hR : m.frames = R) (hB : m.suspended = B) :
    ¬ RunsAbove R B m := by
  obtain ⟨_, v, _⟩ := m
  subst hR hB
  rintro ⟨⟨F, a, C⟩, hn, heq⟩
  cases C with
  | nil =>
      have hframes := congrArg (List.length ∘ Machine.frames) heq
      simp [above_nil] at hframes
      simp [Unfinished, hframes] at hn
  | cons outer C =>
      have hlength := congrArg (List.length ∘ Machine.suspended) heq
      simp [above, length_sink] at hlength

variable {limit : Nat} {d : Option Ref} {x u v : Value} {F G R : List Frame} {B : List Suspended}
  {n : Machine} {c₀ a g a' g' : Machine × Store} {k : Nat}

theorem Mirrors.unfinished_iff (h : Mirrors d x u m n) : n.Unfinished ↔ m.Unfinished := by
  cases h with
  | lowest F v h => simp [Unfinished]
  | calling F a C G v e h => simp [Unfinished]

/-- The second configuration does above `R` and `B` what the first does alone. Its values go to `d`,
which the first does not notice, nor any other pair that is held. -/
structure Abreast (limit : Nat) (c₀ : Machine × Store) (w : Ownership) (s : Store) (d : Option Ref)
    (x : Value) (R : List Frame) (B : List Suspended) (a g : Machine × Store) : Prop where
  mirrors : ∃ u n, g = (n.above R B, a.2.place d u) ∧ Mirrors d x u a.1 n
  secluded : Secluded s.pairs.size w s s.pairs.size a
  reaches : Reaches limit c₀ g

theorem frames_above_cons {f : Frame} (h : n.frames = f :: F) :
    ∃ F', (n.above R B).frames = f :: F' := by
  obtain ⟨_, v, C⟩ := n
  subst h
  cases C with
  | nil => exact ⟨F ++ R, rfl⟩
  | cons outer C => exact ⟨F, rfl⟩

theorem Next.unfinished (h : Next limit a a') : a.1.Unfinished := by
  obtain ⟨⟨F, v, B⟩, s⟩ := a
  cases F <;> cases B <;> simp_all [Unfinished, Next, step]

theorem Next.unique {c c₁ c₂ : Machine × Store} (h₁ : Next limit c c₁) (h₂ : Next limit c c₂) : c₁ = c₂ := by
  obtain ⟨hm, hs⟩ := EStateM.Result.ok.inj (h₁.symm.trans h₂)
  exact Prod.ext (Sum.inl.inj hm) hs

theorem Steps.unfinished {j : Nat} (h : Steps limit k a a') (hj : Steps limit j a g) (hlt : j < k) :
    g.1.Unfinished := by
  induction j generalizing a k with
  | zero =>
      obtain rfl : a = g := hj
      obtain ⟨k, rfl⟩ := Nat.exists_eq_add_of_lt hlt
      obtain ⟨a₁, hnext, -⟩ := h
      exact hnext.unfinished
  | succ j ih =>
      obtain ⟨a₁, hnext, hrest⟩ := hj
      obtain ⟨k, rfl⟩ : ∃ i, k = i + 1 := ⟨k - 1, by omega⟩
      obtain ⟨a₂, hnext', hrest'⟩ := h
      obtain rfl := hnext.unique hnext'
      exact ih hrest' hrest (by omega)

theorem unfinished_of_error {e : Stop} (h : (m.step limit).run s = .error e t) : m.Unfinished := by
  obtain ⟨f, F, -, hframes, -⟩ := step_eq_error h
  exact .inl (by simp [hframes])

theorem not_unfinished_iff : ¬ m.Unfinished ↔ ∃ v, m = ⟨[], v, []⟩ := by
  obtain ⟨F, v, B⟩ := m
  simp [Unfinished]

/-- When the machine alone is done, its result is where the value goes, and the frames below are on
top again. -/
theorem Abreast.delivered (h : Abreast limit c₀ w s d x R B (⟨[], v, []⟩, t) g) :
    (deliver ⟨R, x, B⟩ d v).run t = .ok g.1 g.2 ∧ g.1.frames = R ∧ g.1.suspended = B := by
  obtain ⟨⟨u, n, rfl, hmirrors⟩, -, -⟩ := h
  generalize hm : (⟨[], v, []⟩ : Machine) = m at hmirrors
  cases hmirrors with
  | lowest F v' hv =>
      obtain ⟨rfl, rfl, -⟩ := Machine.mk.inj hm
      obtain rfl : v = u := hv.resolve_left (by simp)
      exact ⟨by cases d <;> rfl, rfl, rfl⟩
  | calling F a C G v' e hv => simp at hm

theorem Abreast.runsAbove (h : Abreast limit c₀ w s d x R B a g) (ha : a.1.Unfinished) :
    RunsAbove R B g.1 := by
  obtain ⟨⟨u, n, rfl, hmirrors⟩, -, -⟩ := h
  exact ⟨n, hmirrors.unfinished_iff.2 ha, rfl⟩

section

variable (hw : w.Holds s.pairs.size s) (hd : ∀ c, d = some c → ∃ rest, w.held c rest)
  (hstanding : ∀ c, Reaches limit c₀ c → ∃ U w, Standing U c w)

include hw hd hstanding

/-- Either both take a step, or both fail for the same reason. -/
theorem Abreast.step (h : Abreast limit c₀ w s d x R B a g) (ha : a.1.Unfinished) :
    (∃ a' g', Next limit a a' ∧ Next limit g g' ∧ Abreast limit c₀ w s d x R B a' g') ∨
      ∃ e e' t u, (a.1.step limit).run a.2 = .error e t ∧
        (g.1.step limit).run g.2 = .error e' (t.place d u) ∧ e'.untraced = e.untraced := by
  obtain ⟨m, t⟩ := a
  obtain ⟨⟨u, n, rfl, hmirrors⟩, hsecluded, hreaches⟩ := h
  have hover : ∀ c, d = some c → Overlooks c (m, t) := by
    intro c hc
    obtain ⟨rest, hheld⟩ := hd c hc
    exact hsecluded.overlooks hw hheld
  have hreplace : ∀ f F t', n.frames = f :: F → f.step.run (t.place d u) ≠ .ok (.replace []) t' := by
    intro f F t' hf hrun
    obtain ⟨U, w', hstands⟩ := hstanding _ hreaches
    obtain ⟨F', hF'⟩ := frames_above_cons (R := R) (B := B) hf
    generalize n.above R B = n' at hstands hF'
    obtain ⟨frames, v, C⟩ := n'
    subst hF'
    exact hstands.replace_ne_nil hrun rfl
  have halike : StepsAlike limit d x u _ _ _ := hmirrors.step ha hover hreplace
  rcases halike with ⟨u', m', n', t', hm', hn', hmirrors'⟩ | ⟨e, e', t', he, he', heq⟩
  · have hnext := hn'.above R B
    exact .inl ⟨(m', t'), (n'.above R B, t'.place d u'), hm', hnext, ⟨u', n', rfl, hmirrors'⟩,
      hsecluded.next hm', hreaches.trans hnext.reaches⟩
  · obtain ⟨e'', he'', heq'⟩ := step_error_above he' R B
    exact .inr ⟨e, e'', t', u, he, he'', heq'.trans heq⟩

theorem Abreast.steps (h : Abreast limit c₀ w s d x R B a g) (hk : Steps limit k a a') :
    ∃ g', Steps limit k g g' ∧ Abreast limit c₀ w s d x R B a' g' := by
  induction k generalizing a g with
  | zero =>
      obtain rfl : a = a' := hk
      exact ⟨g, rfl, h⟩
  | succ k ih =>
      obtain ⟨a₁, hnext, hrest⟩ := hk
      rcases h.step hw hd hstanding hnext.unfinished with ⟨a₂, g₂, ha₂, hg₂, h₂⟩ | ⟨e, -, t, -, he, -⟩
      · obtain rfl := hnext.unique ha₂
        obtain ⟨g', hg', h'⟩ := ih h₂ hrest
        exact ⟨g', ⟨g₂, hg₂, hg'⟩, h'⟩
      · cases he.symm.trans hnext

/-- The machine alone keeps up with the other, unless it comes to its end before. -/
theorem Abreast.steps_of_steps (h : Abreast limit c₀ w s d x R B a g) (hk : Steps limit k g g') :
    (∃ a', Steps limit k a a' ∧ Abreast limit c₀ w s d x R B a' g') ∨
      ∃ j < k, ∃ v t, Steps limit j a (⟨[], v, []⟩, t) := by
  induction k generalizing a g with
  | zero =>
      obtain rfl : g = g' := hk
      exact .inl ⟨a, rfl, h⟩
  | succ k ih =>
      by_cases ha : a.1.Unfinished
      · obtain ⟨g₁, hnext, hrest⟩ := hk
        rcases h.step hw hd hstanding ha with ⟨a₂, g₂, ha₂, hg₂, h₂⟩ | ⟨-, e, t, u, -, he, -⟩
        · obtain rfl := hnext.unique hg₂
          rcases ih h₂ hrest with ⟨a', ha', h'⟩ | ⟨j, hj, v, t, hdone⟩
          · exact .inl ⟨a', ⟨a₂, ha₂, ha'⟩, h'⟩
          · exact .inr ⟨j + 1, by omega, v, t, a₂, ha₂, hdone⟩
        · cases he.symm.trans hnext
      · obtain ⟨v, hv⟩ := not_unfinished_iff.1 ha
        exact .inr ⟨0, by omega, v, a.2, Prod.ext hv rfl⟩

theorem Abreast.returnsTo_iff (h : Abreast limit c₀ w s d x R B a g) {c : Machine × Store} :
    ReturnsTo limit k R B g c ↔ ∃ v t, Steps limit k a (⟨[], v, []⟩, t) ∧
      (deliver ⟨R, x, B⟩ d v).run t = .ok c.1 c.2 := by
  have hdone {j : Nat} {v : Value} {t : Store} (hj : Steps limit j a (⟨[], v, []⟩, t)) :
      ∃ g', Steps limit j g g' ∧ (deliver ⟨R, x, B⟩ d v).run t = .ok g'.1 g'.2 ∧ ¬ RunsAbove R B g'.1 := by
    obtain ⟨g', hg', h'⟩ := h.steps hw hd hstanding hj
    obtain ⟨hdeliver, hframes, hsuspended⟩ := h'.delivered
    exact ⟨g', hg', hdeliver, not_runsAbove hframes hsuspended⟩
  constructor
  · rintro ⟨hsteps, hframes, hsuspended, habove⟩
    rcases h.steps_of_steps hw hd hstanding hsteps with ⟨⟨m, t⟩, hm, h'⟩ | ⟨j, hj, v, t, hend⟩
    · have hfinished : ¬ m.Unfinished := fun hm => not_runsAbove hframes hsuspended (h'.runsAbove hm)
      obtain ⟨v, rfl⟩ := not_unfinished_iff.1 hfinished
      exact ⟨v, t, hm, h'.delivered.1⟩
    · obtain ⟨g', hg', -, hnot⟩ := hdone hend
      exact absurd (habove j hj g' hg') hnot
  · rintro ⟨v, t, hend, hdeliver⟩
    obtain ⟨⟨n, t'⟩, hg', h'⟩ := h.steps hw hd hstanding hend
    obtain ⟨hdeliver', hframes, hsuspended⟩ := h'.delivered
    obtain ⟨m, s'⟩ := c
    obtain ⟨rfl, rfl⟩ := EStateM.Result.ok.inj (hdeliver'.symm.trans hdeliver)
    refine ⟨hg', hframes, hsuspended, fun j hj c₁ hc₁ => ?_⟩
    rcases h.steps_of_steps hw hd hstanding hc₁ with ⟨a', ha', h''⟩ | ⟨i, hi, v', t'', hearlier⟩
    · exact h''.runsAbove (hend.unfinished ha' hj)
    · exact absurd (hend.unfinished hearlier (by omega)) (by simp [Unfinished])

theorem Abreast.failsAfter (h : Abreast limit c₀ w s d x R B a g) {e : Stop}
    (hfails : FailsAfter limit k a e t) :
    ∃ e' u, FailsAfter limit k g e' (t.place d u) ∧ e'.untraced = e.untraced := by
  obtain ⟨a₁, ha₁, he⟩ := hfails
  obtain ⟨g₁, hg₁, h₁⟩ := h.steps hw hd hstanding ha₁
  rcases h₁.step hw hd hstanding (unfinished_of_error he) with ⟨a₂, -, ha₂, -⟩ | ⟨e₁, e', t', u, he₁, he', heq⟩
  · cases he.symm.trans ha₂
  · obtain ⟨rfl, rfl⟩ := EStateM.Result.error.inj (he₁.symm.trans he)
    exact ⟨e', u, ⟨g₁, hg₁, he'⟩, heq⟩

theorem Abreast.failsAfter_of_failsAfter (h : Abreast limit c₀ w s d x R B a g) {e' : Stop} {t' : Store}
    (hfails : FailsAfter limit k g e' t')
    (habove : ∀ j ≤ k, ∀ c₁, Steps limit j g c₁ → RunsAbove R B c₁.1) :
    ∃ e t u, FailsAfter limit k a e t ∧ t' = t.place d u ∧ e'.untraced = e.untraced := by
  obtain ⟨g₁, hg₁, he'⟩ := hfails
  have hnot {j : Nat} (hj : j ≤ k) {v : Value} {t : Store} (hend : Steps limit j a (⟨[], v, []⟩, t)) :
      False := by
    obtain ⟨g', hg', h'⟩ := h.steps hw hd hstanding hend
    exact not_runsAbove h'.delivered.2.1 h'.delivered.2.2 (habove j hj g' hg')
  rcases h.steps_of_steps hw hd hstanding hg₁ with ⟨⟨m, t₁⟩, ha₁, h₁⟩ | ⟨j, hj, v, t, hend⟩
  · have hm : m.Unfinished := by
      by_contra hfinished
      obtain ⟨v, rfl⟩ := not_unfinished_iff.1 hfinished
      exact hnot (Nat.le_refl k) ha₁
    rcases h₁.step hw hd hstanding hm with ⟨-, g₂, -, hg₂, -⟩ | ⟨e, e₁, t, u, he, he₁, heq⟩
    · cases he'.symm.trans hg₂
    · obtain ⟨rfl, rfl⟩ := EStateM.Result.error.inj (he₁.symm.trans he')
      exact ⟨e, t, u, ⟨_, ha₁, he⟩, rfl, heq⟩
  · exact (hnot (Nat.le_of_lt hj) hend).elim

end

/-! ### The frame on top -/

/-- The machine that holds a frame alone. Its value is the result. -/
def alone (f : Frame) : Machine where
  frames := [{ f with destination := none }]

theorem abreast_alone {f : Frame} {ρ : Renaming} (h : Encloses ρ s f)
    (hc₀ : Reaches limit c₀ (⟨f :: R, x, B⟩, s)) :
    Abreast limit c₀ (.enclosing ρ s) s f.destination x R B (alone f, s) (⟨f :: R, x, B⟩, s) where
  mirrors := by
    obtain ⟨expr, scope, pushed, d⟩ := f
    have hplace : ∃ u, s.place d u = s ∧ slot d x u = x := by
      cases d with
      | none => exact ⟨x, rfl, rfl⟩
      | some c => exact ⟨s.car c, s.setCar_car c, rfl⟩
    obtain ⟨u, hu, hx⟩ := hplace
    have hmirrors := Mirrors.lowest (d := d) (x := x) (u := u) [⟨expr, scope, pushed, none⟩] .void
      (.inl ⟨_, List.mem_singleton.2 rfl, rfl⟩)
    refine ⟨u, _, ?_, hmirrors⟩
    rw [hx, above_nil]
    exact congrArg (Prod.mk _) hu.symm
  secluded := by
    refine ⟨_, .refl _, Ownership.enclosing_holds h, ⟨fun g hg => ?_, .void, by simp [alone]⟩, .refl s⟩
    obtain rfl := List.mem_singleton.1 hg
    exact ⟨h.scope, .inr h.expr, by simp⟩
  reaches := hc₀

/-- The frame on top of the frames `R` and the stacks `B` runs as if it were alone. What has not been
copied, as `U` says, is left out of account. -/
structure RunsAsAlone (limit : Nat) (U : Value → Prop) (f : Frame) (R : List Frame) (x : Value)
    (B : List Suspended) (s : Store) : Prop where
  /-- The machine alone is done with a value after so many steps when the other has come back to what
  is below, with that value where it goes and the same store otherwise. -/
  returns : ∀ k c, ReturnsTo limit k R B (⟨f :: R, x, B⟩, s) c ↔
    ∃ v t, Steps limit k (alone f, s) (⟨[], v, []⟩, t) ∧
      (deliver ⟨R, x, B⟩ f.destination v).run t = .ok c.1 c.2
  /-- Until then what is below is in place, with the pairs that it works on, and the stores differ at
  most in the pair that receives the value. -/
  along : ∀ k m t, Steps limit k (alone f, s) (m, t) → ∃ (n : Machine) (u : Value),
    Steps limit k (⟨f :: R, x, B⟩, s) (n.above R B, t.place f.destination u) ∧
      (n.Unfinished ↔ m.Unfinished) ∧ ∀ g ∈ R, ¬ U g.expr → ∀ r ∈ s.cells g.expr,
        f.destination ≠ some r → (t.place f.destination u).pair r = s.pair r
  /-- When the machine alone fails, the other fails at the same step for the same reason. -/
  fails : ∀ k e t, FailsAfter limit k (alone f, s) e t → ∃ e' u,
    FailsAfter limit k (⟨f :: R, x, B⟩, s) e' (t.place f.destination u) ∧ e'.untraced = e.untraced
  /-- When the other fails while it runs above what is below, the machine alone fails as well. -/
  failed : ∀ k e' t', FailsAfter limit k (⟨f :: R, x, B⟩, s) e' t' →
    (∀ j ≤ k, ∀ c, Steps limit j (⟨f :: R, x, B⟩, s) c → RunsAbove R B c.1) →
      ∃ e t u, FailsAfter limit k (alone f, s) e t ∧ t' = t.place f.destination u ∧
        e'.untraced = e.untraced

/-- A list that the first frame works on stays a list, so it never counts as not copied. -/
theorem not_unlisted_first {s₀ : Store} (hs : s₀.Sound) {expr : Value} (hexpr : expr.Within s₀) {scope : Ref}
    (hscope : scope < s₀.scopes.size) {f : Frame} {s₁ : Store}
    (hnew : (Frame.new expr scope none).run s₀ = .ok f s₁) (hpair : f.expr.isPair = true)
    (hlist : s₁.isList f.expr = true) {c : Machine × Store} :
    ¬ Unlisted limit ({ frames := [f] }, s₁) c f.expr := by
  rintro ⟨c₁, hc₁, -, hnot, -⟩
  have hguard : Guarded s₀.pairs.size (Open (.start s₀) s₀.pairs.size) (.start s₀) s₀
      (Frame.new expr scope none) _ :=
    Frame.new_guarded (Ownership.start_holds hs) hexpr.related ⟨rfl, hscope⟩ (by simp)
  rw [Guarded, hnew] at hguard
  obtain ⟨w, hle, hw, -, -, -, hframe, hfresh⟩ := hguard
  have howned : w.Owned f.expr := hfresh.resolve_right fun h => by simp [h.2 hpair] at hlist
  rw [← open_eq hle] at hframe
  have hsecluded : Secluded s₀.pairs.size w s₁ s₀.pairs.size ({ frames := [f] }, s₁) := by
    refine ⟨w, .refl w, hw, ⟨fun g hg => ?_, .void, by simp⟩, .refl s₁⟩
    obtain rfl := List.mem_singleton.1 hg
    exact hframe
  obtain ⟨w', hle', hw', -, -⟩ := hsecluded.reaches hc₁
  obtain ⟨q, hq, hown⟩ := howned.mono hle'
  rw [hq, hw'.isList_of_own hown] at hnot
  contradiction

end Machine
end LittleScheme
