import LittleScheme.Proofs.Applications
import LittleScheme.Proofs.IgnoringSteps
import LittleScheme.Proofs.Traces

/-!
# Another destination for a stack

The value of a stack goes to its result, or to a pair of a frame further down. A step does not look at
the destination of its frame but hands it on to the frames that take over. So a stack whose value goes
to a pair takes the same steps as one whose value is the result, as long as that pair goes unnoticed:
what the one puts into the result the other puts into the pair.
-/
namespace LittleScheme

open Eval (Ignores)

namespace Frame

/-- The frame with a destination for a value that would be the result. -/
def toward (d : Option Ref) (f : Frame) : Frame := { f with destination := f.destination.or d }

@[simp] theorem expr_toward (d : Option Ref) (f : Frame) : (f.toward d).expr = f.expr := rfl

@[simp] theorem scope_toward (d : Option Ref) (f : Frame) : (f.toward d).scope = f.scope := rfl

@[simp] theorem pushed_toward (d : Option Ref) (f : Frame) : (f.toward d).pushed = f.pushed := rfl

@[simp] theorem destination_toward (d : Option Ref) (f : Frame) :
    (f.toward d).destination = f.destination.or d := rfl

/-- The transition with a destination for a value that would be the result. -/
def Transition.toward (d : Option Ref) : Transition → Transition
  | .value v => .value v
  | .suspend g above => .suspend (g.toward d) (above.map (Frame.toward d))
  | .replace frames => .replace (frames.map (Frame.toward d))
  | .call procedure args => .call procedure args

section

variable (d : Option Ref) (f : Frame)

theorem goOn_toward (v : Value) : goOn (f.toward d) v = Transition.toward d <$> goOn f v := by
  simp only [goOn, map_bind, map_pure]
  rfl

theorem await_toward (v : Value) (cell : Ref) :
    await (f.toward d) v cell = Transition.toward d <$> await f v cell := by
  simp only [await, new, map_bind, map_pure, bind_assoc, pure_bind]
  rfl

theorem new_toward (v : Value) (scope : Ref) (e : Option Ref) :
    new v scope (e.or d) = Frame.toward d <$> new v scope e := by
  simp only [new, map_bind, map_pure]
  rfl

theorem mapM_toward {α : Type} {make make' : α → Eval Frame} (items : List α)
    (h : ∀ a, make' a = Frame.toward d <$> make a) :
    items.mapM make' = List.map (Frame.toward d) <$> items.mapM make := by
  induction items with
  | nil => simp
  | cons a items ih => simp [List.mapM_cons, h, ih, map_bind, Functor.map_map]

theorem ofBody_toward (body : Value) (scope : Ref) (e : Option Ref) :
    ofBody body scope (e.or d) = List.map (Frame.toward d) <$> ofBody body scope e := by
  rw [ofBody, ofBody, map_bind]
  exact bind_congr fun exprs => mapM_toward d exprs fun v => new_toward d v scope e

theorem stepConditional_toward (operands : Value) :
    stepConditional (f.toward d) operands = Transition.toward d <$> stepConditional f operands := by
  unfold stepConditional
  rw [map_bind]
  refine bind_congr fun parts => ?_
  rw [map_bind]
  refine bind_congr fun test => ?_
  rw [pushed_toward]
  split
  · exact await_toward d f _ _
  · split
    · exact goOn_toward d f _
    · split
      · exact goOn_toward d f _
      · rfl

theorem stepDefinition_toward (operands : Value) :
    stepDefinition (f.toward d) operands = Transition.toward d <$> stepDefinition f operands := by
  unfold stepDefinition
  rw [map_bind, scope_toward]
  refine bind_congr fun definition => ?_
  rcases definition with ⟨name, cell⟩ | ⟨name, closure⟩
  · dsimp only
    rw [map_bind, pushed_toward]
    refine bind_congr fun v => ?_
    split
    · rw [map_bind]
      rfl
    · exact await_toward d f v cell
  · dsimp only
    rw [map_bind]
    rfl

theorem stepAssignment_toward (operands : Value) :
    stepAssignment (f.toward d) operands = Transition.toward d <$> stepAssignment f operands := by
  unfold stepAssignment
  rw [map_bind]
  refine bind_congr fun target => ?_
  dsimp only
  rw [map_bind, pushed_toward, scope_toward]
  refine bind_congr fun v => ?_
  split
  · rw [map_bind]
    rfl
  · exact await_toward d f v _

theorem stepLogical_toward (form : Ref) (wanted arrived : Bool) (cells : List Ref) :
    stepLogical (f.toward d) form wanted arrived cells =
      Transition.toward d <$> stepLogical f form wanted arrived cells := by
  induction cells generalizing arrived with
  | nil => rfl
  | cons cell rest ih =>
      unfold stepLogical
      rw [map_bind, scope_toward]
      refine bind_congr fun operand => ?_
      split
      · exact goOn_toward d f operand
      · rw [map_bind]
        refine bind_congr fun value => ?_
        cases value with
        | none => exact await_toward d f operand cell
        | some v =>
            dsimp only
            split
            · rfl
            · rw [map_bind]
              exact bind_congr fun _ => ih false

theorem stepCond_toward (form : Ref) (arrived : Bool) (cells : List Ref) :
    stepCond (f.toward d) form arrived cells = Transition.toward d <$> stepCond f form arrived cells := by
  induction cells generalizing arrived with
  | nil => rfl
  | cons cell rest ih =>
      unfold stepCond
      simp only [map_bind, scope_toward]
      refine bind_congr fun v => bind_congr fun clause => bind_congr fun test => bind_congr fun body =>
        bind_congr fun value => ?_
      cases value with
      | none =>
          dsimp only
          simp only [map_bind]
          exact bind_congr fun head => bind_congr fun _ => await_toward d f test head
      | some v =>
          dsimp only
          split
          · split
            · rfl
            · rw [map_bind]
              exact bind_congr fun expr => goOn_toward d f expr
          · rw [map_bind]
            exact bind_congr fun _ => ih false

theorem stepCall_toward (form : Ref) :
    stepCall (f.toward d) form = Transition.toward d <$> stepCall f form := by
  unfold stepCall
  simp only [map_bind, destination_toward]
  refine bind_congr fun args => bind_congr fun operator => ?_
  cases operator with
  | native p =>
      dsimp only
      rw [map_bind]
      refine bind_congr fun reply => ?_
      cases reply <;> rfl
  | closure r =>
      dsimp only
      simp only [map_bind, ofBody_toward]
      refine bind_congr fun scope => bind_congr fun body => ?_
      rw [bind_map_left]
      rfl
  | _ =>
      dsimp only
      rw [map_bind]
      rfl

theorem stepApplication_toward (form : Ref) :
    stepApplication (f.toward d) form = Transition.toward d <$> stepApplication f form := by
  unfold stepApplication
  rw [map_bind]
  refine bind_congr fun pending => ?_
  split
  · exact stepCall_toward d f form
  · have hcells : pending.mapM (forCell f.scope) =
        List.map (Frame.toward d) <$> pending.mapM (forCell f.scope) :=
      mapM_toward d pending fun cell => by simp only [forCell, new, map_bind, map_pure]; rfl
    rw [scope_toward, hcells, map_bind, bind_map_left, ← hcells]
    rfl

theorem stepHead_toward (form : Ref) (operands head : Value) :
    stepHead (f.toward d) form operands head = Transition.toward d <$> stepHead f form operands head := by
  unfold stepHead
  split
  · rw [map_bind]
    rfl
  · exact stepConditional_toward d f operands
  · exact stepDefinition_toward d f operands
  · exact stepAssignment_toward d f operands
  · rw [map_bind]
    rfl
  · rw [map_bind]
    rfl
  · rw [map_bind]
    exact bind_congr fun cells => stepCond_toward d f form _ cells
  · rw [map_bind]
    exact bind_congr fun cells => stepLogical_toward d f form _ _ cells
  · rw [map_bind]
    exact bind_congr fun cells => stepLogical_toward d f form _ _ cells
  · split
    · rfl
    · rw [scope_toward, destination_toward, ofBody_toward, bind_map_left, map_bind]
      rfl
  · rfl
  · exact stepApplication_toward d f form

/-- A step hands the destination on and does not look at it. -/
theorem step_toward : (f.toward d).step = Transition.toward d <$> f.step := by
  unfold step
  rw [expr_toward, scope_toward]
  split
  · rw [map_bind]
    rfl
  · rfl
  · rw [map_bind]
    refine bind_congr fun list => ?_
    split
    · unfold stepForm
      simp only [map_bind]
      exact bind_congr fun operands => bind_congr fun head => stepHead_toward d f _ operands head
    · rfl
  · rfl

theorem run_step_toward (s : Store) :
    (f.toward d).step.run s = match f.step.run s with
      | .ok t s' => .ok (t.toward d) s'
      | .error e s' => .error e s' := by
  rw [step_toward, map_eq_pure_bind, Eval.run_bind]
  cases f.step.run s <;> rfl

theorem destination_of_suspend {f g : Frame} {above : List Frame} {s s' : Store}
    (h : f.step.run s = .ok (.suspend g above) s') : g.destination = f.destination := by
  have hkeeps := step_keeps f h
  cases above with
  | nil => exact hkeeps.2
  | cons a above =>
      obtain rfl : g = { f with pushed := true } := hkeeps
      rfl

end

end Frame

/-- The store with a value put where it goes, if that is a pair. -/
def Store.place (s : Store) (d : Option Ref) (u : Value) : Store := d.elim s fun c => s.setCar c u

theorem Store.place_place (s : Store) (d : Option Ref) (u v : Value) :
    (s.place d u).place d v = s.place d v := by
  cases d with
  | none => rfl
  | some c => exact Store.setCar_setCar v

theorem Store.place_setCar {s : Store} {d : Option Ref} {q : Ref} (hq : d ≠ some q) (u v : Value) :
    (s.place d u).setCar q v = (s.setCar q v).place d u := by
  cases d with
  | none => rfl
  | some c => exact Store.setCar_comm (fun heq => hq (congrArg some heq.symm)) v

theorem Store.pair_place {d : Option Ref} {r : Ref} (hr : d ≠ some r) (s : Store) (u : Value) :
    (s.place d u).pair r = s.pair r := by
  cases d with
  | none => rfl
  | some c => exact Store.pair_setCar_ne (fun heq => hr (congrArg some heq.symm)) u

theorem Eval.run_place {α : Type} {x : Eval α} {s : Store} {d : Option Ref} {u : Value}
    (h : ∀ c, d = some c → Ignores c u s x) :
    x.run (s.place d u) = onStore (fun s => s.place d u) (x.run s) := by
  cases d with
  | none =>
      change x.run s = onStore id (x.run s)
      cases x.run s <;> rfl
  | some c => exact h c rfl

namespace Machine

/-- The machine of a call that is made on a stack of its own. -/
def inner (procedure : Value) (args : List Value) : Eval Machine := do
  let form ← Eval.callForm procedure args
  start form (← Eval.newRoot)

theorem exists_run_inner (procedure : Value) (args : List Value) (s : Store) :
    ∃ g s', (inner procedure args).run s = .ok ⟨[g], .void, []⟩ s' := by
  rw [inner, Eval.run_bind_ok (Eval.run_callForm procedure args s)]
  exact ⟨_, _, rfl⟩

theorem run_advance_call {procedure : Value} {args : List Value} {s s' : Store} {g : Frame}
    (h : (inner procedure args).run s = .ok ⟨[g], .void, []⟩ s') (F : List Frame) (v : Value)
    (B : List Suspended) (e : Option Ref) :
    (advance ⟨F, v, B⟩ e (.call procedure args)).run s = .ok ⟨[g], .void, ⟨F, v, e⟩ :: B⟩ s' := by
  have hadvance : advance ⟨F, v, B⟩ e (.call procedure args) =
      (inner procedure args >>= fun m => pure { m with suspended := ⟨F, v, e⟩ :: B }) := by
    simp only [advance, inner, bind_assoc]
  rw [hadvance, Eval.run_bind_ok h]
  rfl

/-- What stands in the result when a value has been put where it goes. -/
def slot (d : Option Ref) (x u : Value) : Value := d.elim u fun _ => x

theorem run_deliver (F : List Frame) (B : List Suspended) (d : Option Ref) (x u v : Value) (s : Store) :
    (deliver ⟨F, slot d x u, B⟩ d v).run (s.place d u) = .ok ⟨F, slot d x v, B⟩ (s.place d v) := by
  rw [← s.place_place d u v]
  cases d <;> rfl

/-- The second machine has another destination for the lowest stack of the first. The value that it
put there last is `u`; the first has put that value into its result, or it is still to do so. -/
inductive Mirrors (d : Option Ref) (x u : Value) : Machine → Machine → Prop
  | lowest (F : List Frame) (v : Value) (h : (∃ f ∈ F, f.destination = none) ∨ v = u) :
      Mirrors d x u ⟨F, v, []⟩ ⟨F.map (Frame.toward d), slot d x u, []⟩
  | calling (F : List Frame) (a : Value) (C : List Suspended) (G : List Frame) (v : Value)
      (e : Option Ref) (h : (e = none ∨ ∃ f ∈ G, f.destination = none) ∨ v = u) :
      Mirrors d x u ⟨F, a, C ++ [⟨G, v, e⟩]⟩
        ⟨F, a, C ++ [⟨G.map (Frame.toward d), slot d x u, e.or d⟩]⟩

/-- The next step does not notice the pair and gives no value to it. -/
structure Overlooks (c : Ref) (x : Machine × Store) : Prop where
  step : ∀ f R, x.1.frames = f :: R → ∀ z, Ignores c z x.2 f.step
  call : ∀ f R procedure args s', x.1.frames = f :: R → f.step.run x.2 = .ok (.call procedure args) s' →
    ∀ z, Ignores c z s' (inner procedure args)
  destination : ∀ f R, x.1.frames = f :: R → f.destination ≠ some c
  suspended : ∀ outer B, x.1.suspended = outer :: B → outer.destination ≠ some c

section

variable {limit : Nat} {d e : Option Ref} {x u v a : Value} {F G R : List Frame} {t t' : Store}
  {m n : Machine}

/-- A value arrives at the lowest stack. -/
theorem Mirrors.deliver (h : (e = none ∨ ∃ f ∈ G, f.destination = none) ∨ v = u)
    (he : ∀ c, d = some c → e ≠ some c) (a : Value) (t : Store) :
    ∃ u' m n t', (Machine.deliver ⟨G, v, []⟩ e a).run t = .ok m t' ∧
      (Machine.deliver ⟨G.map (Frame.toward d), slot d x u, []⟩ (e.or d) a).run (t.place d u) =
        .ok n (t'.place d u') ∧ Mirrors d x u' m n := by
  cases e with
  | none => exact ⟨a, _, _, t, rfl, run_deliver _ _ d x u a t, .lowest G a (.inr rfl)⟩
  | some q =>
      refine ⟨u, _, _, t.setCar q a, rfl, ?_, .lowest G v (h.imp_left fun h => h.resolve_left (by simp))⟩
      rw [← Store.place_setCar (fun hd => he q hd rfl)]
      rfl

/-- A value arrives at a stack further up. -/
theorem exists_deliver_upper (he : ∀ c, d = some c → e ≠ some c) (G : List Frame) (v a : Value)
    (t : Store) (u : Value) :
    ∃ v' t', ∀ S, (Machine.deliver ⟨G, v, S⟩ e a).run t = .ok ⟨G, v', S⟩ t' ∧
      (Machine.deliver ⟨G, v, S⟩ e a).run (t.place d u) = .ok ⟨G, v', S⟩ (t'.place d u) := by
  cases e with
  | none => exact ⟨a, t, fun S => ⟨rfl, rfl⟩⟩
  | some q =>
      refine ⟨v, t.setCar q a, fun S => ⟨rfl, ?_⟩⟩
      rw [← Store.place_setCar (fun hd => he q hd rfl)]
      rfl

theorem run_step_place {f : Frame} (hover : ∀ c, d = some c → Overlooks c (m, t))
    (hm : m.frames = f :: R) :
    f.step.run (t.place d u) = Eval.onStore (fun t => t.place d u) (f.step.run t) :=
  Eval.run_place fun c hc => (hover c hc).step f R hm u

theorem run_inner_place {f : Frame} {procedure : Value} {args : List Value} {n : Machine} {t'' : Store}
    (hover : ∀ c, d = some c → Overlooks c (m, t)) (hm : m.frames = f :: R)
    (hf : f.step.run t = .ok (.call procedure args) t')
    (hn : (inner procedure args).run t' = .ok n t'') :
    (inner procedure args).run (t'.place d u) = .ok n (t''.place d u) := by
  rw [Eval.run_place fun c hc => (hover c hc).call f R procedure args t' hm hf u, hn]
  rfl

/-- The outcome of a step on both sides. -/
def StepsAlike (limit : Nat) (d : Option Ref) (x u : Value) (m n : Machine) (t : Store) : Prop :=
  (∃ u' m' n' t', Next limit (m, t) (m', t') ∧ Next limit (n, t.place d u) (n', t'.place d u') ∧
      Mirrors d x u' m' n') ∨
    ∃ e e' t', (m.step limit).run t = .error e t' ∧ (n.step limit).run (t.place d u) =
      .error e' (t'.place d u) ∧ e'.untraced = e.untraced

theorem stepsAlike_of_error {f g : Frame} {R' : List Frame} {v' : Value} {B B' : List Suspended} {e : Stop}
    {t' : Store} (hf : f.step.run t = .error e t')
    (hg : g.step.run (t.place d u) = .error e (t'.place d u)) :
    StepsAlike limit d x u ⟨f :: R, v, B⟩ ⟨g :: R', v', B'⟩ t := by
  obtain ⟨e₁, he₁, heq₁⟩ := step_of_frame_error hf
  obtain ⟨e₂, he₂, heq₂⟩ := step_of_frame_error hg
  exact .inr ⟨e₁, e₂, t', he₁, he₂, heq₂.trans heq₁.symm⟩

theorem Mirrors.step_lowest {f : Frame} (h : (∃ g ∈ f :: R, g.destination = none) ∨ v = u)
    (hover : ∀ c, d = some c → Overlooks c (⟨f :: R, v, []⟩, t))
    (hreplace : ∀ t', (f.toward d).step.run (t.place d u) ≠ .ok (.replace []) t') :
    StepsAlike limit d x u ⟨f :: R, v, []⟩ ⟨(f :: R).map (Frame.toward d), slot d x u, []⟩ t := by
  have hplace := f.run_step_toward d (t.place d u)
  rw [run_step_place hover rfl] at hplace
  have hpending : (f.destination = none ∨ ∃ g ∈ R, g.destination = none) ∨ v = u :=
    h.imp_left fun h => by simpa using h
  have howes {gs : List Frame} (hgs : f.destination = none → ∃ g ∈ gs, g.destination = none) :
      (∃ g ∈ gs ++ R, g.destination = none) ∨ v = u := by
    refine hpending.imp_left fun hpending => ?_
    rcases hpending with hnone | ⟨g, hg, hnone⟩
    · obtain ⟨g, hg, hnone⟩ := hgs hnone
      exact ⟨g, by simp [hg], hnone⟩
    · exact ⟨g, by simp [hg], hnone⟩
  cases hf : f.step.run t with
  | error e t' =>
      rw [hf] at hplace
      exact stepsAlike_of_error hf hplace
  | ok transition t' =>
      rw [hf] at hplace
      cases transition with
      | value a =>
          obtain ⟨u', m', n', t'', hm', hn', hmirrors⟩ := Mirrors.deliver (x := x) hpending
            (fun c hc => (hover c hc).destination f R rfl) a t'
          exact .inl ⟨u', m', n', t'', next_cons_iff.2 ⟨_, _, hf, hm'⟩,
            next_cons_iff.2 ⟨_, _, hplace, hn'⟩, hmirrors⟩
      | suspend g gs =>
          refine .inl ⟨u, _, _, t', next_suspend hf, ?_, .lowest (gs ++ g :: R) v ?_⟩
          · rw [List.map_append, List.map_cons]
            exact next_suspend hplace
          · rw [List.append_cons]
            exact howes fun hnone => ⟨g, by simp, (Frame.destination_of_suspend hf).trans hnone⟩
      | replace gs =>
          refine .inl ⟨u, _, _, t', next_replace hf, ?_, .lowest (gs ++ R) v ?_⟩
          · rw [List.map_append]
            exact next_replace hplace
          · obtain ⟨g, hg⟩ := List.exists_mem_of_ne_nil gs fun hgs => hreplace _ (hgs ▸ hplace)
            exact howes fun hnone => ⟨g, hg, (Frame.step_keeps f hf g hg).trans hnone⟩
      | call procedure args =>
          obtain ⟨g, t'', hg⟩ := exists_run_inner procedure args t'
          have hg' := run_inner_place (u := u) hover rfl hf hg
          exact .inl ⟨u, _, _, t'', next_cons_iff.2 ⟨_, _, hf, run_advance_call hg R v [] _⟩,
            next_cons_iff.2 ⟨_, _, hplace, run_advance_call hg' _ _ [] _⟩,
            .calling [g] .void [] R v f.destination hpending⟩

theorem Mirrors.step_calling {C : List Suspended}
    (h : (e = none ∨ ∃ f ∈ G, f.destination = none) ∨ v = u)
    (hover : ∀ c, d = some c → Overlooks c (⟨F, a, C ++ [⟨G, v, e⟩]⟩, t)) :
    StepsAlike limit d x u ⟨F, a, C ++ [⟨G, v, e⟩]⟩
      ⟨F, a, C ++ [⟨G.map (Frame.toward d), slot d x u, e.or d⟩]⟩ t := by
  cases F with
  | nil =>
      cases C with
      | nil =>
          obtain ⟨u', m', n', t', hm', hn', hmirrors⟩ := Mirrors.deliver (x := x) h
            (fun c hc => (hover c hc).suspended ⟨G, v, e⟩ [] rfl) a t
          exact .inl ⟨u', m', n', t', next_nil_iff.2 hm', next_nil_iff.2 hn', hmirrors⟩
      | cons outer C =>
          obtain ⟨v', t', hrun⟩ := exists_deliver_upper (e := outer.destination)
            (fun c hc => (hover c hc).suspended outer _ rfl) outer.frames outer.result a t u
          exact .inl ⟨u, _, _, t', next_nil_iff.2 (hrun _).1, next_nil_iff.2 (hrun _).2,
            .calling outer.frames v' C G v e h⟩
  | cons f R =>
      have hplace := run_step_place (u := u) hover rfl
      cases hf : f.step.run t with
      | error e' t' =>
          rw [hf] at hplace
          exact stepsAlike_of_error hf hplace
      | ok transition t' =>
          rw [hf] at hplace
          cases transition with
          | value b =>
              obtain ⟨a', t'', hrun⟩ := exists_deliver_upper (e := f.destination)
                (fun c hc => (hover c hc).destination f R rfl) R a b t' u
              exact .inl ⟨u, _, _, t'', next_cons_iff.2 ⟨_, _, hf, (hrun _).1⟩,
                next_cons_iff.2 ⟨_, _, hplace, (hrun _).2⟩, .calling R a' C G v e h⟩
          | suspend g gs =>
              exact .inl ⟨u, _, _, t', next_suspend hf, next_suspend hplace, .calling _ a C G v e h⟩
          | replace gs =>
              exact .inl ⟨u, _, _, t', next_replace hf, next_replace hplace, .calling _ a C G v e h⟩
          | call procedure args =>
              obtain ⟨g, t'', hg⟩ := exists_run_inner procedure args t'
              have hg' := run_inner_place (u := u) hover rfl hf hg
              exact .inl ⟨u, _, _, t'', next_cons_iff.2 ⟨_, _, hf, run_advance_call hg R a _ _⟩,
                next_cons_iff.2 ⟨_, _, hplace, run_advance_call hg' R a _ _⟩,
                .calling [g] .void (⟨R, a, f.destination⟩ :: C) G v e h⟩

/-- Machines that mirror each other step alike. A frame is never replaced by nothing. -/
theorem Mirrors.step (h : Mirrors d x u m n) (hm : m.frames ≠ [] ∨ m.suspended ≠ [])
    (hover : ∀ c, d = some c → Overlooks c (m, t))
    (hreplace : ∀ f R t', n.frames = f :: R → f.step.run (t.place d u) ≠ .ok (.replace []) t') :
    StepsAlike limit d x u m n t := by
  cases h with
  | lowest F v h =>
      cases F with
      | nil => simp at hm
      | cons f R => exact step_lowest h hover (hreplace _ _ · rfl)
  | calling F a C G v e h => exact step_calling h hover

end

end Machine
end LittleScheme
