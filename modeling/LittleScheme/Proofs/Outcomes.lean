import LittleScheme.Proofs.StayingRuns

/-!
# How computations turn out

What becomes of a computation, with enough fuel: it ends in a value with some property, or it fails in
a way that is allowed for, or nothing is claimed. Such statements are put together along the parts of
a computation and along the frames of a stack.
-/
namespace LittleScheme

open Eval (Ends Fuelled untraced Returns returns_bind returns_pure returns_raise)

/-- What is allowed for besides values: failures, and a case of which nothing is claimed. -/
structure Exits where
  fails : Stop → Store → Prop
  escapes : Prop

/-- The computation ends in a value as described, or it exits. -/
def Does (K : Exits) (x : Nat → Eval Value) (s : Store) (Q : Value → Store → Prop) : Prop :=
  K.escapes ∨ (∃ e t, Ends x s (.error e t) ∧ K.fails e t) ∨ ∃ v t, Ends x s (.ok v t) ∧ Q v t

namespace Does

variable {K : Exits} {x y : Nat → Eval Value} {s t : Store} {Q Q' : Value → Store → Prop}

theorem of_ok {v : Value} (h : Ends x s (.ok v t)) (hq : Q v t) : Does K x s Q :=
  .inr (.inr ⟨v, t, h, hq⟩)

/-- What one computation does, another does as well that fails when the first fails. -/
theorem elim (h : Does K x s Q) (herror : ∀ e u, Ends x s (.error e u) → Ends y t (.error e u))
    (hok : ∀ v u, Ends x s (.ok v u) → Q v u → Does K y t Q') : Does K y t Q' := by
  rcases h with hescape | ⟨e, u, he, hfails⟩ | ⟨v, u, hv, hq⟩
  · exact .inl hescape
  · exact .inr (.inl ⟨e, u, herror e u he, hfails⟩)
  · exact hok v u hv hq

theorem of_iff (h : Does K x s Q) (hiff : ∀ r, Ends y t r ↔ Ends x s r) : Does K y t Q :=
  h.elim (fun _ _ he => (hiff _).2 he) fun _ _ hv hq => .of_ok ((hiff _).2 hv) hq

theorem mono (h : Does K x s Q) (hq : ∀ v t, Q v t → Q' v t) : Does K x s Q' :=
  h.elim (fun _ _ he => he) fun v t hv hqv => .of_ok hv (hq v t hqv)

theorem bind {f : Nat → Value → Eval Value} (hx : Fuelled x) (hf : ∀ v, Fuelled fun n => f n v)
    (h : Does K x s Q) (hq : ∀ v t, Q v t → Does K (fun n => f n v) t Q') :
    Does K (fun n => x n >>= f n) s Q' := by
  refine h.elim (fun e u he => (Eval.ends_bind hx hf).2 (.inr ⟨e, u, he, rfl⟩)) fun v t hv hqv => ?_
  refine (hq v t hqv).of_iff fun r =>
    ⟨fun hr => ?_, fun hr => (Eval.ends_bind hx hf).2 (.inl ⟨v, t, hv, hr⟩)⟩
  rcases (Eval.ends_bind hx hf).1 hr with ⟨v', t', hv', hr'⟩ | ⟨e, t', he, -⟩
  · obtain ⟨rfl, rfl⟩ := EStateM.Result.ok.inj (hv.unique hv')
    exact hr'
  · exact absurd (hv.unique he) nofun

end Does

theorem Eval.eq_ok_of_untraced {α : Type} {r : EStateM.Result Stop Store α} {a : α} {s : Store}
    (h : untraced r = .ok a s) : r = .ok a s := by
  cases r with
  | ok b t => exact h
  | error e t => cases h

/-! ### Frames that wait -/

namespace Frame

/-- The frames of operands have their values go to pairs. -/
def Transition.Waits : Transition → Prop
  | .suspend _ above => ∀ g ∈ above, g.destination ≠ none
  | _ => True

open Transition

theorem goOn_waits (f : Frame) (v : Value) : Returns (goOn f v) Waits :=
  returns_bind fun _ => returns_pure nofun

theorem await_waits (f : Frame) (v : Value) (cell : Ref) : Returns (await f v cell) Waits := by
  refine fun s t s' h => ?_
  rw [run_await] at h
  obtain ⟨rfl, -⟩ := EStateM.Result.ok.inj h
  simp [Waits, fresh]

theorem forCells_waits (scope : Ref) (cells : List Ref) :
    Returns (cells.mapM (forCell scope)) fun frames => ∀ g ∈ frames, g.destination ≠ none := by
  induction cells with
  | nil => exact returns_pure nofun
  | cons cell cells ih =>
      rw [List.mapM_cons]
      have hnew : Returns (forCell scope cell) fun g => g.destination ≠ none := fun s g s' h => by
        obtain ⟨rfl, -⟩ := EStateM.Result.ok.inj h
        simp
      refine hnew.bind fun g hg => ih.bind fun frames hframes => returns_pure ?_
      simpa using ⟨hg, hframes⟩

theorem stepConditional_waits (f : Frame) (operands : Value) :
    Returns (stepConditional f operands) Waits := by
  refine returns_bind fun parts => returns_bind fun test => ?_
  split
  · exact await_waits f _ _
  · split
    · exact goOn_waits f _
    · split
      · exact goOn_waits f _
      · exact returns_pure trivial

theorem stepDefinition_waits (f : Frame) (operands : Value) :
    Returns (stepDefinition f operands) Waits := by
  refine returns_bind fun d => ?_
  split
  · exact returns_bind fun _ => returns_pure trivial
  · refine returns_bind fun v => ?_
    split
    · exact returns_bind fun _ => returns_pure trivial
    · exact await_waits f _ _

theorem stepAssignment_waits (f : Frame) (operands : Value) :
    Returns (stepAssignment f operands) Waits := by
  refine returns_bind fun parts => returns_bind fun v => ?_
  split
  · exact returns_bind fun _ => returns_pure trivial
  · exact await_waits f _ _

theorem stepLogical_waits (f : Frame) (form : Ref) (wanted arrived : Bool) (cells : List Ref) :
    Returns (stepLogical f form wanted arrived cells) Waits := by
  induction cells generalizing arrived with
  | nil => exact returns_pure trivial
  | cons cell rest ih =>
      refine returns_bind fun operand => ?_
      split
      · exact goOn_waits f _
      · refine returns_bind fun value => ?_
        split
        · exact await_waits f _ _
        · split
          · exact returns_pure trivial
          · exact returns_bind fun _ => ih false

theorem stepCond_waits (f : Frame) (form : Ref) (arrived : Bool) (cells : List Ref) :
    Returns (stepCond f form arrived cells) Waits := by
  induction cells generalizing arrived with
  | nil => exact returns_pure trivial
  | cons cell rest ih =>
      refine returns_bind fun v => returns_bind fun clause => returns_bind fun test =>
        returns_bind fun body => returns_bind fun value => ?_
      split
      · exact returns_bind fun head => returns_bind fun _ => await_waits f _ _
      · split
        · split
          · exact returns_pure trivial
          · exact returns_bind fun t => goOn_waits f t
        · exact returns_bind fun _ => ih false

theorem stepApplication_waits (f : Frame) (form : Ref) :
    Returns (stepApplication f form) Waits := by
  refine returns_bind fun pending => ?_
  split
  · refine returns_bind fun args => returns_bind fun operator => ?_
    split
    · refine returns_bind fun reply => ?_
      split <;> exact returns_pure trivial
    · exact returns_bind fun scope => returns_bind fun body => returns_bind fun _ => returns_pure trivial
    · exact returns_bind fun text => returns_raise _
  · exact (forCells_waits f.scope pending).bind fun frames hframes => returns_pure hframes

theorem step_waits (f : Frame) : Returns f.step Waits := by
  obtain ⟨expr, scope, pushed, d⟩ := f
  unfold step
  split
  · exact returns_bind fun _ => returns_pure trivial
  · exact returns_raise _
  · refine returns_bind fun list => ?_
    split
    · refine returns_bind fun operands => returns_bind fun head => ?_
      unfold stepHead
      split
      · exact returns_bind fun _ => returns_pure trivial
      · exact stepConditional_waits _ _
      · exact stepDefinition_waits _ _
      · exact stepAssignment_waits _ _
      · exact returns_bind fun _ => returns_pure trivial
      · exact returns_bind fun _ => returns_pure (by simp [Waits])
      · exact returns_bind fun cells => stepCond_waits _ _ _ cells
      · exact returns_bind fun cells => stepLogical_waits _ _ _ _ cells
      · exact returns_bind fun cells => stepLogical_waits _ _ _ _ cells
      · split
        · exact returns_pure trivial
        · exact returns_bind fun _ => returns_pure trivial
      · exact returns_raise _
      · exact stepApplication_waits _ _
    · exact returns_pure trivial
  · exact returns_pure trivial

/-- Frames that stay on the stack or replace a frame have its destination, or one of their own. -/
theorem destination_of_step {f g : Frame} {above : List Frame} {s s' : Store}
    (hf : f.destination ≠ none) (h : f.step.run s = .ok (.suspend g above) s') :
    ∀ h ∈ above ++ [g], h.destination ≠ none := by
  have hwaits := step_waits f h
  have hkeeps := step_keeps f h
  have hg : g.destination = f.destination := by
    cases above with
    | nil => exact hkeeps.2
    | cons a above =>
        obtain rfl : g = { f with pushed := true } := hkeeps
        rfl
  intro h hh
  rcases List.mem_append.1 hh with hh | hh
  · exact hwaits h hh
  · obtain rfl := List.mem_singleton.1 hh
    rwa [hg]

end Frame

/-! ### Runs of a stack -/

namespace Machine

variable {limit : Nat} {s s' t : Store} {x v : Value} {K : Exits} {Q Q' : Value → Store → Prop}

theorem suspended_above_ne (m : Machine) (R : List Frame) (outer : Suspended) (B : List Suspended) :
    (m.above R (outer :: B)).suspended ≠ [] := by
  obtain ⟨frames, v, suspended⟩ := m
  cases suspended with
  | nil => nofun
  | cons outer' rest =>
      rw [above_cons, sink_cons]
      nofun

/-- A stack above a suspended one is used up at some point, and then its result goes to a pair. -/
theorem Steps.resume {n : Nat} {F R : List Frame} {u : Value} {c : Ref}
    (h : Steps limit n (⟨F, u, [⟨R, x, some c⟩]⟩, s) (⟨[], v, []⟩, s')) :
    ∃ j s₁, j < n ∧ Steps limit j (⟨R, x, []⟩, s₁) (⟨[], v, []⟩, s') := by
  have habove : (⟨F, u, [⟨R, x, some c⟩]⟩ : Machine) = Machine.above ⟨F, u, []⟩ [] [⟨R, x, some c⟩] := by
    rw [above_nil, List.append_nil]
  rw [habove] at h
  rcases h.split_above with ⟨m, -, hm⟩ | ⟨i, j, w, s₁, hij, -, hj⟩
  · exact absurd (congrArg Machine.suspended hm) (suspended_above_ne m _ _ _)
  · cases j with
    | zero => exact absurd (congrArg (fun c => c.1.suspended) hj) nofun
    | succ j =>
        obtain ⟨⟨m, s₂⟩, hnext, hrest⟩ := hj
        have hdeliver := next_nil_iff.1 hnext
        obtain ⟨rfl, rfl⟩ := EStateM.Result.ok.inj hdeliver
        exact ⟨j, _, by omega, hrest⟩

/-- Only a frame without a destination changes the result. -/
theorem Steps.result_eq {n : Nat} {F : List Frame} (hF : ∀ f ∈ F, f.destination ≠ none)
    (h : Steps limit n (⟨F, x, []⟩, s) (⟨[], v, []⟩, s')) : v = x := by
  induction n using Nat.strong_induction_on generalizing F s with
  | h n ih =>
      cases n with
      | zero =>
          cases h
          rfl
      | succ n =>
          obtain ⟨⟨m, s₁⟩, hnext, hrest⟩ := h
          cases F with
          | nil => exact absurd hnext nofun
          | cons f R =>
              obtain ⟨transition, s₂, hstep, hadvance⟩ := next_cons_iff.1 hnext
              have hf := hF f (by simp)
              have hR : ∀ g ∈ R, g.destination ≠ none := fun g hg => hF g (by simp [hg])
              cases transition with
              | value u =>
                  obtain ⟨c, hc⟩ := Option.ne_none_iff_exists'.1 hf
                  rw [hc] at hadvance
                  obtain ⟨rfl, rfl⟩ := EStateM.Result.ok.inj hadvance
                  exact ih n (Nat.lt_succ_self n) hR hrest
              | suspend g above =>
                  obtain ⟨rfl, rfl⟩ := EStateM.Result.ok.inj hadvance
                  have habove := Frame.destination_of_step hf hstep
                  refine ih n (Nat.lt_succ_self n) (fun h hh => ?_) hrest
                  rw [← List.singleton_append, ← List.append_assoc] at hh
                  exact (List.mem_append.1 hh).elim (habove h) (hR h)
              | replace frames =>
                  obtain ⟨rfl, rfl⟩ := EStateM.Result.ok.inj hadvance
                  refine ih n (Nat.lt_succ_self n) (fun h hh => ?_) hrest
                  rcases List.mem_append.1 hh with hh | hh
                  · rwa [Frame.step_keeps f hstep h hh]
                  · exact hR h hh
              | call procedure args =>
                  obtain ⟨c, hc⟩ := Option.ne_none_iff_exists'.1 hf
                  obtain ⟨form, s₃, -, hadvance⟩ := Eval.run_bind_eq_ok.1 hadvance
                  obtain ⟨scope, s₄, -, hadvance⟩ := Eval.run_bind_eq_ok.1 hadvance
                  obtain ⟨inner, s₅, hinner, hadvance⟩ := Eval.run_bind_eq_ok.1 hadvance
                  obtain ⟨rfl, rfl⟩ := EStateM.Result.ok.inj hadvance
                  rw [hc] at hrest
                  obtain ⟨j, s₆, hj, hrest⟩ := hrest.resume
                  exact ih j (by omega) hR hrest

theorem ends_result_eq {F : List Frame} (hF : ∀ f ∈ F, f.destination ≠ none)
    (h : Ends (fun n => run limit n ⟨F, x, []⟩) s (.ok v t)) : v = x := by
  obtain ⟨-, n, hn⟩ := h
  obtain ⟨k, hk⟩ := (reaches_of_run (Eval.eq_ok_of_untraced (hn n (Nat.le_refl n)))).steps
  exact hk.result_eq hF

theorem untraced_run_error_above {n : Nat} {m : Machine} {e : Stop} (he : e ≠ .outOfFuel)
    (h : untraced ((run limit n m).run s) = .error e t) (R : List Frame) (B : List Suspended) :
    untraced ((run limit n (m.above R B)).run s) = .error e t := by
  induction n generalizing m s with
  | zero =>
      cases h
      contradiction
  | succ n ih =>
      cases hstep : (m.step limit).run s with
      | error e' s' =>
          obtain ⟨e'', hstep', heq⟩ := step_error_above hstep R B
          rw [run, Eval.run_bind_error hstep] at h
          rw [run, Eval.run_bind_error hstep']
          exact (congrArg (EStateM.Result.error · s') heq).trans h
      | ok next s' =>
          rw [run, Eval.run_bind_ok hstep] at h
          cases next with
          | inl m' =>
              have hnext : Next limit (m, s) (m', s') := hstep
              rw [run, Eval.run_bind_ok (hnext.above R B)]
              exact ih h
          | inr u => cases h

theorem ends_error_above {m : Machine} {e : Stop}
    (h : Ends (fun n => run limit n m) s (.error e t)) (R : List Frame) (B : List Suspended) :
    Ends (fun n => run limit n (m.above R B)) s (.error e t) := by
  obtain ⟨he, n, hn⟩ := h
  refine ⟨he, n, fun fuel hfuel => untraced_run_error_above ?_ (hn fuel hfuel) R B⟩
  rintro rfl
  exact he t rfl

theorem ends_next {m m' : Machine} (h : Next limit (m, s) (m', s')) {r : EStateM.Result Stop Store Value} :
    Ends (fun n => run limit n m) s r ↔ Ends (fun n => run limit n m') s' r :=
  Eval.ends_congr 1 0 fun fuel _ => by
    rw [run]
    exact congrArg untraced (Eval.run_bind_ok h)

theorem ends_iff_of_reaches {m m' : Machine} (h : Reaches limit (m, s) (m', s'))
    {r : EStateM.Result Stop Store Value} :
    Ends (fun n => run limit n m) s r ↔ Ends (fun n => run limit n m') s' r := by
  obtain ⟨k, hk⟩ := run_of_reaches h
  exact Eval.ends_congr k 0 fun fuel _ => congrArg untraced (hk fuel)

theorem ends_done (v : Value) (s : Store) : Ends (fun n => run limit n ⟨[], v, []⟩) s (.ok v s) := by
  refine ⟨nofun, 1, fun fuel hfuel => ?_⟩
  obtain ⟨n, rfl⟩ := Nat.exists_eq_add_of_le' hfuel
  rfl

theorem reaches_of_ends {m : Machine} (h : Ends (fun n => run limit n m) s (.ok v t)) :
    Reaches limit (m, s) (⟨[], v, []⟩, t) := by
  obtain ⟨-, n, hn⟩ := h
  exact reaches_of_run (Eval.eq_ok_of_untraced (hn n (Nat.le_refl n)))

/-- First the frames on top run to their end, then those below. -/
theorem does_stack {F R : List Frame} (h : Does K (fun n => run limit n ⟨F, x, []⟩) s Q)
    (hR : ∀ v t, Q v t → Does K (fun n => run limit n ⟨R, v, []⟩) t Q') :
    Does K (fun n => run limit n ⟨F ++ R, x, []⟩) s Q' :=
  h.elim (fun _ _ he => ends_error_above he R []) fun v t hv hq =>
    (hR v t hq).of_iff fun _ => ends_iff_of_reaches ((reaches_of_ends hv).above R [])

theorem does_next {m m' : Machine} (h : Next limit (m, s) (m', s'))
    (hm' : Does K (fun n => run limit n m') s' Q) : Does K (fun n => run limit n m) s Q :=
  hm'.of_iff fun _ => ends_next h

theorem does_done (hq : Q v s) : Does K (fun n => run limit n ⟨[], v, []⟩) s Q :=
  .of_ok (ends_done v s) hq

end Machine

/-! ### Calls -/

namespace Evaluator

variable {limit : Nat} {s t : Store} {v procedure : Value} {args : List Value} {c : Ref}

/-- What is left as the result of a stack when a value is wanted at `d`. -/
def slot (d : Option Ref) (v : Value) : Value :=
  match d with
  | none => v
  | some _ => .void

/-- A call that a native procedure asks for starts on a stack of its own, as if there was no other. -/
theorem exists_asked (limit : Nat) (s : Store) (procedure : Value) (args : List Value) (m : Machine)
    (d : Option Ref) :
    ∃ f s₁, (m.advance d (.call procedure args)).run s =
        .ok ⟨[f], .void, ⟨m.frames, m.result, d⟩ :: m.suspended⟩ s₁ ∧
      ∀ n, (apply ⟨.stack, limit⟩ n procedure args).run s = (Machine.run limit n ⟨[f], .void, []⟩).run s₁ := by
  have hrun := Eval.run_callForm procedure args s
  generalize (s.quoteAll args).2.list (procedure :: (s.quoteAll args).1) = made at hrun
  obtain ⟨form, s₁⟩ := made
  refine ⟨.fresh s₁.nextScope none ((s₁.pushScope {}).copySpine form).1,
    ((s₁.pushScope {}).copySpine form).2, ?_, fun n => ?_⟩
  · rw [Machine.advance, Eval.run_bind_ok hrun]
    rfl
  · rw [apply, Eval.run_bind_ok hrun]
    rfl

/-- A call that a native procedure asks for, whose value goes to a pair. -/
theorem ends_asked_to (procedure : Value) (args : List Value) (c : Ref) :
    (∀ e, Ends (fun n => apply ⟨.stack, limit⟩ n procedure args) s (.error e t) →
      Ends (fun n => Machine.advance ⟨[], .void, []⟩ (some c) (.call procedure args) >>=
        Machine.run limit n) s (.error e t)) ∧
    ∀ v, Ends (fun n => apply ⟨.stack, limit⟩ n procedure args) s (.ok v t) →
      Ends (fun n => Machine.advance ⟨[], .void, []⟩ (some c) (.call procedure args) >>=
        Machine.run limit n) s (.ok .void (t.setCar c v)) := by
  obtain ⟨f, s₁, hadvance, happly⟩ := exists_asked limit s procedure args ⟨[], .void, []⟩ (some c)
  let outer : List Suspended := [⟨[], .void, some c⟩]
  have hinner : ∀ r, Ends (fun n => apply ⟨.stack, limit⟩ n procedure args) s r ↔
      Ends (fun n => Machine.run limit n ⟨[f], .void, []⟩) s₁ r := fun r =>
    Eval.ends_congr 0 0 fun fuel _ => congrArg untraced (happly fuel)
  have hwhole : ∀ r, Ends (fun n => Machine.advance ⟨[], .void, []⟩ (some c) (.call procedure args) >>=
      Machine.run limit n) s r ↔
      Ends (fun n => Machine.run limit n (Machine.above ⟨[f], .void, []⟩ [] outer)) s₁ r := fun r =>
    Eval.ends_congr 0 0 fun fuel _ => congrArg untraced (Eval.run_bind_ok hadvance)
  refine ⟨fun e he => (hwhole _).2 (Machine.ends_error_above ((hinner _).1 he) [] outer), fun v hv => ?_⟩
  refine (hwhole _).2 ((Machine.ends_iff_of_reaches
    (((Machine.reaches_of_ends ((hinner _).1 hv)).above [] outer).trans ?_)).2
      (Machine.ends_done .void (t.setCar c v)))
  exact (Machine.next_nil_iff.2 rfl).reaches

theorem apply_fuelled (e : Evaluator) (procedure : Value) (args : List Value) :
    Fuelled fun n => e.apply n procedure args := fun n =>
  .bind_same _ fun form => .bind_same _ fun root => e.eval_fuelled form root n

/-- The frame comes to the end to which the call comes whose value is wanted at its destination. -/
def Makes (limit : Nat) (f : Frame) (s : Store) (procedure : Value) (args : List Value) : Prop :=
  (∀ e t, Ends (fun n => callTo ⟨.stack, limit⟩ n f.destination procedure args) s (.error e t) →
    Ends (fun n => Machine.run limit n ⟨[f], .void, []⟩) s (.error e t)) ∧
  ∀ v t, Ends (fun n => callTo ⟨.stack, limit⟩ n f.destination procedure args) s (.ok v t) →
    Ends (fun n => Machine.run limit n ⟨[f], .void, []⟩) s (.ok (slot f.destination v) t)

variable {f : Frame}

theorem makes_closure {r : Ref} (h : f.Loaded s (.closure r) args) (hd : f.destination = some c) :
    Makes limit f s (.closure r) args := by
  let body : Nat → Eval Value := fun n => do
    let scope ← Eval.enterCall r args
    let body ← Eval.ask fun s => (s.closure r).body
    let frames ← Frame.ofBody body scope (some c)
    Machine.run limit n ⟨frames, .void, []⟩
  have hfuelled : Fuelled body := fun n => .bind_same _ fun scope => .bind_same _ fun body =>
    .bind_same _ fun frames => Machine.run_fuelled limit ⟨frames, .void, []⟩ n
  have hask : ∀ v : Value, Fuelled fun _ => Eval.ask fun s => s.car c := fun _ _ => .refl _
  have hcall : ∀ n, callTo ⟨.stack, limit⟩ n (some c) (.closure r) args =
      body n >>= fun _ => Eval.ask fun s => s.car c := by
    intro n
    simp only [body, bind_assoc]
    rfl
  have hrun : ∀ r, Ends (fun n => Machine.run limit n ⟨[f], .void, []⟩) s r ↔ Ends body s r := by
    refine fun r => Eval.ends_congr 1 0 fun fuel _ => ?_
    rw [Machine.untraced_run_succ, hd, Eval.run_bind, h.run_step_closure, ← Eval.run_bind, hd]
    simp only [bind_assoc, pure_bind, Machine.advance, List.append_nil]
    rfl
  rw [Makes, hd]
  simp only [hcall, Eval.ends_bind hfuelled hask]
  refine ⟨fun e t he => ?_, fun v t hv => ?_⟩
  · rcases he with ⟨u, s', -, -, n, hn⟩ | ⟨e', s', he', heq⟩
    · cases hn n (Nat.le_refl n)
    · rw [heq]
      exact (hrun _).2 he'
  · rcases hv with ⟨u, s', hu, -, n, hn⟩ | ⟨e', s', -, heq⟩
    · obtain ⟨-, rfl⟩ := EStateM.Result.ok.inj (hn n (Nat.le_refl n))
      have hu := (hrun _).2 hu
      obtain rfl := Machine.ends_result_eq (by simp [hd]) hu
      exact hu
    · cases heq

theorem makes_native {p : Native} (h : f.Loaded s (.native p) args) (hd : f.destination = some c) :
    Makes limit f s (.native p) args := by
  rw [Makes, hd]
  cases hp : (p.call args).run s with
  | error e' s' =>
      have hstep : f.step.run s = .error e' s' := h.run_step_native.trans (Eval.run_bind_error hp)
      have hcall : ∀ n, (callTo ⟨.stack, limit⟩ n (some c) (.native p) args).run s = .error e' s' :=
        fun n => Eval.run_bind_error hp
      refine ⟨fun e t he => (Eval.ends_congr 1 0 fun fuel _ => ?_).2 he, fun v t ⟨_, n, hn⟩ => ?_⟩
      · rw [Machine.untraced_run_succ, Eval.run_bind_error hstep, hcall]
      · have hrun := hn n (Nat.le_refl n)
        rw [hcall] at hrun
        cases hrun
  | ok reply s' =>
      have hstep : f.step.run s = .ok (.ofReply reply) s' := h.run_step_native.trans (Eval.run_bind_ok hp)
      cases reply with
      | value u =>
          have hcall : ∀ n, (callTo ⟨.stack, limit⟩ n (some c) (.native p) args).run s =
              .ok u (s'.setCar c u) := fun n => Eval.run_bind_ok hp
          have hnext : Machine.Next limit (⟨[f], .void, []⟩, s) (⟨[], .void, []⟩, s'.setCar c u) :=
            Machine.next_cons_iff.2 ⟨_, _, hstep, by rw [hd]; rfl⟩
          refine ⟨fun e t ⟨_, n, hn⟩ => ?_, fun v t ⟨_, n, hn⟩ => ?_⟩ <;>
            have hrun := hn n (Nat.le_refl n) <;> rw [hcall] at hrun
          · cases hrun
          · obtain ⟨rfl, rfl⟩ := EStateM.Result.ok.inj hrun
            exact (Machine.ends_next hnext).2 (Machine.ends_done _ _)
      | call asked vs =>
          have hcall : ∀ r, Ends (fun n => callTo ⟨.stack, limit⟩ n (some c) (.native p) args) s r ↔
              Ends (fun n => apply ⟨.stack, limit⟩ n asked vs >>= land ⟨.stack, limit⟩ (some c)) s' r :=
            fun r => Eval.ends_congr 0 0 fun fuel _ => congrArg untraced (Eval.run_bind_ok hp)
          have hrun : ∀ r, Ends (fun n => Machine.run limit n ⟨[f], .void, []⟩) s r ↔
              Ends (fun n => Machine.advance ⟨[], .void, []⟩ (some c) (.call asked vs) >>=
                Machine.run limit n) s' r := fun r => Eval.ends_congr 1 0 fun fuel _ => by
            rw [Machine.untraced_run_succ, Eval.run_bind_ok hstep, hd]
            rfl
          have hland : ∀ v : Value, Fuelled fun _ => land ⟨.stack, limit⟩ (some c) v := fun _ _ => .refl _
          simp only [hcall, hrun, Eval.ends_bind (apply_fuelled _ asked vs) hland]
          refine ⟨fun e t he => ?_, fun v t hv => ?_⟩
          · rcases he with ⟨u, t', -, -, n, hn⟩ | ⟨e', t', he', heq⟩
            · cases hn n (Nat.le_refl n)
            · obtain ⟨rfl, rfl⟩ := EStateM.Result.error.inj heq
              exact (ends_asked_to asked vs c).1 e he'
          · rcases hv with ⟨u, t', hu, -, n, hn⟩ | ⟨e', t', -, heq⟩
            · obtain ⟨rfl, rfl⟩ := EStateM.Result.ok.inj (hn n (Nat.le_refl n))
              exact (ends_asked_to asked vs c).2 u hu
            · cases heq

/-- A frame with a procedure and its arguments makes the call, and the value goes where it is wanted. -/
theorem makes_of_loaded (h : f.Loaded s procedure args) (hprocedure : procedure.isProcedure = true) :
    Makes limit f s procedure args := by
  cases hd : f.destination with
  | none =>
      rw [Makes, hd]
      simp only [callTo_none, ← ends_loaded h hprocedure hd]
      exact ⟨fun _ _ => id, fun _ _ => id⟩
  | some c =>
      cases procedure with
      | closure r => exact makes_closure h hd
      | native p => exact makes_native h hd
      | _ => cases hprocedure

theorem does_loaded {K : Exits} {Q : Value → Store → Prop} (h : f.Loaded s procedure args)
    (hprocedure : procedure.isProcedure = true)
    (hcall : Does K (fun n => callTo ⟨.stack, limit⟩ n f.destination procedure args) s Q) :
    Does K (fun n => Machine.run limit n ⟨[f], .void, []⟩) s
      fun u t => ∃ v, u = slot f.destination v ∧ Q v t :=
  hcall.elim (fun e t he => (makes_of_loaded h hprocedure).1 e t he) fun v t hv hq =>
    .of_ok ((makes_of_loaded h hprocedure).2 v t hv) ⟨v, rfl, hq⟩

end Evaluator
end LittleScheme
