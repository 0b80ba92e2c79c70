import LittleScheme.Machine
import LittleScheme.Proofs.Computation
import Mathlib.Logic.Relation

/-!
# Runs of the stack machine

A configuration is a machine and its store. The machine takes a step, fails or is done with a value;
a run is a sequence of steps. What lies below a stack does not take part in a run until the stack is
used up: the same run goes on above any other frames and suspended stacks.
-/
namespace LittleScheme.Machine

variable {limit : Nat}

theorem run_traced_ok {α : Type} {x : Eval α} {s s' : Store} {a : α} (frames : List Frame)
    (h : x.run s = .ok a s') : (traced limit frames x).run s = .ok a s' := by
  unfold traced EStateM.run at *
  simp only [h]

theorem run_traced_error {α : Type} {x : Eval α} {s s' : Store} {e : Error} (frames : List Frame)
    (h : x.run s = .error (.error e) s') :
    (traced limit frames x).run s = .error (.error (e.withTrace (trace s' limit frames))) s' := by
  unfold traced EStateM.run at *
  simp only [h]

theorem run_traced_eq_ok {α : Type} {x : Eval α} {s s' : Store} {a : α} {frames : List Frame}
    (h : (traced limit frames x).run s = .ok a s') : x.run s = .ok a s' := by
  unfold traced EStateM.run at *
  cases hx : x s with
  | ok b t => simpa [hx] using h
  | error e t => cases e <;> simp [hx] at h

/-- One step from a configuration to another. -/
def Next (limit : Nat) (c c' : Machine × Store) : Prop :=
  (c.1.step limit).run c.2 = .ok (.inl c'.1) c'.2

/-- Any number of steps. -/
def Reaches (limit : Nat) : Machine × Store → Machine × Store → Prop :=
  Relation.ReflTransGen (Next limit)

theorem Next.reaches {c c' : Machine × Store} (h : Next limit c c') : Reaches limit c c' :=
  .single h

theorem Reaches.refl (c : Machine × Store) : Reaches limit c c := Relation.ReflTransGen.refl

theorem Reaches.trans {a b c : Machine × Store} (h : Reaches limit a b) (h' : Reaches limit b c) :
    Reaches limit a c := Relation.ReflTransGen.trans h h'

/-- A step of the top frame is a transition of the frame, carried out on the stack below it. -/
theorem next_cons_iff {f : Frame} {R : List Frame} {v : Value} {B : List Suspended} {s : Store}
    {c : Machine × Store} :
    Next limit (⟨f :: R, v, B⟩, s) c ↔ ∃ t s₁, f.step.run s = .ok t s₁ ∧
      (advance ⟨R, v, B⟩ f.destination t).run s₁ = .ok c.1 c.2 := by
  unfold Next step
  simp only [Eval.run_bind_eq_ok, Eval.run_pure, EStateM.Result.ok.injEq, Sum.inl.injEq]
  constructor
  · rintro ⟨t, s₁, ht, m, s₂, hm, rfl, rfl⟩
    exact ⟨t, s₁, run_traced_eq_ok ht, hm⟩
  · rintro ⟨t, s₁, ht, hm⟩
    exact ⟨t, s₁, run_traced_ok _ ht, _, _, hm, rfl, rfl⟩

theorem next_suspend {f g : Frame} {above R : List Frame} {v : Value} {B : List Suspended}
    {s s' : Store} (h : f.step.run s = .ok (.suspend g above) s') :
    Next limit (⟨f :: R, v, B⟩, s) (⟨above ++ g :: R, v, B⟩, s') :=
  next_cons_iff.2 ⟨_, _, h, rfl⟩

theorem next_replace {f : Frame} {frames R : List Frame} {v : Value} {B : List Suspended}
    {s s' : Store} (h : f.step.run s = .ok (.replace frames) s') :
    Next limit (⟨f :: R, v, B⟩, s) (⟨frames ++ R, v, B⟩, s') :=
  next_cons_iff.2 ⟨_, _, h, rfl⟩

/-- When a stack is used up, its result goes to the stack that was suspended. -/
theorem next_nil_iff {v : Value} {outer : Suspended} {B : List Suspended} {s : Store}
    {c : Machine × Store} :
    Next limit (⟨[], v, outer :: B⟩, s) c ↔
      (deliver ⟨outer.frames, outer.result, B⟩ outer.destination v).run s = .ok c.1 c.2 := by
  unfold Next step
  simp only [Eval.run_bind_eq_ok, Eval.run_pure, EStateM.Result.ok.injEq, Sum.inl.injEq]
  exact ⟨by rintro ⟨m, s₁, hm, rfl, rfl⟩; exact hm, fun h => ⟨_, _, h, rfl, rfl⟩⟩

/-! ### What lies below -/

/-- Suspended stacks with more frames at the bottom of the last and more stacks after it. -/
def sink (R : List Frame) (B : List Suspended) : List Suspended → List Suspended
  | [] => B
  | [last] => { last with frames := last.frames ++ R } :: B
  | outer :: rest => outer :: sink R B rest

/-- A machine above some frames and suspended stacks. -/
def above (m : Machine) (R : List Frame) (B : List Suspended) : Machine where
  frames := if m.suspended.isEmpty then m.frames ++ R else m.frames
  result := m.result
  suspended := sink R B m.suspended

@[simp] theorem above_nil (F R : List Frame) (v : Value) (B : List Suspended) :
    above ⟨F, v, []⟩ R B = ⟨F ++ R, v, B⟩ := rfl

theorem above_cons (F R : List Frame) (v : Value) (outer : Suspended) (rest B : List Suspended) :
    above ⟨F, v, outer :: rest⟩ R B = ⟨F, v, sink R B (outer :: rest)⟩ := rfl

theorem sink_cons (R F : List Frame) (v : Value) (d : Option Ref) (rest B : List Suspended) :
    sink R B (⟨F, v, d⟩ :: rest) =
      ⟨(above ⟨F, v, rest⟩ R B).frames, v, d⟩ :: (above ⟨F, v, rest⟩ R B).suspended := by
  cases rest <;> rfl

theorem deliver_above (m : Machine) (d : Option Ref) (v : Value) (R : List Frame)
    (B : List Suspended) :
    (m.above R B).deliver d v = (fun m => m.above R B) <$> m.deliver d v := by
  cases d <;> rfl

theorem advance_above (m : Machine) (d : Option Ref) (t : Frame.Transition) (R : List Frame)
    (B : List Suspended) :
    (m.above R B).advance d t = (fun m => m.above R B) <$> m.advance d t := by
  cases t with
  | value v => exact deliver_above m d v R B
  | suspend g frames => cases hm : m.suspended <;> simp [advance, above, hm]
  | replace frames => cases hm : m.suspended <;> simp [advance, above, hm]
  | call procedure args =>
      obtain ⟨frames, v, suspended⟩ := m
      simp only [advance, map_bind, map_pure, above_cons, sink_cons]
      rfl

theorem run_advance_above {m m' : Machine} {d : Option Ref} {t : Frame.Transition}
    {R : List Frame} {B : List Suspended} {s s' : Store} :
    ((m.above R B).advance d t).run s = .ok m' s' ↔
      ∃ n, (m.advance d t).run s = .ok n s' ∧ n.above R B = m' := by
  rw [advance_above]
  exact Eval.run_map_eq_ok

theorem run_deliver_above {m m' : Machine} {d : Option Ref} {v : Value} {R : List Frame}
    {B : List Suspended} {s s' : Store} :
    ((m.above R B).deliver d v).run s = .ok m' s' ↔
      ∃ n, (m.deliver d v).run s = .ok n s' ∧ n.above R B = m' := by
  rw [deliver_above]
  exact Eval.run_map_eq_ok

/-- A machine that is not done takes the same steps above other frames. -/
theorem next_above_iff {m : Machine} {s : Store} {c : Machine × Store} {R : List Frame}
    {B : List Suspended} (hm : m.frames ≠ [] ∨ m.suspended ≠ []) :
    Next limit (m.above R B, s) c ↔
      ∃ m', Next limit (m, s) (m', c.2) ∧ m'.above R B = c.1 := by
  obtain ⟨frames, v, suspended⟩ := m
  cases frames with
  | cons f frames =>
      have hcons : above ⟨f :: frames, v, suspended⟩ R B =
          ⟨f :: (above ⟨frames, v, suspended⟩ R B).frames, v,
            (above ⟨frames, v, suspended⟩ R B).suspended⟩ := by
        cases suspended <;> rfl
      rw [hcons, next_cons_iff]
      constructor
      · rintro ⟨t, s₁, ht, hadvance⟩
        obtain ⟨m', hm', habove⟩ := (run_advance_above (m := ⟨frames, v, suspended⟩)).1 hadvance
        exact ⟨m', next_cons_iff.2 ⟨t, s₁, ht, hm'⟩, habove⟩
      · rintro ⟨m', hnext, habove⟩
        obtain ⟨t, s₁, ht, hm'⟩ := next_cons_iff.1 hnext
        exact ⟨t, s₁, ht, (run_advance_above (m := ⟨frames, v, suspended⟩)).2 ⟨m', hm', habove⟩⟩
  | nil =>
      cases suspended with
      | nil => simp at hm
      | cons outer rest =>
          obtain ⟨F, w, d⟩ := outer
          rw [above_cons, sink_cons, next_nil_iff]
          simp only [next_nil_iff]
          exact run_deliver_above (m := ⟨F, w, rest⟩)

theorem Next.above {c c' : Machine × Store} (h : Next limit c c') (R : List Frame)
    (B : List Suspended) : Next limit (c.1.above R B, c.2) (c'.1.above R B, c'.2) := by
  have hm : c.1.frames ≠ [] ∨ c.1.suspended ≠ [] := by
    obtain ⟨⟨frames, v, suspended⟩, s⟩ := c
    cases frames <;> cases suspended <;> simp_all [Next, step]
  exact (next_above_iff hm).2 ⟨c'.1, h, rfl⟩

theorem Reaches.above {c c' : Machine × Store} (h : Reaches limit c c') (R : List Frame)
    (B : List Suspended) : Reaches limit (c.1.above R B, c.2) (c'.1.above R B, c'.2) := by
  induction h with
  | refl => exact .refl _
  | tail _ hstep ih => exact ih.trans (hstep.above R B).reaches

/-! ### Counted runs -/

/-- A run of so many steps. -/
def Steps (limit : Nat) : Nat → Machine × Store → Machine × Store → Prop
  | 0, c, c' => c = c'
  | n + 1, c, c' => ∃ c₁, Next limit c c₁ ∧ Steps limit n c₁ c'

theorem Steps.reaches {n : Nat} {c c' : Machine × Store} (h : Steps limit n c c') :
    Reaches limit c c' := by
  induction n generalizing c with
  | zero => exact h ▸ .refl c
  | succ n ih =>
      obtain ⟨c₁, hnext, hrest⟩ := h
      exact hnext.reaches.trans (ih hrest)

theorem Reaches.steps {c c' : Machine × Store} (h : Reaches limit c c') :
    ∃ n, Steps limit n c c' := by
  induction h using Relation.ReflTransGen.head_induction_on with
  | refl => exact ⟨0, rfl⟩
  | head hnext _ ih =>
      obtain ⟨n, hn⟩ := ih
      exact ⟨n + 1, _, hnext, hn⟩

/-- A run above some frames stays above them, or the stack above is used up at some point and the
frames below go on. -/
theorem Steps.split_above {n : Nat} {m : Machine} {s : Store} {c : Machine × Store}
    {R : List Frame} {B : List Suspended} (h : Steps limit n (m.above R B, s) c) :
    (∃ m', Steps limit n (m, s) (m', c.2) ∧ m'.above R B = c.1) ∨
      ∃ i j v s', i + j = n ∧ Steps limit i (m, s) (⟨[], v, []⟩, s') ∧
        Steps limit j (⟨R, v, B⟩, s') c := by
  induction n generalizing m s with
  | zero =>
      subst h
      exact .inl ⟨m, rfl, rfl⟩
  | succ n ih =>
      by_cases hm : m.frames ≠ [] ∨ m.suspended ≠ []
      · obtain ⟨c₁, hnext, hrest⟩ := h
        obtain ⟨m₁, hm₁, habove⟩ := (next_above_iff hm).1 hnext
        obtain ⟨_, s₁⟩ := c₁
        subst habove
        rcases ih hrest with ⟨m', hm', heq⟩ | ⟨i, j, v, s', rfl, hi, hj⟩
        · exact .inl ⟨m', ⟨_, hm₁, hm'⟩, heq⟩
        · exact .inr ⟨i + 1, j, v, s', by omega, ⟨_, hm₁, hi⟩, hj⟩
      · obtain ⟨frames, v, suspended⟩ := m
        have hnil : frames = [] ∧ suspended = [] := by simpa using hm
        obtain ⟨rfl, rfl⟩ := hnil
        exact .inr ⟨0, n + 1, v, s, by omega, rfl, h⟩

/-! ### Runs to the end -/

/-- A machine is done when its stacks are used up. -/
theorem step_eq_inr {m : Machine} {s s' : Store} {v : Value}
    (h : (m.step limit).run s = .ok (.inr v) s') : m = ⟨[], v, []⟩ ∧ s' = s := by
  obtain ⟨frames, result, suspended⟩ := m
  cases frames with
  | cons f frames =>
      obtain ⟨t, s₁, -, h⟩ := Eval.run_bind_eq_ok.1 h
      obtain ⟨m', s₂, -, h⟩ := Eval.run_bind_eq_ok.1 h
      cases h
  | nil =>
      cases suspended with
      | cons outer suspended =>
          obtain ⟨m', s₂, -, h⟩ := Eval.run_bind_eq_ok.1 h
          cases h
      | nil =>
          obtain ⟨hv, hs⟩ := EStateM.Result.ok.inj h
          obtain rfl := Sum.inr.inj hv
          exact ⟨rfl, hs.symm⟩

/-- A run that ends in a value uses up the stacks. -/
theorem reaches_of_run {n : Nat} {m : Machine} {s s' : Store} {v : Value}
    (h : (run limit n m).run s = .ok v s') : Reaches limit (m, s) (⟨[], v, []⟩, s') := by
  induction n generalizing m s with
  | zero => cases h
  | succ n ih =>
      obtain ⟨next, s₁, hstep, h⟩ := Eval.run_bind_eq_ok.1 h
      cases next with
      | inl m' =>
          have hnext : Next limit (m, s) (m', s₁) := hstep
          exact hnext.reaches.trans (ih h)
      | inr u =>
          obtain ⟨rfl, rfl⟩ := step_eq_inr hstep
          obtain ⟨rfl, rfl⟩ := EStateM.Result.ok.inj h
          exact .refl _

/-- A run goes on from any configuration that it comes to. -/
theorem run_of_reaches {c c' : Machine × Store} (h : Reaches limit c c') :
    ∃ n, ∀ fuel, (run limit (fuel + n) c.1).run c.2 = (run limit fuel c'.1).run c'.2 := by
  induction h using Relation.ReflTransGen.head_induction_on with
  | refl => exact ⟨0, fun _ => rfl⟩
  | head hnext _ ih =>
      obtain ⟨n, hn⟩ := ih
      refine ⟨n + 1, fun fuel => ?_⟩
      rw [← hn fuel, ← Nat.add_assoc, run]
      exact Eval.run_bind_ok hnext

/-- A run that comes to a step that fails ends with that failure, given enough fuel. -/
theorem run_of_reaches_error {c c' : Machine × Store} {e : Stop} {s' : Store}
    (h : Reaches limit c c') (he : (c'.1.step limit).run c'.2 = .error e s') :
    ∃ n, ∀ fuel ≥ n, (run limit fuel c.1).run c.2 = .error e s' := by
  obtain ⟨n, hn⟩ := run_of_reaches h
  refine ⟨n + 1, fun fuel hfuel => ?_⟩
  obtain ⟨k, rfl⟩ := Nat.exists_eq_add_of_le' hfuel
  rw [show k + (n + 1) = k + 1 + n from by omega, hn, run]
  exact Eval.run_bind_error he

end LittleScheme.Machine
