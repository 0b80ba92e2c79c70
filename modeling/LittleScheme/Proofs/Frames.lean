import LittleScheme.Machine
import LittleScheme.Proofs.Computation

/-!
# Steps of a frame

The parts of a step, run from a store: the copies that frames are made of, going on with another
expression, waiting for an operand, and which form a list is.
-/
namespace LittleScheme

namespace Store

/-- Spine copies of some values, made one after the other. -/
def copyAll (s : Store) : List Value → List Value × Store
  | [] => ([], s)
  | v :: rest =>
      let (v, s) := s.copySpine v
      let (rest, s) := s.copyAll rest
      (v :: rest, s)

theorem copyAll_cons (s : Store) (v : Value) (rest : List Value) :
    s.copyAll (v :: rest) = ((s.copySpine v).1 :: ((s.copySpine v).2.copyAll rest).1,
      ((s.copySpine v).2.copyAll rest).2) := rfl

theorem copyAll_append (s : Store) (vs ws : List Value) :
    s.copyAll (vs ++ ws) = ((s.copyAll vs).1 ++ ((s.copyAll vs).2.copyAll ws).1,
      ((s.copyAll vs).2.copyAll ws).2) := by
  induction vs generalizing s with
  | nil => rfl
  | cons v vs ih => rw [List.cons_append, copyAll_cons, ih, copyAll_cons]; rfl

theorem length_copyAll (s : Store) (vs : List Value) : (s.copyAll vs).1.length = vs.length := by
  induction vs generalizing s with
  | nil => rfl
  | cons v vs ih => rw [copyAll_cons, List.length_cons, ih, List.length_cons]

/-- Quotations of some values, made one after the other. -/
def quoteAll (s : Store) : List Value → List Value × Store
  | [] => ([], s)
  | v :: rest =>
      let (quoted, s) := s.list [.keyword .quote, v]
      let (rest, s) := s.quoteAll rest
      (quoted :: rest, s)

end Store

/-- The form for a call with values as they are. -/
theorem Eval.run_callForm (procedure : Value) (args : List Value) (s : Store) :
    (callForm procedure args).run s =
      .ok ((s.quoteAll args).2.list (procedure :: (s.quoteAll args).1)).1
        ((s.quoteAll args).2.list (procedure :: (s.quoteAll args).1)).2 := by
  have hquoted : ∀ s : Store, (args.mapM fun v => (make fun s => s.list [.keyword .quote, v] :
      Eval Value)).run s = .ok (s.quoteAll args).1 (s.quoteAll args).2 := by
    induction args with
    | nil => exact fun s => rfl
    | cons v args ih =>
        intro s
        rw [List.mapM_cons, run_make_bind, run_bind_ok (ih _)]
        rfl
  rw [callForm, run_bind_ok (hquoted s)]
  rfl

namespace Frame

/-- A frame that has done nothing yet. -/
def fresh (scope : Ref) (destination : Option Ref) (expr : Value) : Frame :=
  { expr, scope, destination }

@[simp] theorem run_new (v : Value) (scope : Ref) (d : Option Ref) (s : Store) :
    (new v scope d).run s = .ok (fresh scope d (s.copySpine v).1) (s.copySpine v).2 := rfl

theorem run_mapM_new (vs : List Value) (scope : Ref) (d : Option Ref) (s : Store) :
    (vs.mapM fun v => new v scope d).run s =
      .ok ((s.copyAll vs).1.map (fresh scope d)) (s.copyAll vs).2 := by
  induction vs generalizing s with
  | nil => rfl
  | cons v vs ih =>
      rw [List.mapM_cons, Eval.run_bind_ok (run_new v scope d s), Eval.run_bind_ok (ih _)]
      rfl

theorem run_ofBody (body : Value) (scope : Ref) (d : Option Ref) (s : Store) :
    (ofBody body scope d).run s = .ok ((s.copyAll (s.elements body)).1.map (fresh scope d))
      (s.copyAll (s.elements body)).2 := by
  rw [ofBody, Eval.run_ask_bind]
  exact run_mapM_new _ scope d s

/-- The frame that goes on with another expression in the place of its own. -/
def withExpr (f : Frame) (expr : Value) : Frame := { f with expr, pushed := false }

theorem run_goOn (f : Frame) (v : Value) (s : Store) :
    (goOn f v).run s = .ok (.suspend (f.withExpr (s.copySpine v).1) []) (s.copySpine v).2 := rfl

theorem run_await (f : Frame) (v : Value) (cell : Ref) (s : Store) :
    (await f v cell).run s = .ok (.suspend { f with pushed := true }
      [fresh f.scope (some cell) (s.copySpine v).1]) (s.copySpine v).2 := rfl

theorem run_step_list {f : Frame} {r : Ref} {s : Store} (hf : f.expr = .pair r)
    (hl : s.isList f.expr = true) : f.step.run s = (stepForm f r).run s := by
  obtain ⟨expr, scope, pushed, d⟩ := f
  subst hf
  rw [step, Eval.run_ask_bind]
  simp only [hl, if_true]

theorem run_step_pair {f : Frame} {r : Ref} {s : Store} (hf : f.expr = .pair r)
    (hl : s.isList f.expr = false) : f.step.run s = .ok (.value f.expr) s := by
  obtain ⟨expr, scope, pushed, d⟩ := f
  subst hf
  rw [step, Eval.run_ask_bind]
  simp only [hl, Bool.false_eq_true, if_false, Eval.run_pure]

theorem run_stepForm (f : Frame) (r : Ref) (s : Store) :
    (stepForm f r).run s = (stepHead f r (s.cdr r) (s.car r)).run s := rfl

/-! ### Who takes over -/

/-- A frame that waits is only marked, one that goes on keeps its scope and its destination, and
those that replace it have its destination. -/
def Transition.Keeps (f : Frame) : Transition → Prop
  | .suspend g [] => g.scope = f.scope ∧ g.destination = f.destination
  | .suspend g _ => g = { f with pushed := true }
  | .replace frames => ∀ g ∈ frames, g.destination = f.destination
  | _ => True

open Eval Transition

theorem goOn_keeps (f : Frame) (v : Value) : Returns (goOn f v) (Keeps f) :=
  returns_bind fun _ => returns_pure ⟨rfl, rfl⟩

theorem await_keeps (f : Frame) (v : Value) (cell : Ref) : Returns (await f v cell) (Keeps f) :=
  returns_bind fun _ => returns_pure rfl

theorem ofBody_keeps (f : Frame) (body : Value) (scope : Ref) :
    Returns (do return .replace (← ofBody body scope f.destination)) (Keeps f) := by
  have hbody : Returns (ofBody body scope f.destination)
      fun frames => ∀ g ∈ frames, g.destination = f.destination := by
    intro s frames s' h
    rw [run_ofBody] at h
    obtain ⟨rfl, -⟩ := EStateM.Result.ok.inj h
    simp [fresh]
  exact hbody.bind fun frames hframes => returns_pure hframes

theorem stepConditional_keeps (f : Frame) (operands : Value) :
    Returns (stepConditional f operands) (Keeps f) := by
  refine returns_bind fun parts => returns_bind fun test => ?_
  split
  · exact await_keeps f _ _
  · split
    · exact goOn_keeps f _
    · split
      · exact goOn_keeps f _
      · exact returns_pure trivial

theorem stepDefinition_keeps (f : Frame) (operands : Value) :
    Returns (stepDefinition f operands) (Keeps f) := by
  refine returns_bind fun d => ?_
  split
  · exact returns_bind fun _ => returns_pure trivial
  · refine returns_bind fun v => ?_
    split
    · exact returns_bind fun _ => returns_pure trivial
    · exact await_keeps f _ _

theorem stepAssignment_keeps (f : Frame) (operands : Value) :
    Returns (stepAssignment f operands) (Keeps f) := by
  refine returns_bind fun parts => returns_bind fun v => ?_
  split
  · exact returns_bind fun _ => returns_pure trivial
  · exact await_keeps f _ _

theorem stepLogical_keeps (f : Frame) (form : Ref) (wanted arrived : Bool) (cells : List Ref) :
    Returns (stepLogical f form wanted arrived cells) (Keeps f) := by
  induction cells generalizing arrived with
  | nil => exact returns_pure trivial
  | cons cell rest ih =>
      refine returns_bind fun operand => ?_
      split
      · exact goOn_keeps f _
      · refine returns_bind fun value => ?_
        split
        · exact await_keeps f _ _
        · split
          · exact returns_pure trivial
          · exact returns_bind fun _ => ih false

theorem stepCond_keeps (f : Frame) (form : Ref) (arrived : Bool) (cells : List Ref) :
    Returns (stepCond f form arrived cells) (Keeps f) := by
  induction cells generalizing arrived with
  | nil => exact returns_pure trivial
  | cons cell rest ih =>
      refine returns_bind fun v => returns_bind fun clause => returns_bind fun test =>
        returns_bind fun body => returns_bind fun value => ?_
      split
      · exact returns_bind fun head => returns_bind fun _ => await_keeps f _ _
      · split
        · split
          · exact returns_pure trivial
          · exact returns_bind fun t => goOn_keeps f t
        · exact returns_bind fun _ => ih false

theorem stepApplication_keeps (f : Frame) (form : Ref) :
    Returns (stepApplication f form) (Keeps f) := by
  refine returns_bind fun pending => ?_
  split
  · refine returns_bind fun args => returns_bind fun operator => ?_
    split
    · refine returns_bind fun reply => ?_
      split <;> exact returns_pure trivial
    · exact returns_bind fun scope => returns_bind fun body => ofBody_keeps f body scope
    · exact returns_bind fun text => returns_raise _
  · rename_i hpending
    refine (returns_length_mapM _ pending).bind fun frames hlength => returns_pure ?_
    cases frames with
    | nil => exact absurd (List.isEmpty_iff_length_eq_zero.2 hlength.symm) hpending
    | cons g frames => rfl

theorem step_keeps (f : Frame) : Returns f.step (Keeps f) := by
  obtain ⟨expr, scope, pushed, d⟩ := f
  unfold step
  split
  · exact returns_bind fun _ => returns_pure trivial
  · exact returns_raise _
  · refine returns_bind fun list => ?_
    split
    · refine returns_bind fun operands => returns_bind fun head => ?_
      unfold stepHead
      split
      · exact returns_bind fun _ => returns_pure trivial
      · exact stepConditional_keeps _ _
      · exact stepDefinition_keeps _ _
      · exact stepAssignment_keeps _ _
      · exact returns_bind fun _ => returns_pure trivial
      · exact returns_bind fun _ => returns_pure ⟨rfl, rfl⟩
      · exact returns_bind fun cells => stepCond_keeps _ _ _ cells
      · exact returns_bind fun cells => stepLogical_keeps _ _ _ _ cells
      · exact returns_bind fun cells => stepLogical_keeps _ _ _ _ cells
      · split
        · exact returns_pure trivial
        · exact ofBody_keeps _ _ _
      · exact returns_raise _
      · exact stepApplication_keeps _ _
    · exact returns_pure trivial
  · exact returns_pure trivial

theorem eq_of_step_suspend {f g : Frame} {above : List Frame} {s s' : Store}
    (h : f.step.run s = .ok (.suspend g above) s') (hne : above ≠ []) :
    g = { f with pushed := true } := by
  have hkeeps := step_keeps f h
  cases above with
  | nil => contradiction
  | cons a above => exact hkeeps

/-! ### Operands that need no frame -/

theorem checks_trivialValue (v : Value) (scope : Ref) : Checks (trivialValue v scope) := by
  unfold trivialValue
  split
  · exact (checks_lookup _ _).map _
  · refine (checks_ask _).bind fun needed => ?_
    split <;> exact checks_pure _

theorem checks_settledValue (arrived : Bool) (v : Value) (scope : Ref) :
    Checks (settledValue arrived v scope) := by
  unfold settledValue
  split
  · exact checks_pure _
  · exact checks_trivialValue v scope

theorem checks_settledTest (arrived : Bool) (test : Value) (scope : Ref) :
    Checks (settledTest arrived test scope) := by
  unfold settledTest
  split
  · exact checks_pure _
  · exact checks_settledValue _ _ _

end Frame
end LittleScheme
