import LittleScheme.Interpreter
import LittleScheme.Proofs.Traces

/-!
# Fuel

The fuel bounds the depth of the recursion and the steps of the machine, and has no other effect: with
more of it a computation does what it did with less, unless it had run out. So a computation comes to
at most one end, and how it ends can be told of its parts.
-/
namespace LittleScheme

namespace Eval

variable {α β : Type}

/-- The first computation does what the second does, unless that runs out of fuel. -/
def Prolongs (y x : Eval α) : Prop := ∀ s, y.run s = x.run s ∨ ∃ s', x.run s = .error .outOfFuel s'

namespace Prolongs

theorem refl (x : Eval α) : Prolongs x x := fun _ => .inl rfl

theorem trans {x y z : Eval α} (h : Prolongs z y) (h' : Prolongs y x) : Prolongs z x := by
  intro s
  rcases h' s with heq | hfuel
  · rw [← heq]
    exact h s
  · exact .inr hfuel

theorem of_throw {x y : Eval α} (h : x = throw .outOfFuel) : Prolongs y x := by
  intro s
  rw [h]
  exact .inr ⟨s, rfl⟩

theorem bind {x y : Eval α} {f g : α → Eval β} (h : Prolongs y x) (hfg : ∀ a, Prolongs (g a) (f a)) :
    Prolongs (y >>= g) (x >>= f) := by
  intro s
  rcases h s with heq | ⟨s', hfuel⟩
  · rw [run_bind, run_bind, heq]
    cases x.run s with
    | ok a s' => exact hfg a s'
    | error e s' => exact .inl rfl
  · exact .inr ⟨s', run_bind_error hfuel⟩

theorem bind_same (x : Eval α) {f g : α → Eval β} (hfg : ∀ a, Prolongs (g a) (f a)) :
    Prolongs (x >>= g) (x >>= f) := (refl x).bind hfg

theorem ite {c : Prop} [Decidable c] {x y x' y' : Eval α} (h : Prolongs y x) (h' : Prolongs y' x') :
    Prolongs (if c then y else y') (if c then x else x') := by
  split
  · exact h
  · exact h'

end Prolongs
end Eval

open Eval (Prolongs)

/-! ### More depth -/

namespace Direct

mutual

theorem eval_prolongs (n : Nat) (v : Value) (a : Ref) : Prolongs (eval (n + 1) v a) (eval n v a) := by
  cases n with
  | zero => exact .of_throw (by rw [eval])
  | succ n =>
      unfold eval
      cases v with
      | pair r => exact .bind_same _ fun _ => .ite (evalForm_prolongs n r a) (.refl _)
      | _ => exact .refl _

theorem evalForm_prolongs (n : Nat) (form a : Ref) :
    Prolongs (evalForm (n + 1) form a) (evalForm n form a) := by
  cases n with
  | zero => exact .of_throw (by rw [evalForm])
  | succ n =>
      unfold evalForm
      refine .bind_same _ fun operands => .bind_same _ fun head => ?_
      have happlication : Prolongs
          (do
            let procedure ← eval (n + 1) head a
            let args ← evalEach (n + 1) operands a
            apply (n + 1) procedure args)
          (do
            let procedure ← eval n head a
            let args ← evalEach n operands a
            apply n procedure args) :=
        (eval_prolongs n head a).bind fun _ => (evalEach_prolongs n operands a).bind
          fun _ => apply_prolongs n _ _
      cases head with
      | keyword k =>
          cases k with
          | quote => exact .refl _
          | ifThen =>
              refine .bind_same _ fun parts => .bind_same _ fun test =>
                (eval_prolongs n test a).bind fun _ => .ite (eval_prolongs n _ a) ?_
              cases parts.alternate with
              | some alternate => exact eval_prolongs n alternate a
              | none => exact .refl _
          | define =>
              refine .bind_same _ fun definition => ?_
              match definition with
              | .procedure _ _ => exact .refl _
              | .variable _ _ =>
                  exact .bind_same _ fun expr => (eval_prolongs n expr a).bind fun _ => .refl _
          | set =>
              exact .bind_same _ fun target => .bind_same _ fun expr =>
                (eval_prolongs n expr a).bind fun _ => .refl _
          | lambda => exact .refl _
          | letIn => exact .bind_same _ fun call => eval_prolongs n call a
          | cond => exact evalClauses_prolongs n operands a
          | and => exact evalAnd_prolongs n _ operands a
          | or => exact evalOr_prolongs n operands a
          | begin => exact evalBody_prolongs n _ operands a
          | otherwise => exact .refl _
      | _ => exact happlication

theorem evalEach_prolongs (n : Nat) (list : Value) (a : Ref) :
    Prolongs (evalEach (n + 1) list a) (evalEach n list a) := by
  cases n with
  | zero => exact .of_throw (by rw [evalEach])
  | succ n =>
      unfold evalEach
      cases list with
      | pair r =>
          exact .bind_same _ fun rest => .bind_same _ fun expr => (eval_prolongs n expr a).bind
            fun _ => (evalEach_prolongs n rest a).bind fun _ => .refl _
      | _ => exact .refl _

theorem evalBody_prolongs (n : Nat) (last body : Value) (a : Ref) :
    Prolongs (evalBody (n + 1) last body a) (evalBody n last body a) := by
  cases n with
  | zero => exact .of_throw (by rw [evalBody])
  | succ n =>
      unfold evalBody
      cases body with
      | pair r =>
          exact .bind_same _ fun rest => .bind_same _ fun expr => (eval_prolongs n expr a).bind
            fun v => evalBody_prolongs n v rest a
      | _ => exact .refl _

theorem evalClauses_prolongs (n : Nat) (clauses : Value) (a : Ref) :
    Prolongs (evalClauses (n + 1) clauses a) (evalClauses n clauses a) := by
  cases n with
  | zero => exact .of_throw (by rw [evalClauses])
  | succ n =>
      unfold evalClauses
      cases clauses with
      | pair r =>
          refine .bind_same _ fun rest => .bind_same _ fun v => .bind_same _ fun clause =>
            .bind_same _ fun head => ?_
          have hbranch (test : Value) : Prolongs
              (do
                if test.isTrue then
                  let body ← Eval.ask fun s => s.cdr clause
                  if body.isNil then return test else evalBody (n + 1) .void body a
                else evalClauses (n + 1) rest a)
              (do
                if test.isTrue then
                  let body ← Eval.ask fun s => s.cdr clause
                  if body.isNil then return test else evalBody n .void body a
                else evalClauses n rest a) :=
            .ite (.bind_same _ fun body => .ite (.refl _) (evalBody_prolongs n _ body a))
              (evalClauses_prolongs n rest a)
          cases head with
          | keyword k =>
              cases k with
              | otherwise => exact .bind_same _ hbranch
              | _ => exact (eval_prolongs n _ a).bind hbranch
          | _ => exact (eval_prolongs n _ a).bind hbranch
      | _ => exact .refl _

theorem evalAnd_prolongs (n : Nat) (last operands : Value) (a : Ref) :
    Prolongs (evalAnd (n + 1) last operands a) (evalAnd n last operands a) := by
  cases n with
  | zero => exact .of_throw (by rw [evalAnd])
  | succ n =>
      unfold evalAnd
      cases operands with
      | pair r =>
          exact .bind_same _ fun rest => .bind_same _ fun expr => (eval_prolongs n expr a).bind
            fun v => .ite (evalAnd_prolongs n v rest a) (.refl _)
      | _ => exact .refl _

theorem evalOr_prolongs (n : Nat) (operands : Value) (a : Ref) :
    Prolongs (evalOr (n + 1) operands a) (evalOr n operands a) := by
  cases n with
  | zero => exact .of_throw (by rw [evalOr])
  | succ n =>
      unfold evalOr
      cases operands with
      | pair r =>
          exact .bind_same _ fun rest => .bind_same _ fun expr => (eval_prolongs n expr a).bind
            fun _ => .ite (.refl _) (evalOr_prolongs n rest a)
      | _ => exact .refl _

theorem apply_prolongs (n : Nat) (procedure : Value) (args : List Value) :
    Prolongs (apply (n + 1) procedure args) (apply n procedure args) := by
  cases n with
  | zero => exact .of_throw (by rw [apply])
  | succ n =>
      unfold apply
      cases procedure with
      | native p =>
          refine .bind_same _ fun reply => ?_
          cases reply with
          | value v => exact .refl _
          | call procedure args =>
              exact .bind_same _ fun form => .bind_same _ fun root => eval_prolongs n form root
      | closure r =>
          exact .bind_same _ fun scope => .bind_same _ fun body => evalBody_prolongs n _ body scope
      | _ => exact .refl _

end

end Direct

/-! ### Families of computations -/

namespace Eval

/-- A computation that does with more fuel what it did with less, unless it had run out. -/
def Fuelled {α : Type} (x : Nat → Eval α) : Prop := ∀ n, Prolongs (x (n + 1)) (x n)

theorem Fuelled.of_le {α : Type} {x : Nat → Eval α} (h : Fuelled x) {m n : Nat} (hmn : m ≤ n) :
    Prolongs (x n) (x m) := by
  induction hmn with
  | refl => exact .refl _
  | step _ ih => exact (h _).trans ih

/-- Values do not depend on the fuel. -/
theorem Fuelled.eq_of_ok {α : Type} {x : Nat → Eval α} (h : Fuelled x) {m n : Nat} {s s' t' : Store}
    {v w : α} (hv : (x m).run s = .ok v s') (hw : (x n).run s = .ok w t') : v = w ∧ s' = t' := by
  have hmax {k : Nat} {v : α} {s' : Store} (hk : k ≤ max m n) (hv : (x k).run s = .ok v s') :
      (x (max m n)).run s = .ok v s' := by
    rcases h.of_le hk s with heq | ⟨_, hout⟩
    · rw [heq, hv]
    · rw [hout] at hv
      cases hv
  have hboth := (hmax (Nat.le_max_left m n) hv).symm.trans (hmax (Nat.le_max_right m n) hw)
  exact EStateM.Result.ok.inj hboth

theorem prolongs_foldlM {α β : Type} {f g : β → α → Eval β} (hfg : ∀ b a, Prolongs (g b a) (f b a))
    (items : List α) (b : β) : Prolongs (items.foldlM g b) (items.foldlM f b) := by
  induction items generalizing b with
  | nil => exact .refl _
  | cons a items ih =>
      rw [List.foldlM_cons, List.foldlM_cons]
      exact (hfg b a).bind ih

end Eval

open Eval (Fuelled)

namespace Direct

theorem eval_fuelled (v : Value) (a : Ref) : Fuelled fun n => eval n v a :=
  fun n => eval_prolongs n v a

theorem evalEach_fuelled (list : Value) (a : Ref) : Fuelled fun n => evalEach n list a :=
  fun n => evalEach_prolongs n list a

end Direct

theorem Machine.run_fuelled (limit : Nat) (m : Machine) : Fuelled fun n => run limit n m := by
  intro n
  induction n generalizing m with
  | zero => exact .of_throw rfl
  | succ n ih =>
      refine .bind_same (m.step limit) fun next => ?_
      cases next with
      | inl m => exact ih m
      | inr v => exact .refl _

namespace Evaluator

theorem eval_fuelled (e : Evaluator) (expr : Value) (scope : Ref) :
    Fuelled fun n => e.eval n expr scope := by
  intro n
  unfold eval
  cases e.strategy with
  | recursive => exact Direct.eval_prolongs n expr scope
  | stack => exact .bind_same _ fun m => Machine.run_fuelled e.traceLimit m n

end Evaluator

/-! ### Ends -/

namespace Eval

/-- A computation comes to an end when there is enough fuel, and this is how. Errors are told
without their traces. -/
def Ends (x : Nat → Eval Value) (s : Store) (r : EStateM.Result Stop Store Value) : Prop :=
  (∀ t, r ≠ .error .outOfFuel t) ∧ ∃ n, ∀ fuel ≥ n, untraced ((x fuel).run s) = r

theorem ends_congr {x y : Nat → Eval Value} {s t : Store}
    {r : EStateM.Result Stop Store Value} (k n : Nat)
    (h : ∀ fuel ≥ n, untraced ((x (fuel + k)).run s) = untraced ((y fuel).run t)) :
    Ends x s r ↔ Ends y t r := by
  refine and_congr_right fun _ => ⟨fun ⟨m, hm⟩ => ⟨n + m, fun fuel hfuel => ?_⟩,
    fun ⟨m, hm⟩ => ⟨n + m + k, fun fuel hfuel => ?_⟩⟩
  · rw [← h fuel (by omega)]
    exact hm _ (by omega)
  · obtain ⟨fuel, rfl⟩ : ∃ j, fuel = j + k := ⟨fuel - k, by omega⟩
    rw [h fuel (by omega)]
    exact hm _ (by omega)

variable {x : Nat → Eval Value} {s : Store} {r : EStateM.Result Stop Store Value}

/-- There is at most one end. -/
theorem Ends.unique {r' : EStateM.Result Stop Store Value} (h : Ends x s r) (h' : Ends x s r') :
    r = r' := by
  obtain ⟨-, n, hn⟩ := h
  obtain ⟨-, m, hm⟩ := h'
  rw [← hn (max n m) (Nat.le_max_left _ _), hm _ (Nat.le_max_right _ _)]

/-- What a computation does when it does not run out of fuel is its end. -/
theorem Fuelled.ends (hx : Fuelled x) {n : Nat} (h : untraced ((x n).run s) = r)
    (hr : ∀ t, r ≠ .error .outOfFuel t) : Ends x s r := by
  refine ⟨hr, n, fun fuel hfuel => ?_⟩
  rcases hx.of_le hfuel s with heq | ⟨s', hout⟩
  · rw [heq, h]
  · rw [hout] at h
    exact absurd h.symm (hr s')

/-- Of two computations, one after the other, the first comes to an end, and if that is a value, so
does the second. -/
theorem ends_bind {f : Nat → Value → Eval Value} (hx : Fuelled x)
    (hf : ∀ v, Fuelled fun n => f n v) :
    Ends (fun n => x n >>= f n) s r ↔
      (∃ v s', Ends x s (.ok v s') ∧ Ends (fun n => f n v) s' r) ∨
        ∃ e s', Ends x s (.error e s') ∧ r = .error e s' := by
  constructor
  · rintro ⟨hr, n, hn⟩
    have hrun := hn n (Nat.le_refl n)
    cases hxn : (x n).run s with
    | ok v s' =>
        rw [run_bind_ok hxn] at hrun
        exact .inl ⟨v, s', hx.ends (by rw [hxn]; rfl) nofun, (hf v).ends hrun hr⟩
    | error e s' =>
        rw [run_bind_error hxn] at hrun
        subst hrun
        exact .inr ⟨e.untraced, s', hx.ends (by rw [hxn]; rfl) hr, rfl⟩
  · rintro (⟨v, s', ⟨-, n, hn⟩, hr, m, hm⟩ | ⟨e, s', ⟨hr, n, hn⟩, rfl⟩)
    · refine ⟨hr, max n m, fun fuel hfuel => ?_⟩
      have hfirst := hn fuel (Nat.le_trans (Nat.le_max_left n m) hfuel)
      cases hxn : (x fuel).run s with
      | ok v' s'' =>
          rw [hxn] at hfirst
          obtain ⟨rfl, rfl⟩ := EStateM.Result.ok.inj hfirst
          rw [run_bind_ok hxn]
          exact hm fuel (Nat.le_trans (Nat.le_max_right n m) hfuel)
      | error e s'' =>
          rw [hxn] at hfirst
          cases hfirst
    · refine ⟨hr, n, fun fuel hfuel => ?_⟩
      have hfirst := hn fuel hfuel
      cases hxn : (x fuel).run s with
      | ok v' s'' =>
          rw [hxn] at hfirst
          cases hfirst
      | error e' s'' =>
          rw [hxn] at hfirst
          rw [run_bind_error hxn]
          exact hfirst

end Eval
end LittleScheme
