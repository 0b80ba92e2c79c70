import LittleScheme.Proofs.Chain
import LittleScheme.Proofs.Forms
import LittleScheme.Proofs.Frames
import LittleScheme.Proofs.Run

/-!
# Tail positions

The evaluation of a frame goes on to a tail expression when all that comes before it is done: the
test of a conditional, the operands and clauses that did not decide, the operands of an application
and the expressions of a body before the last. From then on one frame for the tail expression stands
where the frame stood, with the same destination and above the same frames, so any number of tail
calls leaves the stack as high as it was.
-/
namespace LittleScheme.Machine

variable {limit : Nat}

/-- The frame on top of a stack, the result of the stack so far and the store. -/
structure Point where
  frame : Frame
  result : Value
  store : Store

/-- The point above some frames and suspended stacks. -/
def Point.over (p : Point) (R : List Frame) (B : List Suspended) : Machine × Store :=
  (⟨p.frame :: R, p.result, B⟩, p.store)

/-- Some frames run to their end on a stack of their own. -/
def Done (limit : Nat) (F : List Frame) (v : Value) (s : Store) (w : Value) (s' : Store) : Prop :=
  Reaches limit (⟨F, v, []⟩, s) (⟨[], w, []⟩, s')

theorem Done.reaches {F : List Frame} {v w : Value} {s s' : Store} (h : Done limit F v s w s')
    (R : List Frame) (B : List Suspended) :
    Reaches limit (⟨F ++ R, v, B⟩, s) (⟨R, w, B⟩, s') :=
  Reaches.above h R B

/-- A frame for a proper list with the given head. -/
structure IsForm (f : Frame) (s : Store) (r : Ref) (head : Value) : Prop where
  expr : f.expr = .pair r
  list : s.isList f.expr = true
  head : s.car r = head

theorem IsForm.run_step {f : Frame} {s : Store} {r : Ref} {head : Value}
    (h : IsForm f s r head) : f.step.run s = (Frame.stepHead f r (s.cdr r) head).run s := by
  rw [Frame.run_step_list h.expr h.list, Frame.run_stepForm, h.head]

/-- Operands of `and` or `or` that have a value each, none of which decides the form. They are
dropped from it one by one. -/
inductive Passes (f : Frame) (form : Ref) (wanted : Bool) :
    Bool → List Ref → Store → Store → Prop
  | none {s : Store} : Passes f form wanted false [] s s
  | next {arrived : Bool} {cell : Ref} {rest : List Ref} {v : Value} {s s' : Store}
      (hv : (Frame.settledValue arrived (s.car cell) f.scope).run s = .ok (some v) s)
      (hw : v.isTrue = wanted) (h : Passes f form wanted false rest (s.setCdr form (s.cdr cell)) s') :
      Passes f form wanted arrived (cell :: rest) s s'

/-- Clauses of `cond` whose tests are false. They are dropped from the form one by one. Afterwards
the test of the next clause may have arrived. -/
inductive Skips (f : Frame) (form : Ref) : Bool → List Ref → Store → Bool → Store → Prop
  | none {arrived : Bool} {s : Store} : Skips f form arrived [] s arrived s
  | next {arrived arrived' : Bool} {cell clause : Ref} {rest : List Ref} {v : Value} {s s' : Store}
      (hc : (Form.clause (s.car cell)).run s = .ok clause s)
      (hv : (Frame.settledTest arrived (s.car clause) f.scope).run s = .ok (some v) s)
      (hw : v.isTrue = false)
      (h : Skips f form false rest (s.setCdr form (s.cdr cell)) arrived' s') :
      Skips f form arrived (cell :: rest) s arrived' s'

/-- The expressions of a body before the last have run in frames of their own. All frames of the
body were made before, so the one for the last expression is a copy of it as it was then. -/
inductive LastOf (limit : Nat) (body : Value) (scope : Ref) (d : Option Ref) (v : Value)
    (s : Store) (t : Value) : Point → Prop
  | mk {before : List Value} {w : Value} {s' : Store} (h : s.elements body = before ++ [t])
      (hd : Done limit ((s.copyAll before).1.map (Frame.fresh scope d)) v
        (s.copyAll (before ++ [t])).2 w s') :
      LastOf limit body scope d v s t
        ⟨Frame.fresh scope d ((s.copyAll before).2.copySpine t).1, w, s'⟩

/-- The evaluation of a frame goes on to a tail expression. -/
inductive TailStep (limit : Nat) : Point → Value → Point → Prop
  /-- The branch of a conditional that its test selects. -/
  | branch {f : Frame} {v t : Value} {s : Store} {r : Ref} {parts : Form.Conditional}
      (hf : IsForm f s r (.keyword .ifThen)) (hp : f.pushed = true)
      (hc : (Form.conditional (s.cdr r)).run s = .ok parts s)
      (ht : if (s.car parts.test).isTrue then parts.consequent = t else parts.alternate = some t) :
      TailStep limit ⟨f, v, s⟩ t ⟨f.withExpr (s.copySpine t).1, v, (s.copySpine t).2⟩
  /-- The last operand of `and` or `or`, when those before it do not decide. -/
  | operand {f : Frame} {v : Value} {s s₁ : Store} {r last : Ref} {before : List Ref}
      {wanted : Bool} (hf : IsForm f s r (.keyword (if wanted then .and else .or)))
      (hc : s.cells (s.cdr r) = before ++ [last]) (hb : Passes f r wanted f.pushed before s s₁) :
      TailStep limit ⟨f, v, s⟩ (s₁.car last)
        ⟨f.withExpr (s₁.copySpine (s₁.car last)).1, v, (s₁.copySpine (s₁.car last)).2⟩
  /-- The body of the first clause whose test is true, as one expression: the only one of the body,
  or a `begin` around it. -/
  | clause {f : Frame} {v w t : Value} {s s₁ s₂ : Store} {r cell clause : Ref}
      {before after : List Ref} {arrived : Bool} (hf : IsForm f s r (.keyword .cond))
      (hc : s.cells (s.cdr r) = before ++ cell :: after)
      (hb : Skips f r f.pushed before s arrived s₁)
      (hclause : (Form.clause (s₁.car cell)).run s₁ = .ok clause s₁)
      (hv : (Frame.settledTest arrived (s₁.car clause) f.scope).run s₁ = .ok (some w) s₁)
      (hw : w.isTrue = true) (hbody : (s₁.cdr clause).isNil = false)
      (ht : (Form.sequence (s₁.cdr clause)).run s₁ = .ok t s₂) :
      TailStep limit ⟨f, v, s⟩ t ⟨f.withExpr (s₂.copySpine t).1, v, (s₂.copySpine t).2⟩
  /-- The last expression of `begin`. -/
  | sequence {f : Frame} {v t : Value} {s : Store} {r : Ref} {q : Point}
      (hf : IsForm f s r (.keyword .begin))
      (hb : LastOf limit (s.cdr r) f.scope f.destination v s t q) : TailStep limit ⟨f, v, s⟩ t q
  /-- The application that a `let` stands for: its closure has the body of the `let`. -/
  | letIn {f : Frame} {v t : Value} {s s' : Store} {r : Ref}
      (hf : IsForm f s r (.keyword .letIn))
      (ht : (Form.letApplication (s.cdr r) f.scope).run s = .ok t s') :
      TailStep limit ⟨f, v, s⟩ t ⟨f.withExpr t, v, s'⟩
  /-- The last expression of the body of a closure that is called. -/
  | call {f : Frame} {v t : Value} {s s₁ : Store} {r c scope : Ref} {q : Point}
      (hf : IsForm f s r (.closure c))
      (hp : Frame.pendingCells s f = [])
      (hs : (Eval.enterCall c (s.elements (s.cdr r))).run s = .ok scope s₁)
      (hb : LastOf limit (s₁.closure c).body scope f.destination v s₁ t q) :
      TailStep limit ⟨f, v, s⟩ t q
  /-- First the frame waits for some operands, which run in frames of their own. -/
  | waits {f g : Frame} {v w t : Value} {s s₁ s₂ : Store} {operands : List Frame} {q : Point}
      (hf : f.step.run s = .ok (.suspend g operands) s₁) (hne : operands ≠ [])
      (hd : Done limit operands v s₁ w s₂) (h : TailStep limit ⟨g, w, s₂⟩ t q) :
      TailStep limit ⟨f, v, s⟩ t q

/-! ### One tail step -/

theorem Passes.run_stepLogical {f : Frame} {form : Ref} {wanted arrived : Bool}
    {before : List Ref} {s s' : Store} (h : Passes f form wanted arrived before s s') (last : Ref) :
    (Frame.stepLogical f form wanted arrived (before ++ [last])).run s =
      (Frame.goOn f (s'.car last)).run s' := by
  induction h with
  | none => rfl
  | @next arrived cell rest v s s' hv hw _ ih =>
      rw [List.cons_append, Frame.stepLogical, Eval.run_ask_bind]
      have hrest : (!arrived && (rest ++ [last]).isEmpty) = false := by
        cases rest <;> simp
      rw [hrest]
      simp only [Bool.false_eq_true, if_false]
      rw [Eval.run_bind_ok hv]
      simp only [hw, bne_self_eq_false, Bool.false_eq_true, if_false, Eval.run_update_bind]
      exact ih

theorem Skips.run_stepCond {f : Frame} {form : Ref} {arrived arrived' : Bool} {before : List Ref}
    {s s' : Store} (h : Skips f form arrived before s arrived' s') (after : List Ref) :
    (Frame.stepCond f form arrived (before ++ after)).run s =
      (Frame.stepCond f form arrived' after).run s' := by
  induction h with
  | none => rfl
  | next hc hv hw _ ih =>
      rw [List.cons_append, Frame.stepCond, Eval.run_ask_bind, Eval.run_bind_ok hc,
        Eval.run_ask_bind, Eval.run_ask_bind, Eval.run_bind_ok hv]
      simp only [hw, Bool.false_eq_true, if_false, Eval.run_update_bind]
      exact ih

/-- The first clause whose test is true gives the body to go on with. -/
theorem run_stepCond_true {f : Frame} {form cell clause : Ref} {arrived : Bool} {after : List Ref}
    {s s' : Store} {w t : Value} (hclause : (Form.clause (s.car cell)).run s = .ok clause s)
    (hv : (Frame.settledTest arrived (s.car clause) f.scope).run s = .ok (some w) s)
    (hw : w.isTrue = true) (hbody : (s.cdr clause).isNil = false)
    (ht : (Form.sequence (s.cdr clause)).run s = .ok t s') :
    (Frame.stepCond f form arrived (cell :: after)).run s = (Frame.goOn f t).run s' := by
  rw [Frame.stepCond, Eval.run_ask_bind, Eval.run_bind_ok hclause, Eval.run_ask_bind,
    Eval.run_ask_bind, Eval.run_bind_ok hv]
  simp only [hw, hbody, if_true, Bool.false_eq_true, if_false]
  exact Eval.run_bind_ok ht

/-- The frames of a body run down to the one for its last expression. -/
theorem LastOf.reaches {body : Value} {scope : Ref} {d : Option Ref} {v t : Value} {s : Store}
    {q : Point} (h : LastOf limit body scope d v s t q) (R : List Frame) (B : List Suspended) :
    ∃ frames s₁, (Frame.ofBody body scope d).run s = .ok frames s₁ ∧
      Reaches limit (⟨frames ++ R, v, B⟩, s₁) (q.over R B) := by
  obtain ⟨hbody, hd⟩ := h
  rename_i before w s'
  refine ⟨_, _, Frame.run_ofBody body scope d s, ?_⟩
  rw [hbody]
  have hframes : (s.copyAll (before ++ [t])).1.map (Frame.fresh scope d) =
      (s.copyAll before).1.map (Frame.fresh scope d) ++
        [Frame.fresh scope d ((s.copyAll before).2.copySpine t).1] := by
    rw [Store.copyAll_append, Store.copyAll_cons]
    simp [Store.copyAll]
  rw [hframes, List.append_assoc]
  exact hd.reaches _ B

theorem LastOf.destination_eq {body : Value} {scope : Ref} {d : Option Ref} {v t : Value}
    {s : Store} {q : Point} (h : LastOf limit body scope d v s t q) : q.frame.destination = d := by
  obtain ⟨-, -⟩ := h
  rfl

/-- A step that goes on with another expression leaves one frame in the place of the frame. -/
theorem reaches_of_goOn {f : Frame} {v t : Value} {s s₁ : Store}
    (h : f.step.run s = (Frame.goOn f t).run s₁) (R : List Frame) (B : List Suspended) :
    Reaches limit (Point.over ⟨f, v, s⟩ R B)
      (Point.over ⟨f.withExpr (s₁.copySpine t).1, v, (s₁.copySpine t).2⟩ R B) :=
  (next_suspend (h.trans (Frame.run_goOn f t s₁))).reaches

/-- A step to the frames of a body leads to one frame for its last expression. -/
theorem LastOf.reaches_of_step {f : Frame} {body : Value} {scope : Ref} {v t : Value}
    {s s₁ : Store} {q : Point} (hb : LastOf limit body scope f.destination v s₁ t q)
    (h : f.step.run s = (do return .replace (← Frame.ofBody body scope f.destination) :
      Eval Frame.Transition).run s₁) (R : List Frame) (B : List Suspended) :
    Reaches limit (Point.over ⟨f, v, s⟩ R B) (q.over R B) := by
  obtain ⟨frames, s₂, hframes, hreach⟩ := hb.reaches R B
  rw [Eval.run_bind_ok hframes, Eval.run_pure] at h
  exact (next_replace h).reaches.trans hreach

theorem run_stepCall_closure {f : Frame} {s s₁ : Store} {r c scope : Ref}
    (hr : s.car r = .closure c)
    (hs : (Eval.enterCall c (s.elements (s.cdr r))).run s = .ok scope s₁) :
    (Frame.stepCall f r).run s = (do
      return .replace (← Frame.ofBody (s₁.closure c).body scope f.destination) :
        Eval Frame.Transition).run s₁ := by
  unfold Frame.stepCall
  rw [Eval.run_ask_bind, Eval.run_ask_bind]
  simp only [hr]
  rw [Eval.run_bind_ok hs, Eval.run_ask_bind]

theorem run_stepApplication_call {f : Frame} {s : Store} {r : Ref}
    (hp : Frame.pendingCells s f = []) :
    (Frame.stepApplication f r).run s = (Frame.stepCall f r).run s := by
  unfold Frame.stepApplication
  rw [Eval.run_ask_bind, hp]
  rfl

theorem TailStep.destination_eq {p q : Point} {t : Value} (h : TailStep limit p t q) :
    q.frame.destination = p.frame.destination := by
  induction h with
  | branch | operand | clause | letIn => rfl
  | sequence _ hb => exact hb.destination_eq
  | call _ _ _ hb => exact hb.destination_eq
  | waits hf hne _ _ ih =>
      rw [ih, Frame.eq_of_step_suspend hf hne]

/-- A tail step leaves exactly one frame where one frame was. -/
theorem TailStep.reaches {p q : Point} {t : Value} (h : TailStep limit p t q) (R : List Frame)
    (B : List Suspended) : Reaches limit (p.over R B) (q.over R B) := by
  induction h with
  | @branch f v t s r parts hf hp hc ht =>
      refine reaches_of_goOn ?_ R B
      rw [hf.run_step, Frame.stepHead, Frame.stepConditional, Eval.run_bind_ok hc,
        Eval.run_ask_bind]
      simp only [hp, Bool.not_true, Bool.false_eq_true, if_false]
      split at ht
      · rename_i htest
        simp only [htest, if_true, ht]
      · rename_i htest
        simp only [htest, Bool.false_eq_true, if_false, ht]
  | @operand f v s s₁ r last before wanted hf hc hb =>
      refine reaches_of_goOn ?_ R B
      rw [hf.run_step]
      cases wanted <;>
      · simp only [Frame.stepHead, if_true, Bool.false_eq_true, if_false, Eval.run_ask_bind]
        rw [hc, hb.run_stepLogical]
  | @clause f v w t s s₁ s₂ r cell clause before after arrived hf hc hb hclause hv hw hbody ht =>
      refine reaches_of_goOn ?_ R B
      rw [hf.run_step, Frame.stepHead, Eval.run_ask_bind, hc, hb.run_stepCond,
        run_stepCond_true hclause hv hw hbody ht]
  | @sequence f v t s r q hf hb =>
      refine hb.reaches_of_step ?_ R B
      have hnil : (s.cdr r).isNil = false := by
        obtain ⟨hbody, -⟩ := hb
        cases hcdr : s.cdr r with
        | nil => simp [hcdr, (Store.listAt_nil s).elements_eq] at hbody
        | _ => rfl
      rw [hf.run_step, Frame.stepHead]
      simp only [hnil, Bool.false_eq_true, if_false]
  | @letIn f v t s s' r hf ht =>
      have hstep : f.step.run s = .ok (.suspend (f.withExpr t) []) s' := by
        rw [hf.run_step, Frame.stepHead, Eval.run_bind_ok ht]
        rfl
      exact (next_suspend hstep).reaches
  | @call f v t s s₁ r c scope q hf hp hs hb =>
      refine hb.reaches_of_step ?_ R B
      rw [hf.run_step, Frame.stepHead, run_stepApplication_call hp, run_stepCall_closure hf.head hs]
      all_goals simp
  | @waits f g v w t s s₁ s₂ operands q hf _ hd _ ih =>
      exact ((next_suspend hf).reaches.trans (hd.reaches (g :: R) B)).trans ih

/-! ### Every way to go on -/

theorem passes_of_goOn {f g : Frame} {form : Ref} {wanted arrived : Bool} {cells : List Ref}
    {s s' : Store}
    (h : (Frame.stepLogical f form wanted arrived cells).run s = .ok (.suspend g []) s') :
    ∃ before last s₁, cells = before ++ [last] ∧ Passes f form wanted arrived before s s₁ ∧
      (Frame.goOn f (s₁.car last)).run s₁ = .ok (.suspend g []) s' := by
  induction cells generalizing arrived s with
  | nil => simp [Frame.stepLogical] at h
  | cons cell rest ih =>
      rw [Frame.stepLogical, Eval.run_ask_bind] at h
      split at h
      · rename_i hlast
        simp only [Bool.and_eq_true, Bool.not_eq_true', List.isEmpty_iff] at hlast
        obtain ⟨rfl, rfl⟩ := hlast
        exact ⟨[], cell, s, rfl, .none, h⟩
      · obtain ⟨value, s₁, hvalue, h⟩ := Eval.run_bind_eq_ok.1 h
        obtain rfl := (Frame.checks_settledValue _ _ _).readOnly.eq_of_ok hvalue
        cases value with
        | none => simp [Frame.run_await] at h
        | some v =>
            simp only at h
            split at h
            · simp at h
            · rename_i hw
              rw [Eval.run_update_bind] at h
              obtain ⟨before, last, s₂, rfl, hpasses, hgo⟩ := ih h
              exact ⟨cell :: before, last, s₂, rfl, .next hvalue (by simpa using hw) hpasses, hgo⟩

theorem skips_of_goOn {f g : Frame} {form : Ref} {arrived : Bool} {cells : List Ref}
    {s s' : Store} (h : (Frame.stepCond f form arrived cells).run s = .ok (.suspend g []) s') :
    ∃ before cell after arrived' clause s₁ s₂ w t, cells = before ++ cell :: after ∧
      Skips f form arrived before s arrived' s₁ ∧
      (Form.clause (s₁.car cell)).run s₁ = .ok clause s₁ ∧
      (Frame.settledTest arrived' (s₁.car clause) f.scope).run s₁ = .ok (some w) s₁ ∧
      w.isTrue = true ∧ (s₁.cdr clause).isNil = false ∧
      (Form.sequence (s₁.cdr clause)).run s₁ = .ok t s₂ ∧
      (Frame.goOn f t).run s₂ = .ok (.suspend g []) s' := by
  induction cells generalizing arrived s with
  | nil => simp [Frame.stepCond] at h
  | cons cell rest ih =>
      rw [Frame.stepCond, Eval.run_ask_bind] at h
      obtain ⟨clause, s₁, hclause, h₁⟩ := Eval.run_bind_eq_ok.1 h
      obtain rfl := (Form.readOnly_clause _).eq_of_ok hclause
      rw [Eval.run_ask_bind, Eval.run_ask_bind] at h₁
      obtain ⟨value, s₂, hvalue, h₂⟩ := Eval.run_bind_eq_ok.1 h₁
      obtain rfl := (Frame.checks_settledTest _ _ _).readOnly.eq_of_ok hvalue
      cases value with
      | none => simp [Frame.run_await] at h₂
      | some w =>
          simp only at h₂
          split at h₂
          · rename_i hw
            split at h₂
            · simp at h₂
            · rename_i hbody
              obtain ⟨t, s₃, ht, hgo⟩ := Eval.run_bind_eq_ok.1 h₂
              exact ⟨[], cell, rest, arrived, clause, _, s₃, w, t, rfl, .none, hclause, hvalue, hw,
                by simpa using hbody, ht, hgo⟩
          · rename_i hw
            rw [Eval.run_update_bind] at h₂
            obtain ⟨before, cell', after, arrived', clause', s₃, s₄, w', t, rfl, hskips, hrest⟩ :=
              ih h₂
            exact ⟨cell :: before, cell', after, arrived', clause', s₃, s₄, w', t, rfl,
              .next hclause hvalue (by simpa using hw) hskips, hrest⟩

/-- What a step makes of the place of its frame. -/
inductive Move where
  /-- The frame is gone. -/
  | leaves
  /-- The frame stays below others. -/
  | waits
  /-- The frame stays on top, with another expression. -/
  | goesOn
  /-- Other frames take the place. -/
  | replaced
  deriving DecidableEq

/-- The kind of a transition. -/
def move : Frame.Transition → Move
  | .value _ | .call _ _ => .leaves
  | .suspend _ [] => .goesOn
  | .suspend _ _ => .waits
  | .replace _ => .replaced

section
open Eval

theorem stepApplication_move (f : Frame) (r : Ref) :
    Returns (Frame.stepApplication f r) fun t => move t ≠ .goesOn := by
  refine returns_bind fun pending => ?_
  split
  · refine returns_bind fun args => returns_bind fun operator => ?_
    split
    · refine returns_bind fun reply => ?_
      split <;> exact returns_pure (by simp [move])
    · exact returns_bind fun _ => returns_bind fun _ => returns_bind fun _ =>
        returns_pure (by simp [move])
    · exact returns_bind fun _ => returns_raise _
  · rename_i hpending
    refine (returns_length_mapM _ pending).bind fun frames hlength => returns_pure ?_
    cases frames with
    | nil => exact absurd (List.isEmpty_iff_length_eq_zero.2 hlength.symm) hpending
    | cons g frames => simp [move]

theorem stepConditional_move (f : Frame) (operands : Value) :
    Returns (Frame.stepConditional f operands) fun t => move t ≠ .replaced := by
  refine returns_bind fun parts => returns_bind fun test => ?_
  split
  · exact returns_bind fun _ => returns_pure (by simp [move])
  · split
    · exact returns_bind fun _ => returns_pure (by simp [move])
    · split
      · exact returns_bind fun _ => returns_pure (by simp [move])
      · exact returns_pure (by simp [move])

theorem stepDefinition_move (f : Frame) (operands : Value) :
    Returns (Frame.stepDefinition f operands) fun t => move t = .leaves ∨ move t = .waits := by
  refine returns_bind fun d => ?_
  split
  · exact returns_bind fun _ => returns_pure (.inl rfl)
  · refine returns_bind fun v => ?_
    split
    · exact returns_bind fun _ => returns_pure (.inl rfl)
    · exact returns_bind fun _ => returns_pure (.inr rfl)

theorem stepAssignment_move (f : Frame) (operands : Value) :
    Returns (Frame.stepAssignment f operands) fun t => move t = .leaves ∨ move t = .waits := by
  refine returns_bind fun parts => returns_bind fun v => ?_
  split
  · exact returns_bind fun _ => returns_pure (.inl rfl)
  · exact returns_bind fun _ => returns_pure (.inr rfl)

theorem stepLogical_move (f : Frame) (form : Ref) (wanted arrived : Bool) (cells : List Ref) :
    Returns (Frame.stepLogical f form wanted arrived cells) fun t => move t ≠ .replaced := by
  induction cells generalizing arrived with
  | nil => exact returns_pure (by simp [move])
  | cons cell rest ih =>
      refine returns_bind fun operand => ?_
      split
      · exact returns_bind fun _ => returns_pure (by simp [move])
      · refine returns_bind fun value => ?_
        split
        · exact returns_bind fun _ => returns_pure (by simp [move])
        · split
          · exact returns_pure (by simp [move])
          · exact returns_bind fun _ => ih false

theorem stepCond_move (f : Frame) (form : Ref) (arrived : Bool) (cells : List Ref) :
    Returns (Frame.stepCond f form arrived cells) fun t => move t ≠ .replaced := by
  induction cells generalizing arrived with
  | nil => exact returns_pure (by simp [move])
  | cons cell rest ih =>
      refine returns_bind fun v => returns_bind fun clause => returns_bind fun test =>
        returns_bind fun body => returns_bind fun value => ?_
      split
      · exact returns_bind fun _ => returns_bind fun _ => returns_bind fun _ =>
          returns_pure (by simp [move])
      · split
        · split
          · exact returns_pure (by simp [move])
          · exact returns_bind fun _ => returns_bind fun _ => returns_pure (by simp [move])
        · exact returns_bind fun _ => ih false

/-- A frame goes on by itself only in the forms that do so, and only `begin` replaces its frame. -/
theorem stepHead_move (f : Frame) (r : Ref) (operands : Value) (k : Keyword) :
    Returns (Frame.stepHead f r operands (.keyword k)) fun t =>
      (move t = .goesOn → k ∈ [.ifThen, .and, .or, .cond, .letIn]) ∧
        (move t = .replaced → k = .begin) := by
  intro s t s' h
  cases k with
  | ifThen => exact ⟨by simp, fun ht => absurd ht (stepConditional_move f operands h)⟩
  | and => exact ⟨by simp, fun ht => absurd ht (stepLogical_move f r true _ _ h)⟩
  | or => exact ⟨by simp, fun ht => absurd ht (stepLogical_move f r false _ _ h)⟩
  | cond => exact ⟨by simp, fun ht => absurd ht (stepCond_move f r _ _ h)⟩
  | define => rcases stepDefinition_move f operands h with ht | ht <;> simp [ht]
  | set => rcases stepAssignment_move f operands h with ht | ht <;> simp [ht]
  | quote | lambda | letIn =>
      obtain ⟨v, s₁, -, hv⟩ := run_bind_eq_ok.1 h
      cases hv
      simp [move]
  | begin =>
      rw [Frame.stepHead] at h
      split at h
      · cases h
        simp [move]
      · obtain ⟨frames, s₁, -, hv⟩ := run_bind_eq_ok.1 h
        cases hv
        simp [move]
  | otherwise => cases h

end

/-- A step that is more than a value is that of a proper list. -/
theorem isList_of_move {f : Frame} {t : Frame.Transition} {s s' : Store}
    (h : f.step.run s = .ok t s') (ht : move t ≠ .leaves) :
    ∃ r, f.expr = .pair r ∧ s.isList f.expr = true ∧
      (Frame.stepHead f r (s.cdr r) (s.car r)).run s = .ok t s' := by
  cases hf : f.expr with
  | pair r =>
      cases hl : s.isList f.expr with
      | false =>
          rw [Frame.run_step_pair hf hl] at h
          cases h
          simp [move] at ht
      | true =>
          rw [Frame.run_step_list hf hl, Frame.run_stepForm] at h
          exact ⟨r, rfl, hf ▸ hl, h⟩
  | symbol name =>
      rw [Frame.step] at h
      simp only [hf] at h
      obtain ⟨v, s₁, -, hv⟩ := Eval.run_bind_eq_ok.1 h
      cases hv
      simp [move] at ht
  | keyword k => simp [Frame.step, hf, Eval.malformed] at h
  | _ =>
      simp only [Frame.step, hf, Eval.run_pure, EStateM.Result.ok.injEq] at h
      simp [← h.1, move] at ht

/-- A head that is no keyword makes the list an application. -/
theorem stepHead_eq_application {f : Frame} {r : Ref} {operands head : Value}
    (h : ∀ k, head ≠ .keyword k) : Frame.stepHead f r operands head = Frame.stepApplication f r := by
  cases head with
  | keyword k => exact absurd rfl (h k)
  | _ => rfl

/-- A frame that goes on by itself is that of a form with a tail expression. -/
theorem isForm_of_goesOn {f g : Frame} {s s' : Store}
    (h : f.step.run s = .ok (.suspend g []) s') :
    ∃ r k, IsForm f s r (.keyword k) ∧ k ∈ [.ifThen, .and, .or, .cond, .letIn] ∧
      (Frame.stepHead f r (s.cdr r) (.keyword k)).run s = .ok (.suspend g []) s' := by
  obtain ⟨r, hf, hl, hstep⟩ := isList_of_move h (by simp [move])
  by_cases hr : ∃ k, s.car r = .keyword k
  · obtain ⟨k, hr⟩ := hr
    rw [hr] at hstep
    exact ⟨r, k, ⟨hf, hl, hr⟩, (stepHead_move f r _ k hstep).1 rfl, hstep⟩
  · rw [stepHead_eq_application fun k hk => hr ⟨k, hk⟩] at hstep
    exact absurd rfl (stepApplication_move f r hstep)

theorem branch_of_goOn {f g : Frame} {operands : Value} {s s' : Store}
    (h : (Frame.stepConditional f operands).run s = .ok (.suspend g []) s') :
    f.pushed = true ∧ ∃ parts t, (Form.conditional operands).run s = .ok parts s ∧
      (if (s.car parts.test).isTrue then parts.consequent = t else parts.alternate = some t) ∧
      (Frame.goOn f t).run s = .ok (.suspend g []) s' := by
  obtain ⟨parts, s₁, hparts, h₁⟩ := Eval.run_bind_eq_ok.1 h
  obtain rfl := (Form.readOnly_conditional _).eq_of_ok hparts
  rw [Eval.run_ask_bind] at h₁
  split at h₁
  · simp [Frame.run_await] at h₁
  · rename_i hp
    refine ⟨by simpa using hp, ?_⟩
    split at h₁
    · rename_i htest
      exact ⟨parts, parts.consequent, hparts, by simp [htest], h₁⟩
    · rename_i htest
      split at h₁
      · rename_i t ht
        exact ⟨parts, t, hparts, by simp [htest, ht], h₁⟩
      · simp at h₁

/-- A frame that goes on by itself goes on to a tail expression. -/
theorem tailStep_of_goesOn {f g : Frame} {s s' : Store}
    (h : f.step.run s = .ok (.suspend g []) s') (v : Value) :
    ∃ t, TailStep limit ⟨f, v, s⟩ t ⟨g, v, s'⟩ := by
  have hgoOn : ∀ {t : Value} {s₁ : Store}, (Frame.goOn f t).run s₁ = .ok (.suspend g []) s' →
      g = f.withExpr (s₁.copySpine t).1 ∧ s' = (s₁.copySpine t).2 := by
    intro t s₁ hgo
    rw [Frame.run_goOn] at hgo
    simp only [EStateM.Result.ok.injEq, Frame.Transition.suspend.injEq, and_true] at hgo
    exact ⟨hgo.1.symm, hgo.2.symm⟩
  obtain ⟨r, k, hform, hk, h₁⟩ := isForm_of_goesOn h
  simp only [List.mem_cons, List.not_mem_nil, or_false] at hk
  rcases hk with rfl | rfl | rfl | rfl | rfl
  · obtain ⟨hp, parts, t, hparts, ht, hgo⟩ := branch_of_goOn h₁
    obtain ⟨rfl, rfl⟩ := hgoOn hgo
    exact ⟨t, .branch hform hp hparts ht⟩
  · obtain ⟨before, last, s₁, hcells, hpasses, hgo⟩ := passes_of_goOn h₁
    obtain ⟨rfl, rfl⟩ := hgoOn hgo
    have hand : IsForm f s r (.keyword (if true then .and else .or)) := hform
    exact ⟨_, .operand hand hcells hpasses⟩
  · obtain ⟨before, last, s₁, hcells, hpasses, hgo⟩ := passes_of_goOn h₁
    obtain ⟨rfl, rfl⟩ := hgoOn hgo
    have hor : IsForm f s r (.keyword (if false then .and else .or)) := hform
    exact ⟨_, .operand hor hcells hpasses⟩
  · obtain ⟨before, cell, after, arrived, clause, s₁, s₂, w, t, hcells, hskips, hclause, hv, hw,
      hbody, ht, hgo⟩ := skips_of_goOn h₁
    obtain ⟨rfl, rfl⟩ := hgoOn hgo
    exact ⟨t, .clause hform hcells hskips hclause hv hw hbody ht⟩
  · obtain ⟨t, s₁, ht, hpure⟩ := Eval.run_bind_eq_ok.1 h₁
    simp only [Eval.run_pure, EStateM.Result.ok.injEq, Frame.Transition.suspend.injEq,
      and_true] at hpure
    obtain ⟨rfl, rfl⟩ := hpure
    exact ⟨t, .letIn hform ht⟩

/-- A frame is replaced by the frames of a body, whose last expression is then in tail position. -/
theorem tailStep_of_replace {f : Frame} {frames : List Frame} {s s' : Store}
    (h : f.step.run s = .ok (.replace frames) s') :
    ∃ body scope s₁, (Frame.ofBody body scope f.destination).run s₁ = .ok frames s' ∧
      ∀ v t q, LastOf limit body scope f.destination v s₁ t q → TailStep limit ⟨f, v, s⟩ t q := by
  obtain ⟨r, hf, hl, hstep⟩ := isList_of_move h (by simp [move])
  by_cases hr : ∃ k, s.car r = .keyword k
  · obtain ⟨k, hr⟩ := hr
    rw [hr] at hstep
    obtain rfl := (stepHead_move f r _ k hstep).2 rfl
    rw [Frame.stepHead] at hstep
    split at hstep
    · cases hstep
    · obtain ⟨frames, s₁, hframes, hpure⟩ := Eval.run_bind_eq_ok.1 hstep
      cases hpure
      exact ⟨s.cdr r, f.scope, s, hframes, fun v t q hb => .sequence ⟨hf, hl, hr⟩ hb⟩
  · rw [stepHead_eq_application fun k hk => hr ⟨k, hk⟩] at hstep
    rw [Frame.stepApplication, Eval.run_ask_bind] at hstep
    split at hstep
    · rename_i hpending
      rw [Frame.stepCall, Eval.run_ask_bind, Eval.run_ask_bind] at hstep
      split at hstep
      · obtain ⟨reply, s₁, -, hreply⟩ := Eval.run_bind_eq_ok.1 hstep
        cases reply <;> cases hreply
      · rename_i c hc
        obtain ⟨scope, s₁, hscope, hbody⟩ := Eval.run_bind_eq_ok.1 hstep
        rw [Eval.run_ask_bind] at hbody
        obtain ⟨frames, s₂, hframes, hpure⟩ := Eval.run_bind_eq_ok.1 hbody
        cases hpure
        exact ⟨_, scope, s₁, hframes, fun v t q hb =>
          .call ⟨hf, hl, hc⟩ (List.isEmpty_iff.1 hpending) hscope hb⟩
      · cases hstep
    · obtain ⟨frames, s₁, -, hpure⟩ := Eval.run_bind_eq_ok.1 hstep
      cases hpure

/-- The evaluation of a frame ends in the frame itself: with a value, a call on a stack of its own, or
a body without expressions. -/
inductive Answers (limit : Nat) : Point → Prop
  | leaves {f : Frame} {v : Value} {t : Frame.Transition} {s s' : Store}
      (h : f.step.run s = .ok t s') (ht : move t = .leaves) : Answers limit ⟨f, v, s⟩
  | empty {f : Frame} {v : Value} {s s' : Store} (h : f.step.run s = .ok (.replace []) s') :
      Answers limit ⟨f, v, s⟩
  | waits {f g : Frame} {v w : Value} {s s₁ s₂ : Store} {operands : List Frame}
      (hf : f.step.run s = .ok (.suspend g operands) s₁) (hne : operands ≠ [])
      (hd : Done limit operands v s₁ w s₂) (h : Answers limit ⟨g, w, s₂⟩) : Answers limit ⟨f, v, s⟩

/-- A run to the end of a stack goes through every frame of it. -/
theorem done_of_append {n : Nat} {F : List Frame} {g : Frame} {v w : Value} {s s' : Store}
    (h : Steps limit n (⟨F ++ [g], v, []⟩, s) (⟨[], w, []⟩, s')) :
    ∃ j w₁ s₁, j ≤ n ∧ Done limit F v s w₁ s₁ ∧
      Steps limit j (⟨[g], w₁, []⟩, s₁) (⟨[], w, []⟩, s') := by
  have habove : Steps limit n (above ⟨F, v, []⟩ [g] [], s) (⟨[], w, []⟩, s') := h
  rcases habove.split_above with ⟨⟨frames, v', suspended⟩, -, heq⟩ | ⟨i, j, w₁, s₁, rfl, hi, hj⟩
  · simp only [above, Machine.mk.injEq] at heq
    cases suspended with
    | nil => simp at heq
    | cons outer rest => cases rest <;> simp [sink] at heq
  · exact ⟨j, w₁, s₁, by omega, hi.reaches, hj⟩

theorem lastOf_of_done {n : Nat} {body : Value} {scope : Ref} {d : Option Ref} {v w : Value}
    {s s₁ s' : Store} {frames : List Frame} (hb : (Frame.ofBody body scope d).run s = .ok frames s₁)
    (hne : frames ≠ []) (h : Steps limit n (⟨frames, v, []⟩, s₁) (⟨[], w, []⟩, s')) :
    ∃ t q, LastOf limit body scope d v s t q ∧ Done limit [q.frame] q.result q.store w s' := by
  rw [Frame.run_ofBody] at hb
  obtain ⟨rfl, rfl⟩ := EStateM.Result.ok.inj hb
  rcases List.eq_nil_or_concat (s.elements body) with hnil | ⟨before, t, hbody⟩
  · simp [hnil, Store.copyAll] at hne
  · rw [List.concat_eq_append] at hbody
    have hframes : (s.copyAll (before ++ [t])).1.map (Frame.fresh scope d) =
        (s.copyAll before).1.map (Frame.fresh scope d) ++
          [Frame.fresh scope d ((s.copyAll before).2.copySpine t).1] := by
      rw [Store.copyAll_append, Store.copyAll_cons]
      simp [Store.copyAll]
    rw [hbody, hframes] at h
    obtain ⟨j, w₁, s₂, -, hdone, hlast⟩ := done_of_append h
    exact ⟨t, _, .mk hbody hdone, hlast.reaches⟩

/-- An evaluation that comes to its end ends in its own frame or goes on to a tail expression. -/
theorem answers_or_tailStep {n : Nat} {f : Frame} {v w : Value} {s s' : Store}
    (h : Steps limit n (⟨[f], v, []⟩, s) (⟨[], w, []⟩, s')) :
    Answers limit ⟨f, v, s⟩ ∨ ∃ t q, TailStep limit ⟨f, v, s⟩ t q ∧
      Done limit [q.frame] q.result q.store w s' := by
  induction n using Nat.strong_induction_on generalizing f v s with
  | _ n ih =>
    cases n with
    | zero => cases h
    | succ n =>
        obtain ⟨⟨m, s₂⟩, hnext, hrest⟩ := h
        obtain ⟨t, s₁, hstep, hadvance⟩ := next_cons_iff.1 hnext
        cases t with
        | value x => exact .inl (.leaves hstep rfl)
        | call procedure args => exact .inl (.leaves hstep rfl)
        | suspend g operands =>
            cases hadvance
            by_cases hne : operands = []
            · subst hne
              obtain ⟨t, ht⟩ := @tailStep_of_goesOn limit _ _ _ _ hstep v
              exact .inr ⟨t, _, ht, hrest.reaches⟩
            · obtain ⟨j, w₁, s₃, hj, hdone, hlast⟩ := done_of_append hrest
              rcases ih j (by omega) hlast with hanswers | ⟨t, q, htail, hq⟩
              · exact .inl (.waits hstep hne hdone hanswers)
              · exact .inr ⟨t, q, .waits hstep hne hdone htail, hq⟩
        | replace frames =>
            cases hadvance
            simp only [List.append_nil] at hrest
            by_cases hne : frames = []
            · subst hne
              exact .inl (.empty hstep)
            · obtain ⟨body, scope, s₃, hbody, htail⟩ := @tailStep_of_replace limit _ _ _ _ hstep
              obtain ⟨t, q, hlast, hq⟩ := lastOf_of_done hbody hne hrest
              exact .inr ⟨t, q, htail v t q hlast, hq⟩

/-! ### Any number of tail steps -/

/-- So many tail steps, one after the other. -/
inductive TailRun (limit : Nat) : Nat → Point → Point → Prop
  | none {p : Point} : TailRun limit 0 p p
  | next {n : Nat} {p q p' : Point} {t : Value} (h : TailStep limit p t q)
      (hrest : TailRun limit n q p') : TailRun limit (n + 1) p p'

theorem TailRun.reaches {n : Nat} {p q : Point} (h : TailRun limit n p q) (R : List Frame)
    (B : List Suspended) : Reaches limit (p.over R B) (q.over R B) := by
  induction h with
  | none => exact .refl _
  | next hstep _ ih => exact (hstep.reaches R B).trans ih

theorem TailRun.destination_eq {n : Nat} {p q : Point} (h : TailRun limit n p q) :
    q.frame.destination = p.frame.destination := by
  induction h with
  | none => rfl
  | next hstep _ ih => rw [ih, hstep.destination_eq]

/-- The frame of a tail step is one for the tail expression. -/
theorem TailStep.expr_eq {p q : Point} {t : Value} (h : TailStep limit p t q) :
    (∃ s : Store, q.frame.expr = (s.copySpine t).1) ∨ q.frame.expr = t := by
  induction h with
  | @branch f v t s => exact .inl ⟨s, rfl⟩
  | @operand f v s s₁ => exact .inl ⟨s₁, rfl⟩
  | @clause f v w t s s₁ s₂ => exact .inl ⟨s₂, rfl⟩
  | sequence _ hb =>
      obtain ⟨-, -⟩ := hb
      exact .inl ⟨_, rfl⟩
  | letIn => exact .inr rfl
  | call _ _ _ hb =>
      obtain ⟨-, -⟩ := hb
      exact .inl ⟨_, rfl⟩
  | waits _ _ _ _ ih => exact ih

/-- Whenever the evaluation of the top frame goes on to a tail expression, the machine comes to a
stack with exactly one frame for it in the place of the frame: with the same destination, above the
same frames. So any number of tail steps leaves as many frames below as there were. Every evaluation
that comes to its end ends in its own frame or goes on in this way. -/
theorem tail_positions_keep_stack (limit : Nat) :
    (∀ (p q : Point) (t : Value), TailStep limit p t q →
      q.frame.destination = p.frame.destination ∧
      ((∃ s : Store, q.frame.expr = (s.copySpine t).1) ∨ q.frame.expr = t) ∧
      ∀ (R : List Frame) (B : List Suspended), Reaches limit (p.over R B) (q.over R B)) ∧
    (∀ (n : Nat) (p q : Point), TailRun limit n p q →
      q.frame.destination = p.frame.destination ∧
      ∀ (R : List Frame) (B : List Suspended), Reaches limit (p.over R B) (q.over R B)) ∧
    (∀ (p : Point) (w : Value) (s : Store), Done limit [p.frame] p.result p.store w s →
      Answers limit p ∨
        ∃ t q, TailStep limit p t q ∧ Done limit [q.frame] q.result q.store w s) := by
  refine ⟨fun p q t h => ⟨h.destination_eq, h.expr_eq, h.reaches⟩,
    fun n p q h => ⟨h.destination_eq, h.reaches⟩, fun p w s h => ?_⟩
  obtain ⟨n, hn⟩ := Reaches.steps h
  exact answers_or_tailStep hn

/-- In `(if #t (begin 1 2))` two tail steps lead to a frame for `2` above the frame below. -/
theorem tail_positions_keep_stack_begin :
    let form : Array Pair := #[⟨.integer 2, .nil⟩, ⟨.integer 1, .pair 0⟩, ⟨.keyword .begin, .pair 1⟩,
      ⟨.pair 2, .nil⟩, ⟨.bool true, .pair 3⟩, ⟨.keyword .ifThen, .pair 4⟩]
    let copy : Array Pair := #[⟨.integer 2, .nil⟩, ⟨.integer 1, .pair 6⟩, ⟨.keyword .begin, .pair 7⟩]
    Reaches 16
      (Point.over ⟨Frame.fresh 0 none (.pair 5), .void, { pairs := form }⟩
        [Frame.fresh 0 none .eof] [])
      (Point.over ⟨Frame.fresh 0 none (.integer 2), .integer 1, { pairs := form ++ copy }⟩
        [Frame.fresh 0 none .eof] []) := by
  intro form copy
  have hstep : (Frame.fresh 0 none (.pair 5)).step.run { pairs := form } = .ok
      (.suspend ⟨.pair 5, 0, true, none⟩ [Frame.fresh 0 (some 4) (.bool true)])
      { pairs := form } := rfl
  have hdone : Done 16 [Frame.fresh 0 (some 4) (.bool true)] .void { pairs := form } .void
      { pairs := form } := .single rfl
  have hbranch : TailStep 16 ⟨⟨.pair 5, 0, true, none⟩, .void, { pairs := form }⟩ (.pair 2)
      ⟨Frame.fresh 0 none (.pair 8), .void, { pairs := form ++ copy }⟩ :=
    .branch ⟨rfl, rfl, rfl⟩ rfl rfl rfl
  have hbody : Store.elements { pairs := form ++ copy } (.pair 7) =
      [.integer 1] ++ [.integer 2] := rfl
  have hlast : TailStep 16 ⟨Frame.fresh 0 none (.pair 8), .void, { pairs := form ++ copy }⟩
      (.integer 2) ⟨Frame.fresh 0 none (.integer 2), .integer 1, { pairs := form ++ copy }⟩ :=
    .sequence ⟨rfl, rfl, rfl⟩ (.mk hbody (.single rfl))
  have hrun := TailRun.next (.waits hstep (by simp) hdone hbranch) (.next hlast .none)
  exact ((tail_positions_keep_stack 16).2.1 2 _ _ hrun).2 _ _

end LittleScheme.Machine
