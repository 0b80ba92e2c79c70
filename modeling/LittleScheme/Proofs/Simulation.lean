import LittleScheme.Proofs.Choices
import LittleScheme.Proofs.FollowingCalls
import LittleScheme.Proofs.SpecialForms

/-!
# The machine follows the recursion to every depth

An application is followed through its operator and operands to the call; with the special forms this
covers every list. What one more level of the recursion does is followed when all that it calls is, so
the machine follows the recursion to every depth.
-/
namespace LittleScheme.Machine

open Direct (Careful)
open Value (Related)

variable {limit : Nat}

namespace Working

variable {T K : Ref → Prop} {ρ : Renaming} {s t : Store} {r a q : Ref} {f : Frame} {cs ds : List Ref}
  {n : Nat}

/-! ### Applications -/

theorem length_le (h : Working T K ρ s t r a f q cs ds) : cs.length + 1 ≤ t.pairs.size := by
  rw [← List.length_cons (a := r), h.listed.length_eq]
  exact Store.length_le_of_nodup h.listed.right.1.nodup h.listed.right.2

theorem run_step_application (h : Working T K ρ s t r a f q cs ds)
    (hhead : ∀ k, s.car r ≠ .keyword k) : f.step.run t = (Frame.stepApplication f q).run t := by
  rw [h.run_step, stepHead_eq_application fun k hk => ?_]
  have hrelated := h.listed.head
  rw [hk] at hrelated
  generalize hv : s.car r = v at hrelated
  cases hrelated
  exact hhead k hv

theorem pendingCells_eq (h : Working T K ρ s t r a f q cs ds) :
    Frame.pendingCells t f = (q :: ds).filter fun d => Frame.needsEvaluation t (t.car d) := by
  rw [Frame.pendingCells, h.pushed, h.expr, h.listed.right.cells_eq]
  rfl

/-- An application whose operator and operands are values as they stand. -/
theorem application_settled (h : Working T K ρ s t r a f q cs ds) (hhead : ∀ k, s.car r ≠ .keyword k)
    (hpending : Frame.pendingCells t f = []) (happly : FollowsApply limit n)
    (hcareful : Careful T (n + 1) (.form r a) s) (x : Value) :
    Serves limit T K ρ s t (n + 2) [f] f.destination x t ((Direct.evalForm (n + 1) r a).run s) := by
  have hsteady : List.Forall₂ (Direct.Steady s a) ((r :: cs).map s.car) ((r :: cs).map s.car) := by
    refine List.forall₂_same.2 fun v hv => Direct.steady_settled ?_
    obtain ⟨c, hc, rfl⟩ := List.mem_map.1 hv
    obtain ⟨d, hd, hcd⟩ := exists_of_forall₂_right h.listed.elements.flip hc
    rw [h.pendingCells_eq, List.filter_eq_nil_iff] at hpending
    rw [needsEvaluation_related h.matched.similar hcd]
    simpa using hpending d hd
  rw [Direct.run_evalForm_application hhead]
  rcases Direct.run_evalEach_steady h.listed.left hsteady (n + 1) with hparts | ⟨hparts, hn⟩
  · rw [Eval.run_bind_ok hparts]
    exact happly x h.released h.listed.head h.listed.tail.values
      ⟨⟨q, ds, h.expr, h.expr ▸ h.listed.right, rfl, rfl⟩, hpending⟩ h.destination
      fun _ _ hcall => hcareful (.application hhead hparts hcall)
  · rw [Eval.run_bind_error hparts]
    have hlength := h.length_le
    rw [List.length_cons] at hn
    exact .inr ⟨rfl, .of_le (by simp only; omega)⟩

/-- An application that waits for its operator or an operand. -/
theorem application_suspended (h : Working T K ρ s t r a f q cs ds)
    (hhead : ∀ k, s.car r ≠ .keyword k) (hpending : Frame.pendingCells t f ≠ [])
    (heach : FollowsEach limit (n + 1)) (happly : FollowsApply limit n)
    (hcareful : Careful T (n + 1) (.form r a) s) (x : Value) :
    Serves limit T K ρ s t (n + 2) [f] f.destination x t ((Direct.evalForm (n + 1) r a).run s) := by
  obtain ⟨slots, t', hrun, hcells, hholds, htaken⟩ := exists_slots h.matched
    (List.forall₂_map_left_iff.2 h.listed.elements)
    (by simpa using h.source.code h.matched.text) (fun _ hd => .inr hd) h.scope
  have hstep := h.run_step_application hhead
  rw [Frame.stepApplication, Eval.run_ask_bind, if_neg (by simpa using hpending), h.pendingCells_eq,
    Eval.run_bind_ok hrun] at hstep
  have hnodup : (q :: ds).Nodup := h.listed.right.1.nodup
  have heach := heach x h.listed.left h.source.fixed (htaken.matched h.matched) hholds
    (fun y hy => .inr (hcells ▸ List.mem_map_of_mem hy)) (hcells ▸ hnodup) htaken.nodup
    (fun _ he => htaken.apart h.matched he) fun _ _ hcall => hcareful (.parts hhead hcall)
  have hgrows : t.pairs.size ≤ t'.pairs.size := htaken.keeps.count .pair
  have hlength := h.length_le
  rw [Direct.run_evalForm_application hhead]
  refine .after (htaken.after h.released) (.next (next_suspend hstep) hgrows
    (heach.bind (fun _ he => .inl he) ?_ fun vs s' ρ' y t'' hparts hafter hvs => ?_) ?_)
  · rintro e he hcell
    exact absurd he (h.apart e (hcells ▸ hcell))
  · have hvalues : List.Forall₂ (fun v d => Related ρ' v (t''.car d)) vs (q :: ds) := by
      rw [← hcells]
      exact List.forall₂_map_right_iff.2 hvs
    obtain ⟨v, vs, hv, hargs, rfl⟩ := List.forall₂_cons_right_iff.1 hvalues
    have hlist : t''.ListAt (.pair q) (q :: ds) :=
      h.listed.right.congr (fun e he => (hafter.rests e (.inr he)).trans (Store.cdr_eq_of_pair_eq
        (htaken.keeps.same .pair e (h.listed.right.2 e he))))
        (Nat.le_trans hgrows (hafter.right .pair))
    refine Meets.mono (happly (f := { f with pushed := true }) y
      (hafter.matched.mono fun _ he => .inl he) hv (List.forall₂_map_right_iff.2 hargs)
      ⟨⟨q, ds, h.expr, h.expr ▸ hlist, rfl, rfl⟩, rfl⟩ h.destination
      fun _ _ hcall => hcareful (.application hhead hparts hcall)) (by omega)
  · simp only [List.length_cons]
    omega

/-! ### Every list -/

theorem trying (h : Working T K ρ s t r a f q cs ds) {k : Keyword} (hhead : s.car r = .keyword k) :
    Trying T K ρ s t (s.cdr r) a f q k cs ds :=
  ⟨h.matched, h.listed.tail, fun c hc => (h.text hhead c (by simp [hc])).1,
    h.listed.right.1.nodup, h.head hhead, h.expr, h.scope, h.apart, h.destination⟩

theorem choice (h : Working T K ρ s t r a f q cs ds) (hhead : s.car r = .keyword .cond)
    (hclauses : FollowsClauses limit n) (hcareful : Careful T (n + 1) (.form r a) s) (x : Value) :
    Serves limit T K ρ s t (n + 2) [f] f.destination x t ((Direct.evalForm (n + 1) r a).run s) := by
  have hstep := h.run_step
  rw [h.head hhead, Frame.stepHead, Eval.run_ask_bind, h.pushed, h.listed.right.tail.cells_eq]
    at hstep
  rw [Direct.evalForm, Eval.run_ask_bind, Eval.run_ask_bind, hhead]
  exact Meets.mono (hclauses x (h.trying hhead) rfl hstep fun _ _ hcall =>
    hcareful (.cond hhead hcall)) (by omega)

theorem logical (h : Working T K ρ s t r a f q cs ds) (wanted : Bool)
    (hhead : s.car r = .keyword (logicalKeyword wanted)) (hlogical : FollowsLogical limit n)
    (hcareful : Careful T n (.logical wanted (s.cdr r) a) s) (x : Value) :
    Serves limit T K ρ s t (n + 2) [f] f.destination x t
      ((Direct.evalLogical wanted n (.bool true) (s.cdr r) a).run s) := by
  have hstep := h.run_step
  have hlogicalHead : Frame.stepHead f q (t.cdr q) (.keyword (logicalKeyword wanted)) =
      (do Frame.stepLogical f q wanted f.pushed (← Eval.ask fun s => s.cells (t.cdr q))) := by
    cases wanted <;> rfl
  rw [h.head hhead, hlogicalHead, Eval.run_ask_bind, h.pushed, h.listed.right.tail.cells_eq] at hstep
  cases cs with
  | nil =>
      obtain rfl : ds = [] := by simpa using h.listed.tail.length_eq.symm
      rw [show s.cdr r = .nil from h.listed.left.tail.1.1]
      cases n with
      | zero =>
          rw [Direct.run_evalLogical_zero]
          exact .inr ⟨rfl, .of_le (by omega)⟩
      | succ n =>
          rw [Direct.run_evalLogical_nil]
          refine .value h.released h.destination ?_ hstep
          cases wanted <;> exact .bool _
  | cons c cs =>
      exact Meets.mono (hlogical (.bool true) x (h.trying hhead) (by simp) rfl hstep hcareful)
        (by omega)

theorem sequence (h : Working T K ρ s t r a f q cs ds) (hhead : s.car r = .keyword .begin)
    (hbody : FollowsBody limit n) (hcareful : Careful T (n + 1) (.form r a) s) (x : Value) :
    Serves limit T K ρ s t (n + 2) [f] f.destination x t ((Direct.evalForm (n + 1) r a).run s) := by
  have hstep := h.run_step
  rw [h.head hhead, Frame.stepHead] at hstep
  rw [Direct.evalForm, Eval.run_ask_bind, Eval.run_ask_bind, hhead]
  cases cs with
  | nil =>
      obtain rfl : ds = [] := by simpa using h.listed.tail.length_eq.symm
      rw [show t.cdr q = .nil from h.listed.right.tail.1.1] at hstep
      rw [show s.cdr r = .nil from h.listed.left.tail.1.1]
      cases n with
      | zero =>
          have hrun : (Direct.evalBody 0 .void .nil a).run s = .error .outOfFuel s := by
            simp [Direct.evalBody]
          rw [hrun]
          exact .inr ⟨rfl, .of_le (by omega)⟩
      | succ n =>
          rw [Direct.run_evalBody_nil]
          exact .value h.released h.destination .void hstep
  | cons c cs =>
      obtain ⟨d, ds, -, -, rfl⟩ := List.forall₂_cons_left_iff.1 h.listed.tail.elements
      have hnil : ¬ (t.cdr q).isNil = true := by
        rw [show t.cdr q = .pair d from h.listed.right.tail.1.1]
        simp [Value.isNil]
      rw [if_neg hnil] at hstep
      exact Serves.replace hbody h.released h.destination h.listed.tail (by simp)
        (fun e he => (h.text hhead e (by simp [he])).1) h.scope
        (fun _ _ hcall => hcareful (.begin hhead hcall)) (Nat.le_refl _) hstep (by omega) .void

/-- Every list is followed, if all that the recursion calls for it is. -/
theorem serves (h : Working T K ρ s t r a f q cs ds) (heval : FollowsEval limit n)
    (heach : FollowsEach limit (n + 1)) (hbody : FollowsBody limit n)
    (hlogical : FollowsLogical limit n) (hclauses : FollowsClauses limit n)
    (happly : FollowsApply limit n) (hcareful : Careful T (n + 1) (.form r a) s) (x : Value) :
    Serves limit T K ρ s t (n + 2) [f] f.destination x t ((Direct.evalForm (n + 1) r a).run s) := by
  by_cases hkeyword : ∃ k, s.car r = .keyword k
  · obtain ⟨k, hhead⟩ := hkeyword
    cases k with
    | quote =>
        rw [Direct.evalForm, Eval.run_ask_bind, Eval.run_ask_bind, hhead]
        exact h.quotation hhead x
    | ifThen => exact h.conditional hhead heval hcareful x
    | define => exact h.definition hhead heval hcareful x
    | set => exact h.assignment hhead heval hcareful x
    | lambda =>
        rw [Direct.evalForm, Eval.run_ask_bind, Eval.run_ask_bind, hhead]
        exact h.lambda hhead x
    | letIn => exact h.letIn hhead heval hcareful x
    | cond => exact h.choice hhead hclauses hcareful x
    | and =>
        rw [Direct.evalForm, Eval.run_ask_bind, Eval.run_ask_bind, hhead]
        exact h.logical true hhead hlogical
          (fun _ _ hcall => hcareful (.and hhead hcall)) x
    | or =>
        rw [Direct.evalForm, Eval.run_ask_bind, Eval.run_ask_bind, hhead]
        exact h.logical false hhead hlogical
          (fun _ _ hcall => hcareful (.or hhead hcall)) x
    | begin => exact h.sequence hhead hbody hcareful x
    | otherwise =>
        have hstep := h.run_step
        rw [h.head hhead] at hstep
        rw [Direct.evalForm, Eval.run_ask_bind, Eval.run_ask_bind, hhead]
        exact .fail hstep (.refl ρ) h.released
  · have hhead : ∀ k, s.car r ≠ .keyword k := fun k hk => hkeyword ⟨k, hk⟩
    by_cases hpending : Frame.pendingCells t f = []
    · exact h.application_settled hhead hpending happly hcareful x
    · exact h.application_suspended hhead hpending heach happly hcareful x

end Working

/-! ### Every depth -/

theorem run_step_settled {f : Frame} {t : Store} (h : Frame.needsEvaluation t f.expr = false) :
    f.step.run t = .ok (.value f.expr) t := by
  generalize hexpr : f.expr = v at h
  cases v with
  | symbol name => cases h
  | keyword k => cases h
  | pair r =>
      rw [← hexpr] at h ⊢
      rw [Frame.run_step_pair hexpr]
      rwa [hexpr] at h ⊢
  | _ => rw [Frame.step, hexpr]; rfl

/-- What is no proper list is followed. -/
theorem Ready.serves_atom {T K : Ref → Prop} {ρ : Renaming} {s t : Store} {v : Value} {a : Ref}
    {f : Frame} {n : Nat} (h : Ready T K ρ s t v a f []) (hv : Related ρ v f.expr)
    (hlist : v.isPair = true → s.isList v = false) (x : Value) :
    Serves limit T K ρ s t (n + 1) [f] f.destination x t ((Direct.eval (n + 1) v a).run s) := by
  have hmatched : Matched T K ρ s t := h.matched.mono fun _ hq => .inl hq
  have hneeds := needsEvaluation_related h.matched.similar hv
  cases hcase : Frame.needsEvaluation s v with
  | false =>
      rw [Direct.run_eval_settled hcase]
      exact .value hmatched h.destination hv (run_step_settled (hneeds ▸ hcase))
  | true =>
      generalize hexpr : f.expr = w at hv
      cases hv with
      | symbol name =>
          rw [Direct.eval]
          refine .agree (Eval.lookup_agree h.scope name) hmatched h.destination ?_
          rw [Frame.step, hexpr]
      | keyword k =>
          rw [Direct.eval]
          refine .fail ?_ (.refl ρ) hmatched
          rw [Frame.step, hexpr]
          rfl
      | pair hr =>
          rw [Frame.needsEvaluation, hlist rfl] at hcase
          cases hcase
      | _ => cases hcase

/-- The machine follows the recursion to some depth. -/
structure Follows (limit n : Nat) : Prop where
  eval : FollowsEval limit n
  each : FollowsEach limit n
  body : FollowsBody limit n
  logical : FollowsLogical limit n
  clauses : FollowsClauses limit n
  apply : FollowsApply limit n

theorem followsEval_zero : FollowsEval limit 0 := by
  intro T K ρ s t v a f own x _ _
  rw [Direct.run_eval_zero]
  exact .inr ⟨rfl, .of_le (by omega)⟩

theorem follows_zero : Follows limit 0 where
  eval := followsEval_zero
  each := by
    intro T K ρ s t v a cs slots x _ _ _ _ _ _ _ _ _
    have hrun : (Direct.evalEach 0 v a).run s = .error .outOfFuel s := by simp [Direct.evalEach]
    rw [hrun]
    exact .inr ⟨rfl, .of_le (by omega)⟩
  body := by
    intro T K ρ s t v a d cs gs last x _ _ _ _ _ _ _ _ _
    have hrun : (Direct.evalBody 0 last v a).run s = .error .outOfFuel s := by simp [Direct.evalBody]
    rw [hrun]
    exact .inr ⟨rfl, .of_le (by omega)⟩
  logical := followsLogical_zero
  clauses := followsClauses_zero
  apply := followsApply_zero

theorem followsEval_succ {n : Nat} (hform : ∀ k, n = k + 1 → Follows limit k)
    (heach : FollowsEach limit n) : FollowsEval limit (n + 1) := by
  intro T K ρ s t v a f own x hready hcareful
  have hexpression := hready.expression
  generalize hexpr : f.expr = w at hexpression
  cases hexpression with
  | atom hrelated hcode hlist => exact hready.serves_atom (hexpr ▸ hrelated) hlist x
  | @form r q cs ds hlisted hsource =>
      have hlist := hlisted.left.isList
      have hworking : Working T K ρ s t r a f q cs ds :=
        ⟨hready.matched, hlisted, hsource, hexpr, hready.scope, hready.pushed, hready.apart,
          hready.destination⟩
      have heval : (Direct.eval (n + 1) (.pair r) a).run s = (Direct.evalForm n r a).run s := by
        rw [Direct.eval, Eval.run_ask_bind]
        simp only [hlist, if_true]
      rw [heval]
      cases n with
      | zero =>
          have hrun : (Direct.evalForm 0 r a).run s = .error .outOfFuel s := by
            simp [Direct.evalForm]
          rw [hrun]
          exact .inr ⟨rfl, .of_le (by omega)⟩
      | succ n =>
          have hfollows := hform n rfl
          exact hworking.serves hfollows.eval heach hfollows.body hfollows.logical hfollows.clauses
            hfollows.apply (fun _ _ hcall => hcareful (.list hlist hcall)) x

/-- The recursion is followed to every depth. A list takes two levels, and so does a call that a native
procedure asks for, so the induction reaches back to all levels before. -/
theorem follows (limit n : Nat) : Follows limit n := by
  induction n using Nat.strongRecOn with
  | ind n ih =>
      cases n with
      | zero => exact follows_zero
      | succ n =>
          have hn := ih n (by omega)
          exact {
            eval := followsEval_succ (fun k hk => ih k (by omega)) hn.each
            each := followsEach_succ hn.eval hn.each
            body := followsBody_succ hn.eval hn.body
            logical := followsLogical_succ hn.eval hn.logical
            clauses := followsClauses_succ hn.eval hn.body hn.clauses
            apply := followsApply_succ hn.body fun k hk => (ih k (by omega)).apply }

end LittleScheme.Machine
