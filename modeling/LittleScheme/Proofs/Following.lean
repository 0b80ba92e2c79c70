import LittleScheme.Proofs.Pending
import LittleScheme.Proofs.Quotations

/-!
# The machine follows the recursion

What it means that the machine follows the recursive evaluator to some depth, and how a frame goes on
from there: it waits for the value of an operand, goes on with a tail expression or gives way to the
frames of a body. Bodies and operands are followed one expression after the other.
-/
namespace LittleScheme

namespace Direct

theorem run_evalEach_nil (n : Nat) (a : Ref) (s : Store) :
    (evalEach (n + 1) .nil a).run s = .ok [] s := by simp [evalEach]

theorem run_evalBody_nil (n : Nat) (last : Value) (a : Ref) (s : Store) :
    (evalBody (n + 1) last .nil a).run s = .ok last s := by simp [evalBody]

theorem run_evalAnd_nil (n : Nat) (last : Value) (a : Ref) (s : Store) :
    (evalAnd (n + 1) last .nil a).run s = .ok last s := by simp [evalAnd]

theorem run_evalOr_nil (n : Nat) (a : Ref) (s : Store) :
    (evalOr (n + 1) .nil a).run s = .ok (.bool false) s := by simp [evalOr]

theorem run_evalClauses_nil (n : Nat) (a : Ref) (s : Store) :
    (evalClauses (n + 1) .nil a).run s = .ok (.bool false) s := by simp [evalClauses]

end Direct

namespace Machine

open Direct (Careful)
open Value (Related)

variable {limit : Nat}

/-- The machine meets an outcome of the recursion with some frames that deliver to one place. -/
abbrev Serves (limit : Nat) (T K : Ref → Prop) (ρ : Renaming) (s t : Store) (n : Nat)
    (frames : List Frame) (d : Option Ref) (x : Value) (t₀ : Store)
    (outcome : EStateM.Result Stop Store Value) : Prop :=
  Meets limit T K (To d) ρ s t n (⟨frames, x, []⟩, t₀) (Delivers d) outcome

/-- A frame is about to begin, and the pairs of its copy are in use. -/
structure Ready (T K : Ref → Prop) (ρ : Renaming) (s t : Store) (v : Value) (a : Ref) (f : Frame)
    (own : List Ref) : Prop extends Begins T ρ s t v a f own where
  matched : Matched T (Including K own) ρ s t
  apart : ∀ q ∈ own, ¬ K q
  destination : ∀ q, f.destination = some q → K q

/-- The machine follows the evaluation of expressions to some depth. -/
def FollowsEval (limit n : Nat) : Prop :=
  ∀ ⦃T K : Ref → Prop⦄ ⦃ρ : Renaming⦄ ⦃s t : Store⦄ ⦃v : Value⦄ ⦃a : Ref⦄ ⦃f : Frame⦄ ⦃own : List Ref⦄
    (x : Value), Ready T K ρ s t v a f own → Careful T n (.eval v a) s →
    Serves limit T K ρ s t n [f] f.destination x t ((Direct.eval n v a).run s)

/-! ### Waiting and going on -/

section

variable {T K : Ref → Prop} {ρ : Renaming} {s t t₀ : Store} {v w x : Value} {a d : Ref} {f : Frame}
  {own : List Ref} {m n : Nat}

/-- A frame waits for the value of an expression in one of its pairs. -/
theorem Serves.await {g : Value → Eval Value} (heval : FollowsEval limit n)
    (h : Matched T (Including K own) ρ s t) (hapart : ∀ q ∈ own, ¬ K q) (hd : d ∈ own)
    (hv : Related ρ v w) (hcode : Code T v) (hscope : ρ .scope a f.scope)
    (hcareful : Careful T n (.eval v a) s) (hsize : t₀.pairs.size ≤ t.pairs.size)
    (hstep : f.step.run t₀ = (Frame.await f w d).run t) (hm : m ≤ n + (t.pairs.size + 8))
    (hg : ∀ v' s' ρ' y t', (Direct.eval n v a).run s = .ok v' s' →
      After T (Including K own) (To (some d)) ρ s t ρ' s' t' → Related ρ' v' (t'.car d) →
      Serves limit T K ρ' s' t' n [{ f with pushed := true }] f.destination y t' ((g v').run s')) :
    Serves limit T K ρ s t m [f] f.destination x t₀ ((Direct.eval n v a >>= g).run s) := by
  obtain ⟨own', hcopied⟩ := h.copy hv hcode
  have hgrows := hcopied.keeps.count .pair
  have hready : Ready T (Including K own) ρ s (t.copySpine w).2 v a
      (Frame.fresh f.scope (some d) (t.copySpine w).1) own' :=
    ⟨begins_new hcopied hscope, hcopied.matched h, fun q hq => hcopied.apart h hq, by
      rintro _ ⟨⟩
      exact .inr hd⟩
  have hserves := heval x hready hcareful
  refine .after (hcopied.after (h.mono fun q hq => .inl hq)) ?_
  refine .next (next_suspend (by rw [hstep, Frame.run_await])) (Nat.le_trans hsize hgrows) ?_
    (Nat.le_trans hm (Nat.add_le_add_left (Nat.add_le_add_right hgrows 8) n))
  refine hserves.bind (fun q hq => .inl hq) ?_ fun v' s' ρ' y t' hrun hafter hdelivers => ?_
  · rintro _ hq ⟨⟩
    exact absurd hq (hapart d hd)
  · exact hg v' s' ρ' y t' hrun ((hcopied.after h).trans hafter) hdelivers

/-- A frame goes on with an expression in tail position. -/
theorem Serves.goOn (heval : FollowsEval limit n) (h : Matched T K ρ s t)
    (hdestination : ∀ q, f.destination = some q → K q) (hv : Related ρ v w) (hcode : Code T v)
    (hscope : ρ .scope a f.scope) (hcareful : Careful T n (.eval v a) s)
    (hsize : t₀.pairs.size ≤ t.pairs.size) (hstep : f.step.run t₀ = (Frame.goOn f w).run t)
    (hm : m ≤ n + (t.pairs.size + 8)) :
    Serves limit T K ρ s t m [f] f.destination x t₀ ((Direct.eval n v a).run s) := by
  obtain ⟨own, hcopied⟩ := h.copy hv hcode
  have hgrows := hcopied.keeps.count .pair
  have hready : Ready T K ρ s (t.copySpine w).2 v a (f.withExpr (t.copySpine w).1) own :=
    ⟨⟨hcopied.expression, hscope, rfl⟩, hcopied.matched h, fun q hq => hcopied.apart h hq,
      hdestination⟩
  have hnext : Next limit (⟨[f], x, []⟩, t₀)
      (⟨[f.withExpr (t.copySpine w).1], x, []⟩, (t.copySpine w).2) :=
    next_suspend (by rw [hstep, Frame.run_goOn])
  refine .after (hcopied.after h) ?_
  exact .next hnext (Nat.le_trans hsize hgrows) (heval x hready hcareful)
    (Nat.le_trans hm (Nat.add_le_add_left (Nat.add_le_add_right hgrows 8) n))

/-- The value of a frame is that of a computation that only reads, on both sides. -/
theorem Serves.parallel {y z : Eval Value} (hyz : Parallel s t y z (Related ρ)) (h : Matched T K ρ s t)
    (hdestination : ∀ q, f.destination = some q → K q)
    (hstep : f.step.run t₀ = (do return .value (← z) : Eval Frame.Transition).run t) :
    Serves limit T K ρ s t n [f] f.destination x t₀ (y.run s) := by
  rcases hyz with ⟨v, w, hy, hz, hv⟩ | ⟨e, hy, hz⟩
  · rw [Eval.run_bind_ok hz] at hstep
    rw [hy]
    exact .value h hdestination hv hstep
  · rw [Eval.run_bind_error hz] at hstep
    rw [hy]
    exact .fail hstep (.refl ρ) h

end

/-! ### Bodies -/

/-- The machine follows the evaluation of bodies to some depth. Its frames are all there from the
start, so the calls for the list itself are not accounted for by any step. -/
def FollowsBody (limit n : Nat) : Prop :=
  ∀ ⦃T K : Ref → Prop⦄ ⦃ρ : Renaming⦄ ⦃s t : Store⦄ ⦃v : Value⦄ ⦃a : Ref⦄ ⦃d : Option Ref⦄
    ⦃cs : List Ref⦄ ⦃gs : List (Frame × List Ref)⦄ (last x : Value), s.ListAt v cs → cs ≠ [] →
    (∀ c ∈ cs, T c) → Matched T (Including K (allOwn gs)) ρ s t →
    Queue T ρ s t a d (cs.map s.car) gs → (allOwn gs).Nodup → (∀ q ∈ allOwn gs, ¬ K q) →
    (∀ q, d = some q → K q) → Careful T n (.body v a) s →
    Serves limit T K ρ s t (n - (cs.length + 1)) (gs.map Prod.fst) d x t
      ((Direct.evalBody n last v a).run s)

theorem followsBody_succ {n : Nat} (heval : FollowsEval limit n) (hbody : FollowsBody limit n) :
    FollowsBody limit (n + 1) := by
  intro T K ρ s t v a d cs gs last x hlist hne hT hmatched hqueue hnodup hapart hd hcareful
  cases cs with
  | nil => contradiction
  | cons c cs =>
      obtain ⟨g, gs, ⟨hbegins, hg⟩, hrest, rfl⟩ := List.forall₂_cons_left_iff.1 hqueue
      obtain ⟨rfl, -⟩ := hlist.1
      have hdisjoint := List.nodup_append.1 hnodup
      have hready : Ready T (Including K (allOwn gs)) ρ s t (s.car c) a g.1 g.2 := by
        refine ⟨hbegins, hmatched.mono fun q hq => ?_, fun q hq hk => ?_, fun q hq => .inl (hd q ?_)⟩
        · rcases hq with (hk | hq) | hq
          · exact .inl hk
          · exact .inr (List.mem_append_right _ hq)
          · exact .inr (List.mem_append_left _ hq)
        · rcases hk with hk | hk
          · exact hapart q (List.mem_append_left _ hq) hk
          · exact hdisjoint.2.2 q hq q hk rfl
        · rw [← hg, hq]
      have hfirst := heval x hready fun _ _ hcall => hcareful (.first hcall)
      rw [hg] at hfirst
      rw [Direct.evalBody, Eval.run_ask_bind, Eval.run_ask_bind]
      refine (hfirst.mono (by simp only [List.length_cons]; omega)).bind (R := gs.map Prod.fst)
        (fun q hq => .inl hq) (fun q _ hq => hq) fun v' s' ρ' y t' hrun hafter hv' => ?_
      cases cs with
      | nil =>
          obtain rfl : gs = [] := by cases hrest; rfl
          rw [show s.cdr c = .nil from hlist.1.2.1]
          cases n with
          | zero =>
              rw [Direct.run_eval_zero] at hrun
              cases hrun
          | succ n =>
              rw [Direct.run_evalBody_nil]
              exact ⟨ρ', y, t', .refl _, .refl (hafter.matched.mono fun q hq => .inl hq), hv'⟩
      | cons c' cs =>
          have hsame : ∀ e ∈ c' :: cs, s'.pair e = s.pair e := fun e he =>
            hafter.fixed e (hlist.2 e (by simp [he])) (.inl (hT e (by simp [he])))
          have hlist' : s'.ListAt (s.cdr c) (c' :: cs) := hlist.tail.congr
            (fun e he => Store.cdr_eq_of_pair_eq (hsame e he)) (hafter.left .pair)
          have hcars : (c' :: cs).map s'.car = (c' :: cs).map s.car :=
            List.map_congr_left fun e he => Store.car_eq_of_pair_eq (hsame e he)
          have hnot : ∀ q ∈ allOwn gs, ¬ To d q := fun q hq hto =>
            hapart q (List.mem_append_right _ hq) (hd q hto)
          have hqueue' : Queue T ρ' s' t' a d ((c' :: cs).map s'.car) gs := by
            rw [hcars]
            exact Queue.later hrest hmatched.text hafter fun q hq => ⟨.inr hq, hnot q hq⟩
          refine (hbody v' y hlist' (by simp) (fun e he => hT e (by simp [he])) hafter.matched hqueue'
            hdisjoint.2.1 (fun q hq => hapart q (List.mem_append_right _ hq)) hd
            fun _ _ hcall => hcareful (.rest hrun hcall)).mono ?_
          simp only [List.length_cons]
          omega

/-- A frame gives way to the frames of a body. -/
theorem Serves.replace {T K : Ref → Prop} {ρ : Renaming} {s t t₀ : Store} {v w x : Value} {a b : Ref}
    {f : Frame} {cs ds : List Ref} {m n : Nat} (hbody : FollowsBody limit n) (h : Matched T K ρ s t)
    (hdestination : ∀ q, f.destination = some q → K q) (hlisted : Listed ρ s t v w cs ds)
    (hne : cs ≠ []) (hT : ∀ c ∈ cs, T c) (hscope : ρ .scope a b)
    (hcareful : Careful T n (.body v a) s) (hsize : t₀.pairs.size ≤ t.pairs.size)
    (hstep : f.step.run t₀ =
      (do return .replace (← Frame.ofBody w b f.destination) : Eval Frame.Transition).run t)
    (hm : m ≤ n + 7) (last : Value) :
    Serves limit T K ρ s t m [f] f.destination x t₀ ((Direct.evalBody n last v a).run s) := by
  obtain ⟨gs, t', hrun, hqueue, htaken⟩ := exists_queue h hlisted.values
    (by simpa using fun c hc => (h.text (hT c hc)).2.1) hscope f.destination
  have hframes : (Frame.ofBody w b f.destination).run t = .ok (gs.map Prod.fst) t' := by
    rw [Frame.ofBody, Eval.run_ask_bind, hlisted.right.elements_eq, hrun]
  rw [Eval.run_bind_ok hframes] at hstep
  have hserves := hbody last x hlisted.left hne hT (htaken.matched h) hqueue htaken.nodup
    (fun q hq => htaken.apart h hq) hdestination hcareful
  have hnext : Next limit (⟨[f], x, []⟩, t₀) (⟨gs.map Prod.fst, x, []⟩, t') := by
    have hreplace : Next limit (⟨[f], x, []⟩, t₀) (⟨gs.map Prod.fst ++ [], x, []⟩, t') :=
      next_replace hstep
    rwa [List.append_nil] at hreplace
  have hlength : cs.length ≤ t.pairs.size := by
    rw [hlisted.length_eq]
    exact Store.length_le_of_nodup hlisted.right.1.nodup hlisted.right.2
  have hgrows : t.pairs.size ≤ t'.pairs.size := htaken.keeps.count .pair
  refine .after (htaken.after h) (.next hnext (Nat.le_trans hsize hgrows) hserves ?_)
  simp only
  omega

/-! ### Operators and operands -/

/-- The machine follows the evaluation of the elements of a list to some depth, with a frame for each
that needs one. -/
def FollowsEach (limit n : Nat) : Prop :=
  ∀ ⦃T K : Ref → Prop⦄ ⦃ρ : Renaming⦄ ⦃s t : Store⦄ ⦃v : Value⦄ ⦃a : Ref⦄ ⦃cs : List Ref⦄
    ⦃slots : List Slot⦄ (x : Value), s.ListAt v cs → (∀ c ∈ cs, T c ∨ ρ.LeftFree c) →
    Matched T (Including K (slots.flatMap Slot.own)) ρ s t →
    List.Forall₂ (Slot.Holds T ρ s t a) (cs.map s.car) slots → (∀ y ∈ slots, K y.cell) →
    (slots.map Slot.cell).Nodup → (slots.flatMap Slot.own).Nodup →
    (∀ q ∈ slots.flatMap Slot.own, ¬ K q) → Careful T n (.each v a) s →
    Meets limit T K (fun q => q ∈ slots.map Slot.cell) ρ s t (n - (cs.length + 1))
      (⟨slots.filterMap Slot.frame, x, []⟩, t)
      (fun ρ' vs _ t' => List.Forall₂ (fun v y => Related ρ' v (t'.car (Slot.cell y))) vs slots)
      ((Direct.evalEach n v a).run s)

/-- The value in a pair stays there while the frames for other pairs run. -/
theorem followsEach_rest {T K : Ref → Prop} {ρ : Renaming} {s t : Store} {v w : Value} {a : Ref}
    {cs : List Ref} {slots : List Slot} {x : Value} {y : Slot} {n : Nat}
    (heach : FollowsEach limit n) (hlist : s.ListAt v cs) (hfixed : ∀ c ∈ cs, T c ∨ ρ.LeftFree c)
    (hmatched : Matched T (Including K (slots.flatMap Slot.own)) ρ s t)
    (hslots : List.Forall₂ (Slot.Holds T ρ s t a) (cs.map s.car) slots)
    (hcells : ∀ z ∈ y :: slots, K z.cell) (hnodup : ((y :: slots).map Slot.cell).Nodup)
    (howns : (slots.flatMap Slot.own).Nodup) (hapart : ∀ q ∈ slots.flatMap Slot.own, ¬ K q)
    (hcareful : Careful T n (.each v a) s) (hw : Related ρ w (t.car y.cell)) :
    Meets limit T K (fun q => q ∈ (y :: slots).map Slot.cell) ρ s t (n - (cs.length + 1))
      (⟨slots.filterMap Slot.frame, x, []⟩, t)
      (fun ρ' vs _ t' => List.Forall₂ (fun v z => Related ρ' v (t'.car (Slot.cell z))) vs (y :: slots))
      ((Direct.evalEach n v a >>= fun vs => return w :: vs).run s) := by
  obtain ⟨hy, hnodup⟩ := List.nodup_cons.1 hnodup
  have hrest := heach x hlist hfixed hmatched hslots (fun z hz => hcells z (by simp [hz])) hnodup
    howns hapart hcareful
  have habove : (Machine.mk (slots.filterMap Slot.frame) x []).above [] [] =
      ⟨slots.filterMap Slot.frame, x, []⟩ := by rw [above_nil, List.append_nil]
  rw [← habove]
  refine hrest.bind (fun q hq => hq) (fun q _ hq => List.mem_cons_of_mem _ hq)
    fun vs s' ρ' z t' _ hafter hvs => ⟨ρ', z, t', .refl _, .refl hafter.matched, .cons ?_ hvs⟩
  rw [hafter.spared y.cell (hcells y (by simp)) hy]
  exact hw.mono hafter.le

theorem followsEach_succ {n : Nat} (heval : FollowsEval limit n) (heach : FollowsEach limit n) :
    FollowsEach limit (n + 1) := by
  intro T K ρ s t v a cs slots x hlist hfixed hmatched hslots hcells hnodup howns hapart hcareful
  cases cs with
  | nil =>
      obtain ⟨rfl, -⟩ := hlist.1
      cases hslots
      rw [Direct.run_evalEach_nil]
      exact ⟨ρ, x, t, .refl _, .refl (hmatched.mono fun q hq => .inl hq), .nil⟩
  | cons c cs =>
      obtain ⟨y, slots, hy, hrest, rfl⟩ := List.forall₂_cons_left_iff.1 hslots
      obtain ⟨rfl, -⟩ := hlist.1
      have hlength : n + 1 - ((c :: cs).length + 1) = n - (cs.length + 1) := by
        simp only [List.length_cons]
        omega
      rw [Direct.evalEach, Eval.run_ask_bind, Eval.run_ask_bind, hlength]
      have hflat : (y :: slots).flatMap Slot.own = y.own ++ slots.flatMap Slot.own := rfl
      rw [hflat] at hmatched howns hapart
      have hdisjoint := List.nodup_append.1 howns
      have hcell := hcells y (by simp)
      unfold Slot.Holds at hy
      split at hy
      · rename_i hframe
        obtain ⟨hown, hv, -, hneeds⟩ := hy
        rw [List.filterMap_cons_none hframe]
        cases n with
        | zero =>
            rw [Eval.run_bind_error (Direct.run_eval_zero _ _ _)]
            exact .inr ⟨rfl, .of_le (by simp)⟩
        | succ n =>
            have hrun := Direct.run_eval_settled (n := n) hneeds a
            rw [Eval.run_bind_ok hrun]
            rw [hown, List.nil_append] at hmatched hapart
            exact followsEach_rest heach hlist.tail (fun e he => hfixed e (by simp [he])) hmatched hrest
              hcells hnodup hdisjoint.2.1 hapart (fun _ _ hcall => hcareful (.elements hrun hcall)) hv
      · rename_i f hframe
        obtain ⟨hbegins, hd⟩ := hy
        rw [List.filterMap_cons_some hframe]
        have hready : Ready T (Including K (slots.flatMap Slot.own)) ρ s t (s.car c) a f y.own := by
          refine ⟨hbegins, hmatched.mono fun q hq => ?_, fun q hq hk => ?_, fun q hq => .inl ?_⟩
          · rcases hq with (hk | hq) | hq
            · exact .inl hk
            · exact .inr (List.mem_append_right _ hq)
            · exact .inr (List.mem_append_left _ hq)
          · rcases hk with hk | hk
            · exact hapart q (List.mem_append_left _ hq) hk
            · exact hdisjoint.2.2 q hq q hk rfl
          · obtain rfl := Option.some.inj (hd.symm.trans hq)
            exact hcell
        have hfirst := heval x hready fun _ _ hcall => hcareful (.element hcall)
        rw [hd] at hfirst
        refine (hfirst.mono (by omega)).bind (R := slots.filterMap Slot.frame) (fun q hq => .inl hq)
          ?_ fun v' s' ρ' z t' hrun hafter hv' => ?_
        · rintro _ - ⟨⟩
          exact List.mem_cons_self
        · have hsame : ∀ e ∈ cs, s'.pair e = s.pair e := fun e he =>
            hafter.fixed e (hlist.2 e (by simp [he])) (hfixed e (by simp [he]))
          have hlist' : s'.ListAt (s.cdr c) cs := hlist.tail.congr
            (fun e he => Store.cdr_eq_of_pair_eq (hsame e he)) (hafter.left .pair)
          have hcars : cs.map s'.car = cs.map s.car :=
            List.map_congr_left fun e he => Store.car_eq_of_pair_eq (hsame e he)
          have hslots' : List.Forall₂ (Slot.Holds T ρ' s' t' a) (cs.map s'.car) slots := by
            rw [hcars]
            refine forall₂_imp_mem hrest fun w _ z hz hholds =>
              hholds.later hmatched.text hafter (fun q hq => ?_) ⟨.inl (hcells z (by simp [hz])), ?_⟩
            · have hq' : q ∈ slots.flatMap Slot.own := List.mem_flatMap.2 ⟨z, hz, hq⟩
              refine ⟨.inr hq', ?_⟩
              rintro ⟨⟩
              exact hapart y.cell (List.mem_append_right _ hq') hcell
            · intro hto
              have hne := (List.nodup_cons.1 hnodup).1
              rw [Option.some.inj hto] at hne
              exact hne (List.mem_map_of_mem hz)
          exact followsEach_rest heach hlist'
            (fun e he => (hfixed e (by simp [he])).imp_right
              (hafter.leftFree (hlist.2 e (by simp [he])))) hafter.matched hslots' hcells hnodup
            hdisjoint.2.1 (fun q hq => hapart q (List.mem_append_right _ hq))
            (fun _ _ hcall => hcareful (.elements hrun hcall)) hv'

end Machine
end LittleScheme
