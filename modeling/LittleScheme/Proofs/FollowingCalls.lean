import LittleScheme.Proofs.Following

/-!
# Calls on the machine

When the operator and the operands of an application have their values, the machine calls the procedure
with the values in its copy of the form. What a native procedure does is the same on both sides, a
closure gives way to the frames of its body, and a call that a native procedure asks for is made on a
stack of its own.
-/
namespace LittleScheme

open Value (Related)

/-! ### Procedures that are called -/

/-- A reply that asks for no call, or for that of a procedure. -/
def Native.Reply.AsksProcedure : Native.Reply → Prop
  | .value _ => True
  | .call procedure _ => procedure.isProcedure = true

theorem Native.returns_call (p : Native) (args : List Value) :
    Eval.Returns (p.call args) Reply.AsksProcedure := by
  have hspread (procedure : Value) (args : List Value) :
      Eval.Returns (Control.spreadCall procedure args) Reply.AsksProcedure := by
    unfold Control.spreadCall
    cases hprocedure : procedure.isProcedure with
    | true =>
        simp only [if_true]
        split
        · exact Eval.returns_pure hprocedure
        · exact Eval.returns_bind fun _ => Eval.returns_pure hprocedure
    | false =>
        simp only [Bool.false_eq_true, if_false]
        intro s reply s' h
        simp [Argument.wrongType, Eval.fail, Eval.raise, Eval.written] at h
  refine Eval.returns_bind fun _ => ?_
  cases p with
  | control p =>
      have hrun : Eval.Returns (p.run args) Reply.AsksProcedure := by
        unfold Control.run
        split
        · exact Eval.returns_pure trivial
        · exact hspread _ _
        · exact Eval.returns_bind fun _ => Eval.returns_raise _
        · exact Eval.returns_raise _
      exact hrun
  | _ => exact Eval.returns_bind fun _ => Eval.returns_pure trivial

namespace Frame

/-- What is no procedure cannot be called. -/
theorem Loaded.run_step_other {f : Frame} {s : Store} {procedure : Value} {args : List Value}
    (h : f.Loaded s procedure args) (hkeyword : ∀ k, procedure ≠ .keyword k)
    (hprocedure : procedure.isProcedure = false) :
    f.step.run s = .error (.error (.failed (.notProcedure (s.written procedure)) .none)) s := by
  obtain ⟨r, hhead, -, hstep⟩ := h.run_step hkeyword
  rw [hstep, stepCall, Eval.run_ask_bind, Eval.run_ask_bind, hhead]
  cases procedure with
  | native p => cases hprocedure
  | closure c => cases hprocedure
  | _ => rfl

end Frame

theorem Direct.run_apply_other {n : Nat} {s : Store} {procedure : Value} (args : List Value)
    (hprocedure : procedure.isProcedure = false) :
    (apply (n + 1) procedure args).run s =
      .error (.error (.failed (.notProcedure (s.written procedure)) .none)) s := by
  unfold apply
  cases procedure with
  | native p => cases hprocedure
  | closure c => cases hprocedure
  | _ => rfl

/-! ### Computations from matching stores -/

/-- Two computations do the same from matching stores, which match again afterwards. -/
def Together {α β : Type} (T K D : Ref → Prop) (ρ : Renaming) (s t : Store) (x : Eval α) (y : Eval β)
    (Q : Renaming → α → β → Prop) : Prop :=
  (∃ ρ' a b s' t', x.run s = .ok a s' ∧ y.run t = .ok b t' ∧ After T K D ρ s t ρ' s' t' ∧ Q ρ' a b) ∨
    ∃ e ρ' s' t', x.run s = .error e s' ∧ y.run t = .error e t' ∧ After T K D ρ s t ρ' s' t'

section

variable {T K D : Ref → Prop} {ρ : Renaming} {s t : Store}

theorem Matched.together {α β : Type} {x : Eval α} {y : Eval β} {Q : Renaming → α → β → Prop}
    (h : Matched T K ρ s t) (hxy : Agree ρ x y Q) : Together T K D ρ s t x y Q := by
  have hagree := hxy s t h.similar
  cases hx : x.run s <;> cases hy : y.run t <;> rw [hx, hy] at hagree
  · obtain ⟨ρ', hlater, hsim, hq⟩ := hagree
    exact .inl ⟨ρ', _, _, _, _, hx, hy, .of_later h hlater hsim, hq⟩
  · exact hagree.elim
  · exact hagree.elim
  · obtain ⟨rfl, ρ', hlater, hsim⟩ := hagree
    exact .inr ⟨_, ρ', _, _, hx, hy, .of_later h hlater hsim⟩

/-- A native procedure does the same with related arguments, if it does not change the text. -/
theorem Matched.together_call (h : Matched T K ρ s t) {p : Native} {vs ws : List Value}
    (hvs : List.Forall₂ (Related ρ) vs ws) (htarget : ∀ r, p.target? vs = some r → ¬ T r) :
    Together T K D ρ s t (p.call vs) (p.call ws) Native.Reply.Related := by
  cases hp : p.target? vs with
  | none => exact h.together (Native.call_agree hp hvs)
  | some r =>
      have hT := htarget r hp
      unfold Native.target? at hp
      split at hp
      · obtain rfl := Option.some.inj hp
        obtain _ | ⟨hpair, _ | ⟨hv, hnil⟩⟩ := hvs
        cases hnil
        cases hpair with
        | @pair _ q hr =>
            exact .inl ⟨ρ, _, _, _, _, rfl, rfl, .of_change h hr hT (h.similar.setCar hr hv)
              (fun _ _ hk => s.sameAt_setCar hk _) (fun _ _ hk => t.sameAt_setCar hk _)
              (s.count_setCar _ _) (t.count_setCar _ _), .value .void⟩
      · obtain rfl := Option.some.inj hp
        obtain _ | ⟨hpair, _ | ⟨hv, hnil⟩⟩ := hvs
        cases hnil
        cases hpair with
        | @pair _ q hr =>
            exact .inl ⟨ρ, _, _, _, _, rfl, rfl, .of_change h hr hT (h.similar.setCdr hr hv)
              (fun _ _ hk => s.sameAt_setCdr hk _) (fun _ _ hk => t.sameAt_setCdr hk _)
              (s.count_setCdr _ _) (t.count_setCdr _ _), .value .void⟩
      · cases hp

end

namespace Machine

open Direct (Careful)

variable {limit : Nat}

/-- The machine follows the call of a procedure to some depth, from a frame that holds its values. -/
def FollowsApply (limit n : Nat) : Prop :=
  ∀ ⦃T K : Ref → Prop⦄ ⦃ρ : Renaming⦄ ⦃s t : Store⦄ ⦃v w : Value⦄ ⦃vs ws : List Value⦄ ⦃f : Frame⦄
    (x : Value), Matched T K ρ s t → Related ρ v w → List.Forall₂ (Related ρ) vs ws →
    f.Loaded t w ws → (∀ q, f.destination = some q → K q) → Careful T n (.apply v vs) s →
    Serves limit T K ρ s t (n + 2) [f] f.destination x t ((Direct.apply n v vs).run s)

/-- A call that a native procedure asks for is made on an empty stack, and its value is delivered when
that is used up. -/
theorem Serves.asked {T K : Ref → Prop} {ρ : Renaming} {s t t₀ : Store} {v w x : Value}
    {vs ws : List Value} {f : Frame} {n : Nat} (happly : ∀ k, n = k + 2 → FollowsApply limit k)
    (h : Matched T K ρ s t) (hdestination : ∀ q, f.destination = some q → K q)
    (hv : Related ρ v w) (hprocedure : v.isProcedure = true) (hvs : List.Forall₂ (Related ρ) vs ws)
    (hcareful : ∀ form s₁ a s₂, (Eval.callForm v vs).run s = .ok form s₁ →
      Eval.newRoot.run s₁ = .ok a s₂ → Careful T n (.eval form a) s₂)
    (hsize : t₀.pairs.size ≤ t.pairs.size) (hstep : f.step.run t₀ = .ok (.call w ws) t) :
    Serves limit T K ρ s t (n + 3) [f] f.destination x t₀ ((do
      let form ← Eval.callForm v vs
      Direct.eval n form (← Eval.newRoot) : Eval Value).run s) := by
  obtain ⟨s₁, s₂, form, cs, a, m, hform, hroot, hgrows, hlist, hhead, hquoted⟩ :=
    Eval.exists_callForm s v vs
  obtain ⟨t₁, t₂, form', ds, a', m', hform', hroot', hgrows', hlist', hhead', hquoted'⟩ :=
    Eval.exists_callForm t w ws
  obtain ⟨g, u, hreaches, hloaded, hg, hgrows'', hsizeU⟩ :=
    reaches_loaded limit a' (hv.isProcedure_eq ▸ hprocedure) hquoted'
  have hcopy : t₂.copySpine (.pair form') = t₂.list (w :: ds.map t₂.car) := by
    simp only [Store.copySpine, hlist'.elements?_eq, List.map_cons, hhead']
  have hnext : Next limit (⟨[f], x, []⟩, t₀)
      (above ⟨[.fresh a' none (t₂.list (w :: ds.map t₂.car)).1], .void, []⟩ []
        [⟨[], x, f.destination⟩], (t₂.list (w :: ds.map t₂.car)).2) := by
    refine next_cons_iff.2 ⟨_, _, hstep, ?_⟩
    rw [advance, Eval.run_bind_ok hform', Eval.run_bind_ok hroot', ← hcopy]
    rfl
  have hsize' : t.pairs.size ≤ (t₂.list (w :: ds.map t₂.car)).2.pairs.size :=
    (hgrows'.trans (.list t₂ _)).size_le
  rw [Eval.run_bind_ok hform, Eval.run_bind_ok hroot]
  have hafter : After T K (To f.destination) ρ s t ρ s₂ u :=
    .of_keeps h hgrows.keeps (hgrows'.trans hgrows'').keeps (by
      rw [hgrows.console_eq, (hgrows'.trans hgrows'').console_eq, h.similar.console])
  rcases Direct.run_eval_quotedCall hprocedure hlist hhead hquoted n with
    ⟨k, rfl, hparts, hcall⟩ | ⟨hfuel, hn⟩
  · have hcalls : Careful T k (.apply v vs) s₂ := by
      intro _ _ hcalls
      refine hcareful _ _ _ _ hform hroot (.list hlist.isList (.application ?_ hparts hcalls))
      rw [hhead]
      rintro k' rfl
      cases hprocedure
    have hserves := happly k rfl .void hafter.matched hv hvs hloaded (by simp [hg]) hcalls
    rw [hg] at hserves
    rw [hcall, ← bind_pure (Direct.apply k v vs)]
    refine .after hafter (.next hnext (Nat.le_trans hsize hsize') (.reaches (hreaches.above _ _)
      hsizeU (hserves.bind (fun _ hq => hq) ?_ fun v' s' ρ' y t' _ hafter' hv' => ?_)) (by lia))
    · rintro _ _ ⟨⟩
    · exact .deliver hafter'.matched hdestination hv' fun c' hc => next_nil_iff.2 hc
  · rw [hfuel]
    have hlength : ds.length = vs.length := by
      rw [hvs.length_eq, hquoted'.length_eq, List.length_map]
    refine .inr ⟨rfl, .next hnext (Nat.le_trans hsize hsize') (.of_le (Nat.zero_le _)) ?_⟩
    simp only [Store.size_list, List.length_cons, List.length_map]
    lia

section

variable {T K : Ref → Prop} {ρ : Renaming} {s t : Store} {vs ws : List Value} {f : Frame} {n : Nat}

theorem Serves.native {p : Native} {x : Value} (happly : ∀ k, n = k + 2 → FollowsApply limit k)
    (h : Matched T K ρ s t) (hvs : List.Forall₂ (Related ρ) vs ws) (hloaded : f.Loaded t (.native p) ws)
    (hdestination : ∀ q, f.destination = some q → K q)
    (hcareful : Careful T (n + 1) (.apply (.native p) vs) s) :
    Serves limit T K ρ s t (n + 3) [f] f.destination x t
      ((Direct.apply (n + 1) (.native p) vs).run s) := by
  have hallowed := hcareful .call
  have hstep := hloaded.run_step_native
  rw [Direct.apply]
  rcases h.together_call (D := To f.destination) hvs fun r => hallowed.target p r rfl with
    ⟨ρ', _, _, s', t', hs, ht, hafter, hreply⟩ | ⟨e, ρ', s', t', hs, ht, hafter⟩
  · rw [Eval.run_bind_ok ht] at hstep
    rw [Eval.run_bind_ok hs]
    refine .after hafter ?_
    cases hreply with
    | value hv => exact .value hafter.matched hdestination hv hstep
    | call hq hargs =>
        exact Serves.asked happly hafter.matched hdestination hq (Native.returns_call p vs hs) hargs
          (fun _ _ _ _ hform hroot _ _ hcall => hcareful (.inner hs hform hroot hcall))
          (hafter.right .pair) hstep
  · rw [Eval.run_bind_error ht] at hstep
    rw [Eval.run_bind_error hs]
    exact .fail hstep hafter.le hafter.matched

theorem Serves.closure {c d : Ref} {x : Value} (hbody : FollowsBody limit n) (h : Matched T K ρ s t)
    (hc : ρ .closure c d) (hvs : List.Forall₂ (Related ρ) vs ws) (hloaded : f.Loaded t (.closure d) ws)
    (hdestination : ∀ q, f.destination = some q → K q)
    (hcareful : Careful T (n + 1) (.apply (.closure c) vs) s) :
    Serves limit T K ρ s t (n + 3) [f] f.destination x t
      ((Direct.apply (n + 1) (.closure c) vs).run s) := by
  have hstep := hloaded.run_step_closure
  rw [Direct.apply]
  rcases h.together (D := To f.destination) (Eval.enterCall_agree hc hvs) with
    ⟨ρ', a, b, s', t', hs, ht, hafter, hscope⟩ | ⟨e, ρ', s', t', hs, ht, hafter⟩
  · rw [Eval.run_bind_ok ht, Eval.run_ask_bind] at hstep
    rw [Eval.run_bind_ok hs, Eval.run_ask_bind]
    obtain ⟨cs, ds, hne, hlisted, hcs, -⟩ := hafter.matched.bodies (hafter.le hc)
    exact .after hafter (Serves.replace hbody hafter.matched hdestination hlisted hne hcs
      hscope (fun _ _ hcall => hcareful (.enter hs hcall)) (hafter.right .pair) hstep (by omega)
      .void)
  · rw [Eval.run_bind_error ht] at hstep
    rw [Eval.run_bind_error hs]
    exact .fail hstep hafter.le hafter.matched

end

theorem followsApply_zero : FollowsApply limit 0 := by
  intro T K ρ s t v w vs ws f x _ _ _ _ _ _
  have hrun : (Direct.apply 0 v vs).run s = .error .outOfFuel s := by rw [Direct.apply]; rfl
  rw [hrun]
  exact .inr ⟨rfl, .of_le (by omega)⟩

theorem followsApply_succ {n : Nat} (hbody : FollowsBody limit n)
    (happly : ∀ k, n = k + 2 → FollowsApply limit k) : FollowsApply limit (n + 1) := by
  intro T K ρ s t v w vs ws f x h hv hvs hloaded hdestination hcareful
  cases hprocedure : v.isProcedure with
  | true =>
      cases hv with
      | native p => exact Serves.native happly h hvs hloaded hdestination hcareful
      | closure hc => exact Serves.closure hbody h hc hvs hloaded hdestination hcareful
      | _ => cases hprocedure
  | false =>
      have hkeyword : ∀ k, w ≠ .keyword k := by
        rintro k rfl
        cases hv
        exact (hcareful .call).operator k rfl
      have hstep := hloaded.run_step_other hkeyword (hv.isProcedure_eq ▸ hprocedure)
      rw [Direct.run_apply_other vs hprocedure, h.similar.written hv]
      exact .fail hstep (.refl ρ) h

end Machine
end LittleScheme
