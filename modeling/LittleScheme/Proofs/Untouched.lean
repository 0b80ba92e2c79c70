import LittleScheme.Proofs.Guarded
import LittleScheme.Proofs.Run

/-!
# Pairs from before an evaluation

The stack machine writes values into pairs, but into pairs of its own: whatever comes of an
evaluation, a pair that was there before is as it was. There are two exceptions. A program changes a
pair when it applies `set-car!` or `set-cdr!` to it. And an expression that was no proper list when
its frame was made has not been copied; if the program turns it into a list before its turn comes,
the machine works on the pairs of the program.
-/
namespace LittleScheme

open Value (Related)

namespace Eval

theorem callForm_agree {ρ : Renaming} {p q : Value} {vs ws : List Value} (hp : Related ρ p q)
    (hvs : List.Forall₂ (Related ρ) vs ws) :
    Agree ρ (callForm p vs) (callForm q ws) fun ρ' => Related ρ' := by
  unfold callForm
  refine (Agree.mapM_related hvs (R := fun ρ' => Related ρ')
    (fun _ _ _ _ hle hv => hv.mono hle) fun ρ' v w hv => ?_).bind fun ρ' xs ys hle hxs => ?_
  · exact .make fun s t hs => hs.list (.cons (.keyword .quote) (.cons hv .nil))
  · exact .make fun s t hs => hs.listWithTail (.cons (hp.mono hle) hxs) .nil

/-- The store that a computation leaves behind, with a value or without. -/
def after {α : Type} (x : Eval α) (s : Store) : Store :=
  match x.run s with
  | .ok _ s => s
  | .error _ s => s

end Eval

theorem Guarded.spares {α : Type} {N : Nat} {W : Ref → Prop} {w : Ownership} {s : Store} {x : Eval α}
    {Q : Ownership → α → Store → Prop} (h : Guarded N W w s x Q) : s.Spares N W (x.after s) := by
  rw [Guarded] at h
  rw [Eval.after]
  cases hrun : x.run s with
  | ok a s' =>
      rw [hrun] at h
      obtain ⟨-, -, -, hspares, -⟩ := h
      exact hspares
  | error e s' =>
      rw [hrun] at h
      exact h

namespace Machine

/-- The frames of all stacks. -/
def all (m : Machine) : List Frame := m.frames ++ m.suspended.flatMap (·.frames)

/-- Every frame is owned, and values go where they may. -/
structure Owned (N : Nat) (W : Ref → Prop) (w : Ownership) (m : Machine) : Prop where
  frames : ∀ f ∈ m.all, f.Owned N W w
  result : w.Shared m.result
  suspended : ∀ x ∈ m.suspended, w.Shared x.result ∧ ∀ c, x.destination = some c → Writable N W c

section

variable {N : Nat} {W : Ref → Prop} {w : Ownership} {s : Store} {m : Machine} {v : Value}

theorem Owned.mono {W' : Ref → Prop} {w' : Ownership} (h : m.Owned N W w) (hle : w.Le w')
    (hW : ∀ r, W r → W' r) : m.Owned N W' w' where
  frames f hf := (h.frames f hf).mono hle hW
  result := h.result.mono hle
  suspended x hx := by
    obtain ⟨hresult, hdestination⟩ := h.suspended x hx
    exact ⟨hresult.mono hle, fun c hc => (hdestination c hc).imp_right (hW c)⟩

/-- The frames of a machine evaluate expressions that frames of another do, or that have just been
copied. -/
def Continues (w : Ownership) (s : Store) (frames : List Frame) (m : Machine) : Prop :=
  ∀ g ∈ m.all, (∃ f ∈ frames, g.expr = f.expr) ∨ w.Fresh s g.expr

theorem deliver_guarded (hw : w.Holds N s) (hm : m.Owned N W w) (hv : w.Shared v) {d : Option Ref}
    (hd : ∀ c, d = some c → Writable N W c) :
    Guarded N W w s (m.deliver d v) fun w' m' s' => m'.Owned N W w' ∧ m'.Continues w' s' m.all := by
  have hsame : ∀ m' : Machine, m'.all = m.all → ∀ w' s', m'.Continues w' s' m.all := by
    intro m' hall w' s' g hg
    rw [hall] at hg
    exact .inl ⟨g, hg, rfl⟩
  cases d with
  | none => exact .pure hw ⟨⟨hm.frames, hv, hm.suspended⟩, hsame _ rfl _ _⟩
  | some c =>
      exact .update_bind (hw.setCar c hv) (Store.spares_setCar (hd c rfl) v)
        (.pure (hw.setCar c hv) ⟨hm, hsame _ rfl _ _⟩)

/-- The stack below a frame goes on with frames in the place of that frame. -/
theorem Owned.push {frames : List Frame} (hm : m.Owned N W w)
    (hframes : ∀ g ∈ frames, g.Owned N W w) :
    Owned N W w { m with frames := frames ++ m.frames } where
  frames g hg := by
    rw [all, List.append_assoc] at hg
    rcases List.mem_append.1 hg with hg | hg
    · exact hframes g hg
    · exact hm.frames g hg
  result := hm.result
  suspended := hm.suspended

theorem continues_push {frames : List Frame} {f : Frame}
    (hframes : ∀ g ∈ frames, g.expr = f.expr ∨ w.Fresh s g.expr) :
    Continues w s (f :: m.all) { m with frames := frames ++ m.frames } := by
  intro g hg
  rw [all, List.append_assoc] at hg
  rcases List.mem_append.1 hg with hg | hg
  · rcases hframes g hg with hexpr | hfresh
    · exact .inl ⟨f, by simp, hexpr⟩
    · exact .inr hfresh
  · exact .inl ⟨g, List.mem_cons_of_mem f hg, rfl⟩

theorem advance_guarded (hw : w.Holds N s) (hm : m.Owned N W w) {f : Frame} {t : Frame.Transition}
    (ht : t.Owned N W f w s) (hd : ∀ c, f.destination = some c → Writable N W c) :
    Guarded N W w s (m.advance f.destination t) fun w' m' s' =>
      m'.Owned N W w' ∧ m'.Continues w' s' (f :: m.all) := by
  cases t with
  | value v =>
      refine (deliver_guarded hw hm ht hd).mono fun w' m' s' h => ⟨h.1, fun g hg => ?_⟩
      refine (h.2 g hg).imp_left fun ⟨g', hg', hexpr⟩ => ⟨g', List.mem_cons_of_mem f hg', hexpr⟩
  | suspend g above =>
      obtain ⟨hg, hexpr, habove⟩ := ht
      refine .pure hw ⟨?_, ?_⟩
      · have hpush : Owned N W w { m with frames := (above ++ [g]) ++ m.frames } :=
          hm.push fun a ha => ?_
        · simpa using hpush
        · rcases List.mem_append.1 ha with ha | ha
          · exact (habove a ha).1
          · obtain rfl := List.mem_singleton.1 ha
            exact hg
      · have hpush : Continues w s (f :: m.all) { m with frames := (above ++ [g]) ++ m.frames } :=
          continues_push fun a ha => ?_
        · simpa using hpush
        · rcases List.mem_append.1 ha with ha | ha
          · exact .inr (habove a ha).2
          · obtain rfl := List.mem_singleton.1 ha
            exact hexpr
  | replace frames =>
      exact .pure hw ⟨hm.push fun g hg => (ht g hg).1, continues_push fun g hg => .inr (ht g hg).2⟩
  | call procedure args =>
      obtain ⟨hp, hargs⟩ := ht
      refine (Guarded.agree_shared hw (Eval.callForm_agree hp (List.forall₂_same.2 hargs))).bind
        fun w₁ form s₁ hle₁ hw₁ hform => ?_
      refine .bind (Q := fun w' r _ => w'.shared .scope r r)
        (.agree hw₁ Eval.newRoot_agree fun ρ' r s' hr => ⟨rfl, hr⟩) fun w₂ root s₂ hle₂ hw₂ hroot => ?_
      refine .bind (Q := fun w' m' s' => ∃ g, m' = { frames := [g] } ∧ g.Made N W w' s') ?_ ?_
      · refine (Frame.new_guarded (W := W) hw₂ (hform.mono hle₂) hroot (d := none) (by simp)).bind ?_
        exact fun w' g s' _ hw' hg => .pure hw' ⟨g, rfl, hg.2.2⟩
      · rintro w₃ _ s₃ hle₃ hw₃ ⟨g, rfl, hg⟩
        have hm' := hm.mono ((hle₁.trans hle₂).trans hle₃) fun _ h => h
        refine .pure hw₃ ⟨⟨fun f' hf' => ?_, .void, fun x hx => ?_⟩, fun f' hf' => ?_⟩
        · rcases List.mem_cons.1 hf' with rfl | hf'
          · exact hg.1
          · exact hm'.frames f' hf'
        · rcases List.mem_cons.1 hx with rfl | hx
          · exact ⟨hm'.result, hd⟩
          · exact hm'.suspended x hx
        · rcases List.mem_cons.1 hf' with rfl | hf'
          · exact .inr hg.2
          · exact .inl ⟨f', List.mem_cons_of_mem f hf', rfl⟩

theorem traced_guarded {α : Type} {limit : Nat} {frames : List Frame} {x : Eval α}
    {Q : Ownership → α → Store → Prop} (hx : Guarded N W w s x Q) :
    Guarded N W w s (traced limit frames x) Q := by
  unfold Guarded EStateM.run traced at *
  cases hrun : x s with
  | ok a s' =>
      rw [hrun] at hx
      exact hx
  | error e s' =>
      rw [hrun] at hx
      cases e <;> exact hx

/-- `set-car!` or `set-cdr!` is being applied to a pair. -/
def Mutates (c : Machine × Store) (r : Ref) : Prop :=
  ∃ f rest p args, c.1.frames = f :: rest ∧ f.Applies c.2 p args ∧ p.target? args = some r

theorem step_guarded {limit : Nat} (hw : w.Holds N s) (hm : m.Owned N W w)
    (hmutates : ∀ r, Mutates (m, s) r → W r)
    (hlist : ∀ f rest, m.frames = f :: rest → s.isList f.expr = true → ¬ w.Owned f.expr →
      ∀ c ∈ s.cells f.expr, W c) :
    Guarded N W w s (m.step limit) fun w' x s' => ∀ m', x = .inl m' →
      m'.Owned N W w' ∧ m'.Continues w' s' m.all := by
  obtain ⟨frames, result, suspended⟩ := m
  cases frames with
  | cons f rest =>
      have hf := hm.frames f (by simp [all])
      have hrest : Owned N W w ⟨rest, result, suspended⟩ :=
        ⟨fun g hg => hm.frames g (List.mem_cons_of_mem f hg), hm.result, hm.suspended⟩
      have hstep := Frame.step_guarded hw hf
        (fun p args r happlies htarget => hmutates r ⟨f, rest, p, args, rfl, happlies, htarget⟩)
        (hlist f rest rfl)
      refine (traced_guarded hstep).bind fun w₁ t s₁ hle hw₁ ht => ?_
      refine (advance_guarded hw₁ (hrest.mono hle fun _ h => h) ht hf.destination).bind
        fun w₂ m' s₂ _ hw₂ hm' => .pure hw₂ ?_
      rintro _ ⟨⟩
      exact hm'
  | nil =>
      cases suspended with
      | nil => exact .pure hw (by simp)
      | cons outer suspended =>
          obtain ⟨hresult, hd⟩ := hm.suspended outer (by simp)
          have hinner : Owned N W w ⟨outer.frames, outer.result, suspended⟩ :=
            ⟨hm.frames, hresult, fun x hx => hm.suspended x (by simp [hx])⟩
          refine (deliver_guarded hw hinner hm.result hd).bind fun w₁ m' s₁ _ hw₁ hm' => .pure hw₁ ?_
          rintro _ ⟨⟩
          exact hm'

end

/-! ### Runs -/

variable {limit : Nat}

/-- The expression of a frame was no proper list at some time of a run. -/
def Unlisted (limit : Nat) (c₀ c : Machine × Store) (v : Value) : Prop :=
  ∃ c₁, Reaches limit c₀ c₁ ∧ Reaches limit c₁ c ∧ c₁.2.isList v = false ∧
    ∃ g ∈ c₁.1.all, g.expr = v

/-- The machine works on a list with a certain pair that has not been copied, since it was no list
before. -/
def Adopts (limit : Nat) (c₀ c : Machine × Store) (r : Ref) : Prop :=
  ∃ f rest, c.1.frames = f :: rest ∧ c.2.isList f.expr = true ∧ r ∈ c.2.cells f.expr ∧
    Unlisted limit c₀ c f.expr

/-- A pair that may have changed in the course of a run. -/
def Exempt (limit : Nat) (c₀ c : Machine × Store) (r : Ref) : Prop :=
  ∃ c₁, Reaches limit c₀ c₁ ∧ Reaches limit c₁ c ∧ (Mutates c₁ r ∨ Adopts limit c₀ c₁ r)

theorem Unlisted.mono {c₀ c c' : Machine × Store} {v : Value} (h : Unlisted limit c₀ c v)
    (hc : Reaches limit c c') : Unlisted limit c₀ c' v := by
  obtain ⟨c₁, h₀, h₁, h⟩ := h
  exact ⟨c₁, h₀, h₁.trans hc, h⟩

theorem Exempt.mono {c₀ c c' : Machine × Store} {r : Ref} (h : Exempt limit c₀ c r)
    (hc : Reaches limit c c') : Exempt limit c₀ c' r := by
  obtain ⟨c₁, h₀, h₁, h⟩ := h
  exact ⟨c₁, h₀, h₁.trans hc, h⟩

/-- What holds all along a run: frames are owned, the older pairs are as they were, and a list that a
frame evaluates in place was none before. -/
def Orderly (limit : Nat) (s₀ : Store) (c₀ c : Machine × Store) : Prop :=
  ∃ w : Ownership, w.Holds s₀.pairs.size c.2 ∧
    c.1.Owned s₀.pairs.size (Exempt limit c₀ c) w ∧
    s₀.Spares s₀.pairs.size (Exempt limit c₀ c) c.2 ∧
    ∀ g ∈ c.1.all, w.Owned g.expr ∨
      (g.expr.isPair = true → c.2.isList g.expr = true → Unlisted limit c₀ c g.expr)

theorem isPair_of_mem_cells {s : Store} {v : Value} {r : Ref} (h : r ∈ s.cells v) :
    v.isPair = true := by
  unfold Store.cells at h
  generalize s.pairs.size = n at h
  cases v <;> cases n <;> simp_all [Store.cellsWithin, Value.isPair]

/-- The guard for the next step of an orderly run. -/
theorem Orderly.step {s₀ : Store} {c₀ c : Machine × Store} (h₀ : Reaches limit c₀ c) {w : Ownership}
    (hw : w.Holds s₀.pairs.size c.2) (hm : c.1.Owned s₀.pairs.size (Exempt limit c₀ c) w)
    (hlists : ∀ g ∈ c.1.all, w.Owned g.expr ∨
      (g.expr.isPair = true → c.2.isList g.expr = true → Unlisted limit c₀ c g.expr)) :
    Guarded s₀.pairs.size (Exempt limit c₀ c) w c.2 (c.1.step limit) fun w' x s' =>
      ∀ m', x = .inl m' → m'.Owned s₀.pairs.size (Exempt limit c₀ c) w' ∧
        m'.Continues w' s' c.1.all := by
  refine step_guarded hw hm (fun r hr => ⟨c, h₀, .refl c, .inl hr⟩) ?_
  intro f rest hframes hl hown r hr
  have hf : f ∈ c.1.all := by simp [all, hframes]
  refine ⟨c, h₀, .refl c, .inr ⟨f, rest, hframes, hl, hr, ?_⟩⟩
  exact (hlists f hf).resolve_left hown (isPair_of_mem_cells hr) hl

theorem Orderly.next {s₀ : Store} {c₀ c c' : Machine × Store} (h₀ : Reaches limit c₀ c)
    (h : Orderly limit s₀ c₀ c) (hnext : Next limit c c') : Orderly limit s₀ c₀ c' := by
  obtain ⟨w, hw, hm, hspares, hlists⟩ := h
  have hguard := Orderly.step h₀ hw hm hlists
  rw [Guarded, show (c.1.step limit).run c.2 = _ from hnext] at hguard
  obtain ⟨w', hle, hw', hspares', hafter⟩ := hguard
  obtain ⟨hm', hcontinues⟩ := hafter c'.1 rfl
  have hlater : ∀ r, Exempt limit c₀ c r → Exempt limit c₀ c' r := fun r hr => hr.mono hnext.reaches
  refine ⟨w', hw', hm'.mono (.refl w') hlater, (hspares.trans hspares').mono hlater, fun g hg => ?_⟩
  rcases hcontinues g hg with ⟨f, hf, hexpr⟩ | howned | ⟨-, hfresh⟩
  · rw [hexpr]
    rcases hlists f hf with howned | hlist
    · exact .inl (howned.mono hle)
    · refine .inr fun hpair _ => ?_
      cases hl : c.2.isList f.expr with
      | true => exact (hlist hpair hl).mono hnext.reaches
      | false => exact ⟨c, h₀, hnext.reaches, hl, f, hf, rfl⟩
  · exact .inl howned
  · refine .inr fun hpair hl => ?_
    rw [hfresh hpair] at hl
    contradiction

theorem Orderly.reaches {s₀ : Store} {c₀ c : Machine × Store} (h : Orderly limit s₀ c₀ c₀)
    (hc : Reaches limit c₀ c) : Orderly limit s₀ c₀ c := by
  induction hc with
  | refl => exact h
  | tail hprefix hnext ih => exact ih.next hprefix hnext

/-- The first frame is in order. -/
theorem orderly_start {s : Store} (hs : s.Sound) {expr : Value} (hexpr : expr.Within s) {scope : Ref}
    (hscope : scope < s.scopes.size) :
    ∃ m s₁, (start expr scope).run s = .ok m s₁ ∧ Orderly limit s (m, s₁) (m, s₁) := by
  have hguard : ∀ W, Guarded s.pairs.size W (.start s) s (Frame.new expr scope none) _ := fun W =>
    Frame.new_guarded (Ownership.start_holds hs) hexpr.related ⟨rfl, hscope⟩ (by simp)
  simp only [Guarded, Frame.run_new] at hguard
  refine ⟨{ frames := [Frame.fresh scope none (s.copySpine expr).1] }, (s.copySpine expr).2, rfl, ?_⟩
  obtain ⟨w, -, hw, hspares, -, -, hframe, hfresh⟩ := hguard (Exempt limit _ _)
  refine ⟨w, hw, ⟨fun f hf => ?_, .void, (by simp)⟩, hspares, fun g hg => ?_⟩
  · obtain rfl := List.mem_singleton.1 hf
    exact hframe
  · obtain rfl := List.mem_singleton.1 hg
    refine hfresh.imp_right fun hfresh hpair hl => ?_
    rw [hfresh.2 hpair] at hl
    contradiction

/-- The store in the end is that of the last configuration, or what a step that fails makes of it. -/
theorem Orderly.run {s₀ : Store} {c₀ : Machine × Store} (h : Orderly limit s₀ c₀ c₀) (n : Nat)
    {c : Machine × Store} (hc : Reaches limit c₀ c) :
    ∃ c', Reaches limit c₀ c' ∧
      s₀.Spares s₀.pairs.size (Exempt limit c₀ c') ((run limit n c.1).after c.2) := by
  obtain ⟨w, hw, hm, hspares, hlists⟩ := h.reaches hc
  induction n generalizing c w with
  | zero => exact ⟨c, hc, hspares⟩
  | succ n ih =>
      have hguard := (Orderly.step hc hw hm hlists).spares
      cases hstep : (c.1.step limit).run c.2 with
      | ok x s' =>
          cases x with
          | inl m' =>
              have hnext : Next limit c (m', s') := hstep
              have hc' : Reaches limit c₀ (m', s') := hc.trans hnext.reaches
              obtain ⟨w', hw', hm', hspares', hlists'⟩ := h.reaches hc'
              obtain ⟨c', hreach, hafter⟩ := ih hc' w' hw' hm' hspares' hlists'
              refine ⟨c', hreach, ?_⟩
              rwa [Eval.after, Machine.run, Eval.run_bind_ok hstep]
          | inr v =>
              refine ⟨c, hc, hspares.trans ?_⟩
              rw [Eval.after, hstep] at hguard
              rwa [Eval.after, Machine.run, Eval.run_bind_ok hstep]
      | error e s' =>
          refine ⟨c, hc, hspares.trans ?_⟩
          rw [Eval.after, hstep] at hguard
          rwa [Eval.after, Machine.run, Eval.run_bind_error hstep]

/-- The stack machine leaves the pairs alone that were there before, at every moment of an evaluation
and after it, whether it ends in a value, in an error or not at all. Exempt are the pairs that
`set-car!` or `set-cdr!` has been applied to, and those of an expression that was no proper list when
its frame was made and has become one since. -/
theorem eval_keeps_older_pairs {s : Store} (hs : s.Sound) {expr : Value} (hexpr : expr.Within s)
    {scope : Ref} (hscope : scope < s.scopes.size) (limit fuel : Nat) :
    ∃ m s₁, (start expr scope).run s = .ok m s₁ ∧
      (∀ c, Reaches limit (m, s₁) c →
        ∀ r < s.pairs.size, c.2.pair r = s.pair r ∨ Exempt limit (m, s₁) c r) ∧
      ∃ c, Reaches limit (m, s₁) c ∧ ∀ r < s.pairs.size,
        ((eval limit fuel expr scope).after s).pair r = s.pair r ∨ Exempt limit (m, s₁) c r := by
  obtain ⟨m, s₁, hstart, horderly⟩ :
      ∃ m s₁, (start expr scope).run s = .ok m s₁ ∧ Orderly limit s (m, s₁) (m, s₁) :=
    orderly_start hs hexpr hscope
  have heither : ∀ {t : Store} {c : Machine × Store},
      s.Spares s.pairs.size (Exempt limit (m, s₁) c) t →
      ∀ r < s.pairs.size, t.pair r = s.pair r ∨ Exempt limit (m, s₁) c r := by
    intro t c hspares r hr
    by_cases hexempt : Exempt limit (m, s₁) c r
    · exact .inr hexempt
    · exact .inl (hspares r hr hexempt)
  refine ⟨m, s₁, hstart, fun c hc => ?_, ?_⟩
  · obtain ⟨w, -, -, hspares, -⟩ := horderly.reaches hc
    exact heither hspares
  · obtain ⟨c, hc, hspares⟩ := horderly.run fuel (.refl (m, s₁))
    refine ⟨c, hc, heither ?_⟩
    rwa [Eval.after, eval, Eval.run_bind_ok hstart]

theorem eval_keeps_older_pairs_setCar :
    let s : Store := { pairs := #[⟨.integer 1, .nil⟩, ⟨.pair 0, .nil⟩, ⟨.keyword .quote, .pair 1⟩,
      ⟨.integer 2, .nil⟩, ⟨.pair 2, .pair 3⟩, ⟨.native (.lists .setCar), .pair 4⟩], scopes := #[{}] }
    (s.Sound ∧ Value.Within s (.pair 5)) ∧ ∃ m s₁, (start (.pair 5) 0).run s = .ok m s₁ ∧
      (∀ c, Reaches 16 (m, s₁) c → ∀ r < 6, c.2.pair r = s.pair r ∨ Exempt 16 (m, s₁) c r) ∧
      ∃ c, Reaches 16 (m, s₁) c ∧ ∀ r < 6,
        ((eval 16 100 (.pair 5) 0).after s).pair r = s.pair r ∨ Exempt 16 (m, s₁) c r := by
  intro s
  have hscope : ∀ r < s.scopes.size, s.scope r = {} := by
    intro r hr
    obtain rfl : r = 0 := Nat.lt_one_iff.1 hr
    rfl
  have hsound : s.Sound := by
    refine ⟨by decide, by simp [s], by simp [s], fun r hr name v h => ?_, fun r hr p h => ?_,
      fun r hr name c h => ?_, fun r hr c h => ?_, by decide⟩ <;> rw [hscope r hr] at h <;> simp at h
  have hexpr : Value.Within s (.pair 5) := by decide
  exact ⟨⟨hsound, hexpr⟩, eval_keeps_older_pairs hsound hexpr Nat.one_pos 16 100⟩

end Machine
end LittleScheme
