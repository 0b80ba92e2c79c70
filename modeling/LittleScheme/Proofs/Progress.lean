import LittleScheme.Proofs.Copies
import LittleScheme.Proofs.Traces

/-!
# What the machine does for the recursion

A run of the machine meets an outcome of the recursive evaluator: it comes to deliver a related value,
or to fail for the same reason, in matching stores. When the recursion has only used up its depth,
the machine has taken many steps: each of them stands for a bounded number of recursive calls, a
number that depends on the size of the store alone. So a machine that comes to an end bounds the
depth that the recursion needs.
-/
namespace LittleScheme

open Value (Related)

namespace Machine

variable {limit : Nat}

/-! ### Many steps -/

theorem Steps.trans {i j : Nat} {c c₁ c₂ : Machine × Store} (h : Steps limit i c c₁)
    (h' : Steps limit j c₁ c₂) : Steps limit (i + j) c c₂ := by
  induction i generalizing c with
  | zero =>
      obtain rfl : c = c₁ := h
      rwa [Nat.zero_add]
  | succ i ih =>
      obtain ⟨c', hnext, hrest⟩ := h
      rw [Nat.succ_add]
      exact ⟨c', hnext, ih hrest⟩

theorem Steps.above {k : Nat} {c c' : Machine × Store} (h : Steps limit k c c') (R : List Frame)
    (B : List Suspended) : Steps limit k (c.1.above R B, c.2) (c'.1.above R B, c'.2) := by
  induction k generalizing c with
  | zero =>
      obtain rfl : c = c' := h
      rfl
  | succ k ih =>
      obtain ⟨c₁, hnext, hrest⟩ := h
      exact ⟨_, hnext.above R B, ih hrest⟩

/-- The machine takes so many steps that `n` nested calls are accounted for. -/
def Laps (limit n : Nat) (c : Machine × Store) : Prop :=
  ∃ k c', Steps limit k c c' ∧ c.2.pairs.size ≤ c'.2.pairs.size ∧
    n ≤ (k + 1) * (c'.2.pairs.size + 8)

namespace Laps

variable {m n : Nat} {c c₁ : Machine × Store}

theorem of_le (h : n ≤ c.2.pairs.size + 8) : Laps limit n c :=
  ⟨0, c, rfl, Nat.le_refl _, by omega⟩

theorem mono (h : Laps limit n c) (hm : m ≤ n) : Laps limit m c := by
  obtain ⟨k, c', hsteps, hsize, hn⟩ := h
  exact ⟨k, c', hsteps, hsize, Nat.le_trans hm hn⟩

theorem above (h : Laps limit n c) (R : List Frame) (B : List Suspended) :
    Laps limit n (c.1.above R B, c.2) := by
  obtain ⟨k, c', hsteps, hsize, hn⟩ := h
  exact ⟨k, _, hsteps.above R B, hsize, hn⟩

theorem reaches (h : Reaches limit c c₁) (hsize : c.2.pairs.size ≤ c₁.2.pairs.size)
    (h' : Laps limit n c₁) : Laps limit n c := by
  obtain ⟨i, hi⟩ := h.steps
  obtain ⟨k, c', hsteps, hsize', hn⟩ := h'
  refine ⟨i + k, c', hi.trans hsteps, Nat.le_trans hsize hsize', Nat.le_trans hn ?_⟩
  exact Nat.mul_le_mul_right _ (by omega)

/-- A step accounts for as many calls as there are pairs, and a few more. -/
theorem next (h : Next limit c c₁) (hsize : c.2.pairs.size ≤ c₁.2.pairs.size)
    (h' : Laps limit n c₁) (hm : m ≤ n + (c₁.2.pairs.size + 8)) : Laps limit m c := by
  obtain ⟨k, c', hsteps, hsize', hn⟩ := h'
  refine ⟨k + 1, c', ⟨c₁, h, hsteps⟩, Nat.le_trans hsize hsize', ?_⟩
  rw [Nat.succ_mul]
  omega

end Laps

/-! ### Meeting an outcome -/

/-- From a configuration the machine comes to do what an outcome of the recursion says, in stores that
match from then on. -/
def Meets {α : Type} (limit : Nat) (T K D : Ref → Prop) (ρ : Renaming) (s t : Store) (n : Nat)
    (c : Machine × Store) (Q : Renaming → α → Value → Store → Prop) :
    EStateM.Result Stop Store α → Prop
  | .ok v s' => ∃ ρ' x t', Reaches limit c (⟨[], x, []⟩, t') ∧ After T K D ρ s t ρ' s' t' ∧ Q ρ' v x t'
  | .error e s' =>
      (∃ ρ' c' e' t', Reaches limit c c' ∧ (c'.1.step limit).run c'.2 = .error e' t' ∧
        e'.untraced = e.untraced ∧ ρ.Le ρ' ∧ Matched T (fun _ => False) ρ' s' t') ∨
      e = .outOfFuel ∧ Laps limit n c

namespace Meets

variable {α β : Type} {T K K₁ D D₁ : Ref → Prop} {ρ ρ₁ : Renaming} {s t s₁ t₁ t₀ : Store} {m n : Nat}
  {c c₁ : Machine × Store} {Q : Renaming → α → Value → Store → Prop}
  {Q' : Renaming → β → Value → Store → Prop} {res : EStateM.Result Stop Store α}

theorem mono (h : Meets limit T K D ρ s t n c Q res) (hm : m ≤ n) :
    Meets limit T K D ρ s t m c Q res := by
  cases res with
  | ok v s' => exact h
  | error e s' => exact h.imp_right fun hlaps => ⟨hlaps.1, hlaps.2.mono hm⟩

/-- What went before. -/
theorem after (h : After T K D ρ s t ρ₁ s₁ t₁) (h' : Meets limit T K D ρ₁ s₁ t₁ n c Q res) :
    Meets limit T K D ρ s t n c Q res := by
  cases res with
  | ok v s' =>
      obtain ⟨ρ', x, t', hreaches, hafter, hq⟩ := h'
      exact ⟨ρ', x, t', hreaches, h.trans hafter, hq⟩
  | error e s' =>
      refine h'.imp_left ?_
      rintro ⟨ρ', c', e', t', hreaches, hstep, heq, hle, hmatched⟩
      exact ⟨ρ', c', e', t', hreaches, hstep, heq, h.le.trans hle, hmatched⟩

theorem next (h : Next limit c c₁) (hsize : c.2.pairs.size ≤ c₁.2.pairs.size)
    (h' : Meets limit T K D ρ s t n c₁ Q res) (hm : m ≤ n + (c₁.2.pairs.size + 8)) :
    Meets limit T K D ρ s t m c Q res := by
  cases res with
  | ok v s' =>
      obtain ⟨ρ', x, t', hreaches, hafter, hq⟩ := h'
      exact ⟨ρ', x, t', h.reaches.trans hreaches, hafter, hq⟩
  | error e s' =>
      refine h'.imp ?_ fun hlaps => ⟨hlaps.1, hlaps.2.next h hsize hm⟩
      rintro ⟨ρ', c', e', t', hreaches, hrest⟩
      exact ⟨ρ', c', e', t', h.reaches.trans hreaches, hrest⟩

theorem reaches (h : Reaches limit c c₁) (hsize : c.2.pairs.size ≤ c₁.2.pairs.size)
    (h' : Meets limit T K D ρ s t n c₁ Q res) : Meets limit T K D ρ s t n c Q res := by
  cases res with
  | ok v s' =>
      obtain ⟨ρ', x, t', hreaches, hrest⟩ := h'
      exact ⟨ρ', x, t', h.trans hreaches, hrest⟩
  | error e s' =>
      refine h'.imp ?_ fun hlaps => ⟨hlaps.1, hlaps.2.reaches h hsize⟩
      rintro ⟨ρ', c', e', t', hreaches, hrest⟩
      exact ⟨ρ', c', e', t', h.trans hreaches, hrest⟩

/-- A computation whose result is used by another: the machine first runs on its own, above frames
that then go on. -/
theorem bind {x : Eval α} {g : α → Eval β} {M : Machine} {R : List Frame} {B : List Suspended}
    (hx : Meets limit T K₁ D₁ ρ s t n (M, t) Q (x.run s)) (hK : ∀ q, K q → K₁ q)
    (hD : ∀ q, K q → D₁ q → D q)
    (hg : ∀ v s' ρ' y t', x.run s = .ok v s' → After T K₁ D₁ ρ s t ρ' s' t' → Q ρ' v y t' →
      Meets limit T K D ρ' s' t' n (⟨R, y, B⟩, t') Q' ((g v).run s')) :
    Meets limit T K D ρ s t n (M.above R B, t) Q' ((x >>= g).run s) := by
  cases hxs : x.run s with
  | ok v s' =>
      rw [hxs] at hx
      obtain ⟨ρ', y, t', hreaches, hafter, hq⟩ := hx
      rw [Eval.run_bind_ok hxs]
      exact .after (hafter.mono hK hD) (.reaches (hreaches.above R B) (hafter.right .pair)
        (hg v s' ρ' y t' hxs hafter hq))
  | error e s' =>
      rw [hxs] at hx
      rw [Eval.run_bind_error hxs]
      refine hx.imp ?_ fun hlaps => ⟨hlaps.1, hlaps.2.above R B⟩
      rintro ⟨ρ', c', e', t', hreaches, hstep, heq, hle, hmatched⟩
      obtain ⟨e'', hstep', heq'⟩ := step_error_above hstep R B
      exact ⟨ρ', _, e'', t', hreaches.above R B, hstep', heq'.trans heq, hle, hmatched⟩

/-- The frame on top fails. -/
theorem fail {f : Frame} {R : List Frame} {x : Value} {B : List Suspended} {e : Stop} {s' : Store}
    {ρ' : Renaming} {t' : Store} (hstep : f.step.run t₀ = .error e t') (hle : ρ.Le ρ')
    (h : Matched T K ρ' s' t') :
    Meets limit T K D ρ s t n (⟨f :: R, x, B⟩, t₀) Q (.error e s') := by
  obtain ⟨e', hstep', heq⟩ : ∃ e', (step limit ⟨f :: R, x, B⟩).run t₀ = .error e' t' ∧
      e'.untraced = e.untraced := step_of_frame_error hstep
  exact .inl ⟨ρ', _, e', t', .refl _, hstep', heq, hle, h.mono fun _ hq => hq.elim⟩

end Meets

/-! ### Frames that deliver a value -/

/-- The pair that receives a value. -/
def To (d : Option Ref) (q : Ref) : Prop := d = some q

/-- A value has been delivered: it is in the pair that was to receive it, or it is the result. -/
def Delivers (d : Option Ref) (ρ : Renaming) (v x : Value) (t : Store) : Prop :=
  Related ρ v (d.elim x t.car)

namespace Meets

variable {T K : Ref → Prop} {ρ : Renaming} {s t t₀ : Store} {n : Nat} {f : Frame}

theorem deliver {d : Option Ref} {v w x : Value} {c : Machine × Store} (h : Matched T K ρ s t)
    (hd : ∀ q, d = some q → K q) (hv : Related ρ v w)
    (hnext : ∀ c', ((⟨[], x, []⟩ : Machine).deliver d w).run t = .ok c'.1 c'.2 → Next limit c c') :
    Meets limit T K (To d) ρ s t n c (Delivers d) (.ok v s) := by
  cases d with
  | none => exact ⟨ρ, w, t, (hnext (⟨[], w, []⟩, t) rfl).reaches, .refl h, hv⟩
  | some q =>
      have hto : To (some q) q := rfl
      refine ⟨ρ, x, t.setCar q w, (hnext (⟨[], x, []⟩, t.setCar q w) rfl).reaches,
        .deliver h (hd q rfl) hto w, ?_⟩
      rw [Delivers, Option.elim_some, Store.car_setCar (h.reserved (hd q rfl)).1]
      exact hv

/-- A frame is done. -/
theorem value {v w x : Value} (h : Matched T K ρ s t) (hd : ∀ q, f.destination = some q → K q)
    (hv : Related ρ v w) (hstep : f.step.run t₀ = .ok (.value w) t) :
    Meets limit T K (To f.destination) ρ s t n (⟨[f], x, []⟩, t₀) (Delivers f.destination)
      (.ok v s) :=
  .deliver h hd hv fun _ hc => next_cons_iff.2 ⟨_, _, hstep, hc⟩

/-- The value of a frame is that of a computation that agrees on both sides. -/
theorem agree {y z : Eval Value} {x : Value} (hyz : Agree ρ y z Related) (h : Matched T K ρ s t)
    (hd : ∀ q, f.destination = some q → K q)
    (hstep : f.step.run t₀ = (do return .value (← z) : Eval Frame.Transition).run t) :
    Meets limit T K (To f.destination) ρ s t n (⟨[f], x, []⟩, t₀) (Delivers f.destination)
      (y.run s) := by
  have hagree := hyz s t h.similar
  cases hys : y.run s with
  | ok v s' =>
      cases hzt : z.run t with
      | ok w t' =>
          rw [hys, hzt] at hagree
          obtain ⟨ρ', hlater, hsim, hv⟩ := hagree
          rw [Eval.run_bind_ok hzt] at hstep
          have hafter : After T K (To f.destination) ρ s t ρ' s' t' := .of_later h hlater hsim
          exact .after hafter (.value hafter.matched hd hv hstep)
      | error e t' => rw [hys, hzt] at hagree; exact hagree.elim
  | error e s' =>
      cases hzt : z.run t with
      | ok w t' => rw [hys, hzt] at hagree; exact hagree.elim
      | error e' t' =>
          rw [hys, hzt] at hagree
          obtain ⟨rfl, ρ', hlater, hsim⟩ := hagree
          rw [Eval.run_bind_error hzt] at hstep
          have hafter : After T K (To f.destination) ρ s t ρ' s' t' := .of_later h hlater hsim
          exact .fail hstep hlater.le hafter.matched

end Meets
end Machine
end LittleScheme
