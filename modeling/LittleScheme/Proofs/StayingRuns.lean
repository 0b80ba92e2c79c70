import LittleScheme.Proofs.Invocation
import LittleScheme.Proofs.StayingSteps

/-!
# Runs that stay in their realm

What a step of a frame does is carried along a run by recursion on its length: the operands of a
frame run first, then the frame goes on. A call made on a stack of its own is a run like any other.
So the call of a procedure within reach stays in its realm, by recursion and on a stack of frames.
-/
namespace LittleScheme

namespace Machine

open Realm (Written)

/-- Within some steps a machine stops, or comes to the frames `R` above the stacks `B`. -/
def Comes (limit n : Nat) (m : Machine) (w : Realm) (s : Store) (W : Ref → Prop) (R : List Frame)
    (B : List Suspended) (Q : Nat → Realm → Value → Store → Prop) : Prop :=
  (∃ e s' w', (run limit n m).run s = .error e s' ∧ w.Becomes W s w' s') ∨
    ∃ k x s' w', (run limit n m).run s = (run limit k ⟨R, x, B⟩).run s' ∧ w.Becomes W s w' s' ∧
      w'.Shared x ∧ Q k w' x s'

variable {limit n k : Nat} {m m' : Machine} {w w₁ : Realm} {s s₁ : Store} {W W' W₁ : Ref → Prop}
  {R R' : List Frame} {B B' : List Suspended} {Q Q' : Nat → Realm → Value → Store → Prop}
  {f : Frame} {x : Value} {cs : List Ref}

theorem Comes.of_run (hrun : (run limit n m).run s = (run limit k m').run s₁)
    (hbecomes : w.Becomes W s w₁ s₁) (h : Comes limit k m' w₁ s₁ W' R B Q')
    (hW : ∀ r, W' r → W r ∨ s.pairs.size ≤ r)
    (hQ : ∀ k w' x s', w₁.Becomes W' s₁ w' s' → Q' k w' x s' → Q k w' x s') :
    Comes limit n m w s W R B Q := by
  rw [Comes, hrun]
  rcases h with ⟨e, s', w', herror, hbecomes'⟩ | ⟨k, x, s', w', hrun', hbecomes', hx, hq⟩
  · exact .inl ⟨e, s', w', herror, hbecomes.trans hbecomes' hW⟩
  · exact .inr ⟨k, x, s', w', hrun', hbecomes.trans hbecomes' hW, hx, hQ k w' x s' hbecomes' hq⟩

/-- First the machine comes to some frames, and from there to others. -/
theorem Comes.trans {V : Ref → Prop} (h : Comes limit n m w s W₁ R B Q)
    (h' : ∀ k x w' s', w.Becomes W₁ s w' s' → w'.Shared x → Q k w' x s' →
      Comes limit k ⟨R, x, B⟩ w' s' V R' B' Q')
    (hW₁ : ∀ r, W₁ r → W r ∨ s.pairs.size ≤ r ∨ w.shared .pair r r)
    (hV : ∀ r, V r → W r ∨ s.pairs.size ≤ r) : Comes limit n m w s W R' B' Q' := by
  rcases h with ⟨e, s', w', hrun, hbecomes⟩ | ⟨k, x, s', w', hrun, hbecomes, hx, hq⟩
  · exact .inl ⟨e, s', w', hrun, hbecomes.restrict hW₁⟩
  · exact .of_run hrun (hbecomes.restrict hW₁) (h' k x w' s' hbecomes hx hq) hV fun _ _ _ _ _ hq => hq

theorem Comes.now (hbecomes : w.Becomes W s w₁ s₁) (hx : w₁.Shared x) (hq : Q k w₁ x s₁)
    (hrun : (run limit n m).run s = (run limit k ⟨R, x, B⟩).run s₁) : Comes limit n m w s W R B Q :=
  .inr ⟨k, x, s₁, w₁, hrun, hbecomes, hx, hq⟩

theorem Comes.stops {e : Stop} (hrun : (run limit n m).run s = .error e s₁)
    (hbecomes : w.Becomes W s w₁ s₁) : Comes limit n m w s W R B Q := .inl ⟨e, s₁, w₁, hrun, hbecomes⟩

/-- The value of a frame has been delivered, before the steps allowed were used up. When it went to a
pair the result so far, `x`, is as it was. -/
def Delivered (n : Nat) (d : Option Ref) (x : Value) (s : Store) (k : Nat) (w' : Realm) (x' : Value)
    (s' : Store) : Prop :=
  k < n ∧ ∀ c, d = some c → w'.Arrives s s' c ∧ x' = x

/-- A frame runs to its end: its value has been delivered, and besides what is within reach only its
own pairs have changed. -/
def FrameComes (limit n : Nat) : Prop :=
  ∀ {w : Realm} {s : Store} {f : Frame} {cs : List Ref} {R : List Frame} {x : Value}
    {B : List Suspended}, w.Holds s → w.Ready s f cs → w.shared .scope f.scope f.scope →
    w.Receives s.pairs.size f.destination → (∀ c, f.destination = some c → c ∉ cs) → w.Shared x →
    Comes limit n ⟨f :: R, x, B⟩ w s (fun r => r ∈ cs ∨ f.destination = some r) R B
      (Delivered n f.destination x s)

/-- Frames that are about to begin run one after the other. -/
theorem queue_comes (hframes : ∀ k ≤ n, FrameComes limit k) {P : Value → Prop} {gs : List Frame}
    {a : Nat} (hw : w.Holds s) (hqueue : w.Queue P s a gs) (ha : a ≤ s.pairs.size)
    (hreceives : ∀ g ∈ gs, w.Receives a g.destination) (hx : w.Shared x) (hk : k ≤ n) :
    Comes limit k ⟨gs ++ R, x, B⟩ w s (Written a gs) R B fun k' w' x' s' => k' ≤ k ∧
      (∀ g ∈ gs, ∀ c, g.destination = some c → w'.Arrives s s' c) ∧
      ((∀ g ∈ gs, g.destination ≠ none) → x' = x) := by
  induction gs generalizing w s a x k with
  | nil => exact .now hw.refl hx ⟨Nat.le_refl _, by simp, fun _ => rfl⟩ rfl
  | cons g gs ih =>
      obtain ⟨b, cs, hbegins, hrest⟩ := hqueue
      have hold : ∀ c < a, c ∉ cs := fun c hc hmem => Nat.not_lt.2 (hbegins.cells c hmem).1 hc
      have hdestination : ∀ c, g.destination = some c → c < a :=
        fun c hc => (hreceives g (by simp) c hc).1
      have hfirst : Comes limit k ⟨g :: (gs ++ R), x, B⟩ w s (fun r => r ∈ cs ∨ g.destination = some r)
          (gs ++ R) B (Delivered k g.destination x s) :=
        hframes k hk hw (hbegins.fresh.ready hbegins.pushed) hbegins.scope
          (fun c hc => ⟨Nat.lt_of_lt_of_le (hdestination c hc) ha, (hreceives g (by simp) c hc).2⟩)
          (fun c hc => hold c (hdestination c hc)) hx
      refine hfirst.trans (V := Written b gs) (fun k₁ x₁ w₁ s₁ hbecomes hx₁ hdone => ?_)
        (fun r hr => .inl (hr.imp (fun hmem => (hbegins.cells r hmem).1) fun hd => ⟨g, by simp, hd⟩))
        fun r hr => .inl (hr.imp (Nat.le_trans hbegins.le) fun ⟨h, hh, hd⟩ => ⟨h, by simp [hh], hd⟩)
      have hran : Realm.Ran cs g.destination w s w₁ s₁ := ⟨hbecomes, fun c hc => (hdone.2 c hc).1⟩
      have hrest₁ := hran.queue hw hrest (fun c hc => (hbegins.cells c hc).2)
        fun c hc => Nat.lt_of_lt_of_le (hdestination c hc) hbegins.le
      have hothers := ih hbecomes.holds hrest₁ (Nat.le_trans hbegins.bound (hbecomes.count .pair))
        (fun h hh c hc => by
          obtain ⟨hlt, hreceive⟩ := hran.receives ha (hreceives h (by simp [hh]))
            (fun c hc => hold c (hreceives h (by simp [hh]) c hc).1) c hc
          exact ⟨Nat.lt_of_lt_of_le hlt hbegins.le, hreceive⟩)
        hx₁ (Nat.le_trans (Nat.le_of_lt hdone.1) hk)
      refine .trans hothers (fun k₂ x₂ w₂ s₂ hbecomes₂ hx₂ hdone₂ => .now (W := fun _ => False)
        hbecomes₂.holds.refl hx₂ ⟨Nat.le_trans hdone₂.1 (Nat.le_of_lt hdone.1),
          (hran.all hbegins hreceives ⟨hbecomes₂, hdone₂.2.1⟩).arrives, fun hsome => ?_⟩ rfl)
        (fun _ => .inl) fun _ => False.elim
      obtain ⟨c, hc⟩ := Option.ne_none_iff_exists'.1 (hsome g (by simp))
      rw [hdone₂.2.2 fun h hh => hsome h (by simp [hh]), (hdone.2 c hc).2]

theorem run_succ_ok {t : Frame.Transition} (h : f.step.run s = .ok t s₁) :
    (run limit (n + 1) ⟨f :: R, x, B⟩).run s =
      (advance ⟨R, x, B⟩ f.destination t >>= run limit n).run s₁ := by
  have hstep : step limit ⟨f :: R, x, B⟩ = (traced limit (f :: R) f.step >>= fun transition =>
      advance ⟨R, x, B⟩ f.destination transition >>= fun m => pure (.inl m)) := rfl
  rw [run, hstep]
  simp only [bind_assoc, pure_bind]
  exact Eval.run_bind_ok (run_traced_ok _ h)

theorem run_succ_error {e : Stop} (h : f.step.run s = .error e s₁) :
    (run limit (n + 1) ⟨f :: R, x, B⟩).run s =
      .error (e.withTrace (trace s₁ limit (f :: R))) s₁ := by
  have hstep : step limit ⟨f :: R, x, B⟩ = (traced limit (f :: R) f.step >>= fun transition =>
      advance ⟨R, x, B⟩ f.destination transition >>= fun m => pure (.inl m)) := rfl
  have htraced : (traced limit (f :: R) f.step).run s =
      .error (e.withTrace (trace s₁ limit (f :: R))) s₁ := by rw [run_traced, h]
  rw [run, hstep, Eval.run_bind_error (Eval.run_bind_error htraced)]

theorem run_succ_nil {v : Value} {d : Option Ref} :
    (run limit (n + 1) ⟨[], v, ⟨R, x, d⟩ :: B⟩).run s =
      (deliver ⟨R, x, B⟩ d v >>= run limit n).run s := by
  have hstep : step limit ⟨[], v, ⟨R, x, d⟩ :: B⟩ =
    (deliver ⟨R, x, B⟩ d v >>= fun m => pure (.inl m)) := rfl
  rw [run, hstep]
  simp only [bind_assoc, pure_bind]

/-- A value is delivered to where it is wanted. -/
theorem exists_deliver {v : Value} {d : Option Ref} (hw : w.Holds s) (hd : w.Receives s.pairs.size d)
    (hv : w.Shared v) (hx : w.Shared x) (R : List Frame) (B : List Suspended) :
    ∃ y s', (deliver ⟨R, x, B⟩ d v).run s = .ok ⟨R, y, B⟩ s' ∧
      w.Becomes (fun r => d = some r) s w s' ∧ w.Shared y ∧
      ∀ c, d = some c → w.Arrives s s' c ∧ y = x := by
  cases d with
  | none => exact ⟨v, s, rfl, hw.refl, hv, by simp⟩
  | some c =>
      obtain ⟨hlt, hreceives⟩ := hd c rfl
      refine ⟨x, s.setCar c v, rfl, (hw.deliver hreceives hv).mono fun r hr => congrArg some hr.symm,
        hx, ?_⟩
      rintro _ ⟨⟩
      refine ⟨fun hshared => ?_, rfl⟩
      rw [Store.car_setCar hlt, Store.cdr_setCar]
      exact ⟨hreceives.resolve_left hshared, hv, rfl⟩

/-- A call that a native procedure asks for starts on a stack of its own. -/
theorem exists_inner {procedure : Value} {args : List Value} (hw : w.Holds s)
    (hp : w.Shared procedure) (hargs : ∀ v ∈ args, w.Shared v) (R : List Frame) (x : Value)
    (B : List Suspended) (d : Option Ref) :
    ∃ g cs w' s', (advance ⟨R, x, B⟩ d (.call procedure args)).run s =
        .ok ⟨[g], .void, ⟨R, x, d⟩ :: B⟩ s' ∧
      w.Becomes W s w' s' ∧ g.destination = none ∧
      w'.Begins (Realm.Improper s') s' s.pairs.size g s'.pairs.size cs := by
  have hform := Eval.callForm_stays (W := W) hw hp hargs
  rw [Stays, Eval.run_callForm] at hform
  generalize hmade : (s.quoteAll args).2.list (procedure :: (s.quoteAll args).1) = made at hform
  obtain ⟨form, s₁⟩ := made
  obtain ⟨w₁, hbecomes₁, hshared⟩ := hform
  have hroot := Eval.newRoot_stays (W := W) hbecomes₁.holds
  rw [Stays] at hroot
  obtain ⟨w₂, hbecomes₂, hscope⟩ := hroot
  have hkeeps := Realm.keeps_copySpine (s₁.pushScope {}) form
  have hbecomes := hbecomes₁.trans hbecomes₂ fun _ => .inl
  obtain ⟨cs, hbegins⟩ := hbecomes₂.holds.begins (.inl (hbecomes₂.shared hshared)) hscope none (.refl _)
  refine ⟨_, cs, w₂, _, ?_, hbecomes.trans (hbecomes₂.holds.keeps hkeeps) fun _ => .inl, rfl, hbegins.of_le
    (hbecomes.count .pair)⟩
  have hrun := Eval.run_callForm procedure args s
  rw [hmade] at hrun
  rw [advance, Eval.run_bind_ok hrun]
  rfl

/-- A frame has taken a step. -/
structure Stepped (w : Realm) (s : Store) (f : Frame) (cs : List Ref) (w₁ : Realm) (s₁ : Store) :
    Prop where
  becomes : w.Becomes (· ∈ cs) s w₁ s₁
  receives : w.Receives s.pairs.size f.destination
  apart : ∀ c, f.destination = some c → c ∉ cs

theorem Stepped.receives_after (h : Stepped w s f cs w₁ s₁) : w₁.Receives s.pairs.size f.destination :=
  h.becomes.receives (Nat.le_refl _) h.receives h.apart

theorem Stepped.receives_new (h : Stepped w s f cs w₁ s₁) : w₁.Receives s₁.pairs.size f.destination :=
  fun c hc => ⟨Nat.lt_of_lt_of_le (h.receives c hc).1 (h.becomes.count .pair),
    (h.receives_after c hc).2⟩

section

variable (h : Stepped w s f cs w₁ s₁) (hx : w₁.Shared x)

include h

theorem Stepped.arrives {w₂ : Realm} {s₂ : Store} (hbecomes : w₁.Becomes W s₁ w₂ s₂) {c : Ref}
    (hc : f.destination = some c) (harrives : w₂.Arrives s₁ s₂ c) : w₂.Arrives s s₂ c :=
  h.becomes.arrives hbecomes (h.receives c hc).1 (h.apart c hc) harrives

include hx

theorem Stepped.value_comes {v : Value} (hv : w₁.Shared v)
    (hstep : f.step.run s = .ok (.value v) s₁) :
    Comes limit (n + 1) ⟨f :: R, x, B⟩ w s (fun r => r ∈ cs ∨ f.destination = some r) R B
      (Delivered (n + 1) f.destination x s) := by
  obtain ⟨y, s₂, hrun, hbecomes, hy, harrives⟩ :=
    exists_deliver h.becomes.holds h.receives_new hv hx R B
  exact .now ((h.becomes.mono fun _ => .inl).trans hbecomes fun r hr => .inl (.inr hr)) hy
    ⟨Nat.lt_succ_self n, fun c hc => ⟨h.arrives hbecomes hc (harrives c hc).1, (harrives c hc).2⟩⟩
    ((run_succ_ok hstep).trans (Eval.run_bind_ok hrun))

theorem Stepped.call_comes (hframes : FrameComes limit n) {procedure : Value} {args : List Value}
    (hp : w₁.Shared procedure) (hargs : ∀ v ∈ args, w₁.Shared v)
    (hstep : f.step.run s = .ok (.call procedure args) s₁) :
    Comes limit (n + 1) ⟨f :: R, x, B⟩ w s (fun r => r ∈ cs ∨ f.destination = some r) R B
      (Delivered (n + 1) f.destination x s) := by
  obtain ⟨g, ds, w₂, s₂, hrun, hbecomes, hnone, hbegins⟩ :=
    exists_inner (W := fun _ => False) h.becomes.holds hp hargs R x B f.destination
  have hd : ∀ c, f.destination = some c → c ∉ ds :=
    fun c hc hmem => Nat.not_lt.2 (hbegins.cells c hmem).1 (h.receives_new c hc).1
  have hinner : Comes limit n ⟨[g], .void, ⟨R, x, f.destination⟩ :: B⟩ w₂ s₂
      (fun r => r ∈ ds ∨ g.destination = some r) [] (⟨R, x, f.destination⟩ :: B)
      (Delivered n g.destination .void s₂) :=
    hframes hbecomes.holds (hbegins.fresh.ready hbegins.pushed) hbegins.scope
      (by simp [hnone, Realm.Receives]) (by simp [hnone]) .void
  rw [hnone] at hinner
  have hcomes : Comes limit n ⟨[g], .void, ⟨R, x, f.destination⟩ :: B⟩ w₂ s₂
      (fun r => r ∈ ds ∨ f.destination = some r) R B (Delivered n f.destination x s₁) := by
    refine hinner.trans (V := fun r => f.destination = some r) (fun k y w₃ s₃ hbecomes₃ hy hk => ?_)
      (fun r hr => .inl (.inl (hr.resolve_right nofun))) fun r hr => .inl (.inr hr)
    have hall : w₁.Becomes (· ∈ ds) s₁ w₃ s₃ :=
      (hbecomes.mono fun _ => False.elim).trans hbecomes₃ fun r hr => .inl (hr.resolve_right nofun)
    cases k with
    | zero => exact .stops rfl hbecomes₃.holds.refl
    | succ k =>
        have hreceives : w₃.Receives s₃.pairs.size f.destination := fun c hc => by
          obtain ⟨hlt, hreceives⟩ := hall.receives (Nat.le_refl _) h.receives_new hd c hc
          exact ⟨Nat.lt_of_lt_of_le hlt (hall.count .pair), hreceives⟩
        obtain ⟨z, s₄, hrun₄, hbecomes₄, hz, harrives⟩ :=
          exists_deliver hbecomes₃.holds hreceives hy (hall.shared hx) R B
        exact .now hbecomes₄ hz ⟨Nat.lt_of_succ_lt hk.1, fun c hc => ⟨hall.arrives hbecomes₄
          (h.receives_new c hc).1 (hd c hc) (harrives c hc).1, (harrives c hc).2⟩⟩
          (run_succ_nil.trans (Eval.run_bind_ok hrun₄))
  refine .of_run ((run_succ_ok hstep).trans (Eval.run_bind_ok hrun)) (((h.becomes.mono fun _ => .inl).trans hbecomes
    fun _ => False.elim)) hcomes (fun r hr => ?_) fun k w' y s' hbecomes' hk => ?_
  · exact hr.elim (fun hmem => .inr (Nat.le_trans (h.becomes.count .pair) (hbegins.cells r hmem).1))
      fun hd => .inl (.inr hd)
  · exact ⟨Nat.lt_succ_of_lt hk.1, fun c hc => ⟨h.arrives ((hbecomes.mono
      fun _ => False.elim).trans hbecomes' fun _ => .inl) hc (hk.2 c hc).1, (hk.2 c hc).2⟩⟩

theorem Stepped.replace_comes (hframes : ∀ k ≤ n, FrameComes limit k) {gs : List Frame}
    (hleads : w₁.Leads s.pairs.size (· ∈ cs) f (.replace gs) s₁)
    (hstep : f.step.run s = .ok (.replace gs) s₁) :
    Comes limit (n + 1) ⟨f :: R, x, B⟩ w s (fun r => r ∈ cs ∨ f.destination = some r) R B
      (Delivered (n + 1) f.destination x s) := by
  obtain ⟨hne, hqueue, hdestination⟩ := hleads
  have hcomes := queue_comes (R := R) (B := B) hframes h.becomes.holds hqueue (h.becomes.count .pair)
    (fun g hg => (hdestination g hg).symm ▸ h.receives_after) hx (Nat.le_refl n)
  refine .of_run (run_succ_ok hstep) (h.becomes.mono fun _ => .inl) hcomes (fun r hr => ?_)
    fun k w' y s' hbecomes hdone => ⟨Nat.lt_succ_of_le hdone.1, fun c hc =>
      ⟨h.arrives hbecomes hc ?_, hdone.2.2 fun g hg => by simp [hdestination g hg, hc]⟩⟩
  · rcases hr with hle | ⟨g, hg, hr⟩
    · exact .inr hle
    · exact .inl (.inr (hdestination g hg ▸ hr))
  · obtain ⟨g, gs, rfl⟩ := List.exists_cons_of_ne_nil hne
    exact hdone.2.1 g (by simp) c ((hdestination g (by simp)).trans hc)

theorem Stepped.suspend_comes (hframes : ∀ k ≤ n, FrameComes limit k) {g : Frame} {gs : List Frame}
    (hscope : w.shared .scope f.scope f.scope)
    (hleads : w₁.Leads s.pairs.size (· ∈ cs) f (.suspend g gs) s₁)
    (hstep : f.step.run s = .ok (.suspend g gs) s₁) :
    Comes limit (n + 1) ⟨f :: R, x, B⟩ w s (fun r => r ∈ cs ∨ f.destination = some r) R B
      (Delivered (n + 1) f.destination x s) := by
  obtain ⟨a, ds, hgscope, hgd, hna, ha, hqueue, hds, -, -, hreceives, hready⟩ := hleads
  have hwritten : ∀ r, Written a gs r →
      (r ∈ cs ∨ s.pairs.size ≤ r) ∨ s₁.pairs.size ≤ r ∨ w₁.shared .pair r r := by
    rintro r (hle | ⟨g', hg', hr⟩)
    · exact .inl (.inr (Nat.le_trans hna hle))
    · obtain ⟨c, hc, hlt, ⟨hshared, -⟩ | ⟨-, hmem⟩⟩ := hreceives g' hg'
      · exact .inr (.inr (Option.some.inj (hc.symm.trans hr) ▸ hshared))
      · exact .inl (Option.some.inj (hc.symm.trans hr) ▸ hmem)
  have hd : ∀ c, f.destination = some c → ¬ (c ∈ cs ∨ s.pairs.size ≤ c) := by
    rintro c hc (hmem | hle)
    · exact h.apart c hc hmem
    · exact Nat.not_lt.2 hle (h.receives c hc).1
  have hqueued := queue_comes (R := g :: R) (B := B) hframes h.becomes.holds hqueue ha
    (fun g' hg' c hc => by
      obtain ⟨c', hc', hlt, hreceive⟩ := hreceives g' hg'
      obtain rfl : c' = c := Option.some.inj (hc'.symm.trans hc)
      exact ⟨hlt, hreceive.imp And.left And.left⟩) hx (Nat.le_refl n)
  have hcomes : Comes limit n ⟨gs ++ g :: R, x, B⟩ w₁ s₁
      (fun r => (r ∈ cs ∨ s.pairs.size ≤ r) ∨ f.destination = some r) R B
      (Delivered (n + 1) f.destination x s₁) := by
    refine hqueued.trans (V := fun r => (r ∈ cs ∨ s.pairs.size ≤ r) ∨ f.destination = some r)
      (fun k y w₂ s₂ hbecomes₂ hy hdone => ?_)
      (fun r hr => (hwritten r hr).imp_left .inl) fun _ => .inl
    have hready₂ := hready w₂ s₂ ⟨hbecomes₂, hdone.2.1⟩
    have hbecomes := hbecomes₂.restrict hwritten
    have hreceives₂ : w₂.Receives s₂.pairs.size g.destination := fun c hc => by
      obtain ⟨hlt, hreceive⟩ := hbecomes.receives (Nat.le_refl _) h.receives_new hd c (hgd ▸ hc)
      exact ⟨Nat.lt_of_lt_of_le hlt (hbecomes.count .pair), hreceive⟩
    have hrest : Comes limit k ⟨g :: R, y, B⟩ w₂ s₂ (fun r => r ∈ ds ∨ g.destination = some r) R B
        (Delivered k g.destination y s₂) :=
      hframes k hdone.1 hbecomes.holds hready₂ (hgscope ▸ hbecomes.gains.le (h.becomes.gains.le hscope))
        hreceives₂ (fun c hc hmem => hd c (hgd ▸ hc) (hds c hmem).1) hy
    rw [hgd] at hrest
    have hslot : y = x := hdone.2.2 fun g' hg' => by
      obtain ⟨c, hc, -⟩ := hreceives g' hg'
      simp [hc]
    exact .of_run rfl hbecomes.holds.refl hrest (fun r hr => .inl (hr.imp_left fun hr => (hds r hr).1))
      fun k' w' z s' hbecomes' hk' => ⟨Nat.lt_succ_of_lt (Nat.lt_of_lt_of_le hk'.1 hdone.1), fun c hc =>
        ⟨hbecomes.arrives hbecomes' (h.receives_new c hc).1 (hd c hc) (hk'.2 c hc).1,
          (hk'.2 c hc).2.trans hslot⟩⟩
  refine .of_run (run_succ_ok hstep) (h.becomes.mono fun _ => .inl) hcomes (fun r hr => ?_)
    fun k w' y s' hbecomes' hk => ⟨hk.1, fun c hc =>
      ⟨h.arrives hbecomes' hc (hk.2 c hc).1, (hk.2 c hc).2⟩⟩
  rcases hr with (hmem | hle) | hd
  · exact .inl (.inl hmem)
  · exact .inr hle
  · exact .inl (.inr hd)

end

theorem frame_comes (limit n : Nat) : FrameComes limit n := by
  induction n using Nat.strong_induction_on with
  | _ n ih =>
  intro w s f cs R x B hw hready hscope hd hapart hx
  cases n with
  | zero => exact .stops rfl hw.refl
  | succ n =>
      have hstays := Realm.step_stays (n := s.pairs.size) hw hready hscope (Nat.le_refl _)
      rw [Stays] at hstays
      cases hstep : f.step.run s with
      | error e s₁ =>
          rw [hstep] at hstays
          obtain ⟨w₁, hbecomes⟩ := hstays
          exact .stops (run_succ_error hstep) (hbecomes.mono fun _ => .inl)
      | ok t s₁ =>
          rw [hstep] at hstays
          obtain ⟨w₁, hbecomes, hleads⟩ := hstays
          have hstepped : Stepped w s f cs w₁ s₁ := ⟨hbecomes, hd, hapart⟩
          have hx₁ := hbecomes.shared hx
          have hframes : ∀ k ≤ n, FrameComes limit k := fun k hk => ih k (Nat.lt_succ_of_le hk)
          cases t with
          | value v => exact hstepped.value_comes hx₁ hleads hstep
          | call procedure args =>
              exact hstepped.call_comes hx₁ (hframes n (Nat.le_refl n)) hleads.1 hleads.2 hstep
          | replace gs => exact hstepped.replace_comes hx₁ hframes hleads hstep
          | suspend g gs => exact hstepped.suspend_comes hx₁ hframes hscope hleads hstep

/-- Frames on an otherwise empty machine run to the end. -/
theorem Comes.stays (h : Comes limit n m w s W [] [] Q) :
    Stays W w s (run limit n m) fun w' x s' => w'.Shared x ∧ ∃ k, Q k w' x s' := by
  rcases h with ⟨e, s', w', hrun, hbecomes⟩ | ⟨k, x, s', w', hrun, hbecomes, hx, hq⟩
  · rw [Stays, hrun]
    exact ⟨w', hbecomes⟩
  · cases k with
    | zero =>
        rw [Stays, hrun]
        exact ⟨w', hbecomes⟩
    | succ k => exact .of_ok hrun hbecomes ⟨hx, k + 1, hq⟩

end Machine

/-! ### Evaluation and calls -/

namespace Evaluator

/-- A value comes to where it is wanted: on a stack of frames that may be a pair. -/
def land (e : Evaluator) (d : Option Ref) (v : Value) : Eval Value :=
  match e.strategy, d with
  | .stack, some c => do
      Eval.update fun s => s.setCar c v
      return v
  | _, _ => return v

/-- The value of a body, wanted in a pair or as the result. On a stack of frames the values of all its
expressions go there. -/
def evalBodyTo (e : Evaluator) (fuel : Nat) (d : Option Ref) (body : Value) (scope : Ref) :
    Eval Value :=
  match e.strategy, d with
  | .stack, some c => do
      let _ ← Machine.run e.traceLimit fuel { frames := ← Frame.ofBody body scope (some c) }
      Eval.ask fun s => s.car c
  | _, _ => e.evalBody fuel body scope

/-- The value of a procedure, called where the value is wanted. -/
def callTo (e : Evaluator) (fuel : Nat) (d : Option Ref) (procedure : Value) (args : List Value) :
    Eval Value :=
  match procedure with
  | .native p => do
      match ← p.call args with
      | .value v => e.land d v
      | .call procedure args => do e.land d (← e.apply fuel procedure args)
  | .closure r => do
      let scope ← Eval.enterCall r args
      e.evalBodyTo fuel d (← Eval.ask fun s => (s.closure r).body) scope
  | v => do Eval.fail (.notProcedure (← Eval.written v))

theorem land_none (e : Evaluator) (v : Value) : e.land none v = pure v := by
  unfold land
  split
  · contradiction
  · rfl

theorem land_recursive (limit : Nat) (d : Option Ref) (v : Value) :
    land ⟨.recursive, limit⟩ d v = pure v := rfl

/-- When the value is the result, this is the call itself. -/
theorem callTo_none (e : Evaluator) (fuel : Nat) (procedure : Value) (args : List Value) :
    e.callTo fuel none procedure args = e.call fuel procedure args := by
  cases procedure with
  | native p =>
      refine bind_congr fun reply => ?_
      cases reply with
      | value v => exact e.land_none v
      | call procedure args => simp only [land_none, bind_pure]
  | closure r =>
      refine bind_congr fun scope => bind_congr fun body => ?_
      unfold evalBodyTo
      split
      · contradiction
      · rfl
  | _ => rfl

theorem callTo_recursive (limit fuel : Nat) (d : Option Ref) (procedure : Value) (args : List Value) :
    callTo ⟨.recursive, limit⟩ fuel d procedure args =
      call ⟨.recursive, limit⟩ fuel procedure args := by
  cases procedure with
  | native p =>
      refine bind_congr fun reply => ?_
      cases reply with
      | value v => rfl
      | call procedure args => simp only [land_recursive, bind_pure]
  | _ => rfl

variable {W : Ref → Prop} {w : Realm} {s : Store}

theorem eval_stays (e : Evaluator) (n : Nat) {v : Value} {scope : Ref} (hw : w.Holds s)
    (hv : w.Expr s v) (hscope : w.shared .scope scope scope) :
    Stays W w s (e.eval n v scope) fun w' v _ => w'.Shared v := by
  obtain ⟨strategy, limit⟩ := e
  cases strategy with
  | recursive => exact Direct.eval_stays n v hw hv hscope
  | stack =>
      obtain ⟨cs, hkept, hfresh, -, hcs⟩ := hw.copySpine (W := W) hv
      have hcomes : Machine.Comes limit n ⟨[Frame.fresh scope none (s.copySpine v).1], .void, []⟩ w
          (s.copySpine v).2 (fun r => r ∈ cs ∨ none = some r) [] [] _ :=
        Machine.frame_comes limit n hkept.holds (hfresh.ready rfl) hscope nofun nofun .void
      refine (hcomes.stays.mono fun _ _ _ h => h.1).go_on rfl hkept fun r hr => .inr ?_
      exact (hcs r (hr.resolve_right nofun)).1

theorem apply_stays (e : Evaluator) (n : Nat) {procedure : Value} {args : List Value} (hw : w.Holds s)
    (hp : w.Shared procedure) (hargs : ∀ v ∈ args, w.Shared v) :
    Stays W w s (e.apply n procedure args) fun w' v _ => w'.Shared v := by
  refine (Eval.callForm_stays hw hp hargs).bind fun w₁ form s₁ hbecomes₁ hform => ?_
  refine (Eval.newRoot_stays hbecomes₁.holds).bind fun w₂ root s₂ hbecomes₂ hroot => ?_
  exact e.eval_stays n hbecomes₂.holds (.inl (hbecomes₂.shared hform)) hroot

/-- The value has come to the pair where it was wanted, which is as it was otherwise. -/
def Landed (e : Evaluator) (d : Option Ref) (s : Store) (v : Value) (s' : Store) : Prop :=
  e.strategy = .stack → ∀ c, d = some c → s'.pair c = ⟨v, s.cdr c⟩

/-- Nobody has got at the pair where a value is wanted. -/
def Awaits (w : Realm) (s : Store) (d : Option Ref) : Prop :=
  ∀ c, d = some c → c < s.pairs.size ∧ w.Apart c

/-- A value within reach has been returned. -/
structure Returned (e : Evaluator) (d : Option Ref) (s : Store) (w' : Realm) (v : Value) (s' : Store) :
    Prop where
  shared : w'.Shared v
  awaits : Awaits w' s' d
  landed : e.Landed d s v s'

theorem Awaits.becomes {w' : Realm} {s' : Store} {d : Option Ref} (hd : Awaits w s d)
    (h : w.Becomes W s w' s') (hW : ∀ c, d = some c → ¬ W c) : Awaits w' s' d := fun c hc =>
  ⟨Nat.lt_of_lt_of_le (hd c hc).1 (h.count .pair), h.apart (hd c hc).1 (hd c hc).2 (hW c hc)⟩

/-- What happens before leaves the pair alone. -/
theorem Returned.before {e : Evaluator} {d : Option Ref} {w₁ w' : Realm} {s₁ s' : Store} {v : Value}
    (h : e.Returned d s₁ w' v s') (hbecomes : w.Becomes W s w₁ s₁) (hd : Awaits w s d)
    (hW : ∀ c, d = some c → ¬ W c) : e.Returned d s w' v s' := by
  refine ⟨h.shared, h.awaits, fun hstack c hc => ?_⟩
  have hsame := hbecomes.pair (hd c hc).1 (hd c hc).2.1 (hW c hc)
  rw [h.landed hstack c hc, Store.cdr_eq_of_pair_eq hsame]

theorem land_stays (e : Evaluator) {d : Option Ref} {v : Value} (hw : w.Holds s)
    (hd : Awaits w s d) (hv : w.Shared v) :
    Stays (fun r => d = some r) w s (e.land d v) (e.Returned d s) := by
  unfold land
  split
  · rename_i c _
    obtain ⟨hlt, hapart⟩ := hd c rfl
    refine .of_ok rfl ((hw.deliver (.inr hapart) hv).mono fun r hr => congrArg some hr.symm)
      ⟨hv, ?_, ?_⟩
    · rintro _ ⟨⟩
      exact ⟨by simpa using hlt, hapart⟩
    · rintro - _ ⟨⟩
      rw [Store.pair_setCar, if_pos ⟨rfl, hlt⟩]
      rfl
  · rename_i hnone
    refine .pure hw ⟨hv, hd, ?_⟩
    rintro hstack c rfl
    exact absurd rfl (hnone c hstack)

/-- The frames of a body run to the end. -/
theorem run_ofBody_stays (limit n : Nat) {d : Option Ref} {body : Value} {scope : Ref} (hw : w.Holds s)
    (hd : w.Receives s.pairs.size d) (hpair : body.isPair = true) (hbody : w.Code body)
    (hscope : w.shared .scope scope scope) :
    Stays (fun r => d = some r) w s
      (do Machine.run limit n { frames := ← Frame.ofBody body scope d })
      fun w' x s' => w'.Shared x ∧ ∀ c, d = some c → w'.Arrives s s' c := by
  let gs := (s.copyAll (s.elements body)).1.map (Frame.fresh scope d)
  have hkept := hw.keeps (W := fun r => d = some r) (Realm.keeps_copyAll s (s.elements body))
  have hdestination : ∀ g ∈ gs, g.destination = d := by
    intro g hg
    obtain ⟨x, -, rfl⟩ := List.mem_map.1 hg
    rfl
  have hcomes := Machine.queue_comes (R := []) (B := []) (x := .void) (k := n)
    (fun k _ => Machine.frame_comes limit k) hkept.holds
    (hw.copyAll (hw.elements_expr hbody) hscope d) (hkept.count .pair)
    (fun g hg => (hdestination g hg).symm ▸ hd) .void (Nat.le_refl n)
  rw [List.append_nil] at hcomes
  have hne : gs ≠ [] := by
    rw [Ne, List.map_eq_nil_iff, ← List.length_eq_zero_iff, Store.length_copyAll,
      List.length_eq_zero_iff]
    exact hw.elements_ne_nil hpair hbody
  refine (hcomes.stays.mono ?_).go_on (Eval.run_bind_ok (Frame.run_ofBody body scope d s)) hkept ?_
  · rintro w' x s' ⟨hx, k, hk⟩
    refine ⟨hx, fun c hc => ?_⟩
    obtain ⟨g, hg⟩ := List.exists_mem_of_ne_nil gs hne
    have harrives := hk.2.1 g hg c ((hdestination g hg).trans hc)
    intro hshared
    obtain ⟨hapart, hcar, hcdr⟩ := harrives hshared
    exact ⟨hapart, hcar, hcdr.trans (Store.cdr_eq_of_pair_eq
      ((Realm.keeps_copyAll s _).same .pair c (hd c hc).1))⟩
  · rintro r (hle | ⟨g, hg, hr⟩)
    · exact .inr hle
    · exact .inl (hdestination g hg ▸ hr)

theorem evalBodyTo_stays (e : Evaluator) (n : Nat) {d : Option Ref} {body : Value} {scope : Ref}
    (hw : w.Holds s) (hd : Awaits w s d) (hpair : body.isPair = true) (hbody : w.Code body)
    (hscope : w.shared .scope scope scope) :
    Stays (fun r => d = some r) w s (e.evalBodyTo n d body scope) (e.Returned d s) := by
  have hreceives : w.Receives s.pairs.size d := fun c hc => ⟨(hd c hc).1, .inr (hd c hc).2⟩
  obtain ⟨strategy, limit⟩ := e
  cases strategy with
  | recursive =>
      have hbody : Stays (fun _ => False) w s (Direct.evalBody n .void body scope) _ :=
        Direct.evalBody_stays n .void body hw .void hbody hscope
      rw [← bind_pure (evalBodyTo _ n d body scope)]
      exact hbody.bind_widen (fun _ => False.elim) fun w' v s' hbecomes hv =>
        .pure hbecomes.holds ⟨hv, hd.becomes hbecomes fun _ _ => not_false, nofun⟩
  | stack =>
      have hbody := run_ofBody_stays limit n hw hreceives hpair hbody hscope
      cases d with
      | none => exact hbody.mono fun _ _ _ h => ⟨h.1, nofun, nofun⟩
      | some c =>
          refine .of_run (y := (do Machine.run limit n { frames := ← Frame.ofBody body scope (some c) })
            >>= fun _ => Eval.ask fun s => s.car c) (by simp only [bind_assoc]; rfl) ?_
          refine hbody.bind fun w' x s' hbecomes h => ?_
          obtain ⟨hapart, hcar, hcdr⟩ := h.2 c rfl (hbecomes.not_shared (k := .pair) (hd c rfl).1
            (hd c rfl).2.1)
          refine .of_ok rfl hbecomes.holds.refl ⟨hcar, ?_, ?_⟩
          · rintro _ ⟨⟩
            exact ⟨Nat.lt_of_lt_of_le (hd c rfl).1 (hbecomes.count .pair), hapart⟩
          · rintro - _ ⟨⟩
            rw [← hcdr]
            rfl

/-- The call of a procedure within reach stays in its realm, and writes no other pair than the one its
value is wanted in. -/
theorem callTo_stays (e : Evaluator) (n : Nat) {d : Option Ref} {procedure : Value} {args : List Value}
    (hw : w.Holds s) (hd : Awaits w s d) (hp : w.Shared procedure) (hargs : ∀ v ∈ args, w.Shared v) :
    Stays (fun r => d = some r) w s (e.callTo n d procedure args) (e.Returned d s) := by
  -- What happens before the value is known leaves the pair alone.
  have hbefore : ∀ {w₁ : Realm} {s₁ : Store}, w.Becomes (fun _ => False) s w₁ s₁ → ∀ x : Eval Value,
      Stays (fun r => d = some r) w₁ s₁ x (e.Returned d s₁) →
      Stays (fun r => d = some r) w₁ s₁ x (e.Returned d s) := fun hbecomes x hx =>
    hx.mono fun _ _ _ h => h.before hbecomes hd fun _ _ => not_false
  have hawaits : ∀ {w₁ : Realm} {s₁ : Store}, w.Becomes (fun _ => False) s w₁ s₁ → Awaits w₁ s₁ d :=
    fun hbecomes => hd.becomes hbecomes fun _ _ => not_false
  cases procedure with
  | native p =>
      refine (Native.call_stays hw hargs).bind_widen (V := fun _ => False) (fun _ => False.elim)
        fun w₁ reply s₁ hbecomes₁ hreply => ?_
      cases reply with
      | value v =>
          exact hbefore hbecomes₁ _ (e.land_stays hbecomes₁.holds (hawaits hbecomes₁) hreply)
      | call procedure args =>
          refine (e.apply_stays n hbecomes₁.holds hreply.1 hreply.2).bind_widen (V := fun _ => False)
            (fun _ => False.elim) fun w₂ v s₂ hbecomes₂ hv => ?_
          have hbecomes := hbecomes₁.trans hbecomes₂ fun _ => False.elim
          exact hbefore hbecomes _ (e.land_stays hbecomes.holds (hawaits hbecomes) hv)
  | closure r =>
      cases hp with
      | closure hr =>
          refine (Eval.enterCall_stays hw hr hargs).bind_widen (V := fun _ => False)
            (fun _ => False.elim) fun w₁ scope s₁ hbecomes₁ hscope => .ask_bind ?_
          obtain ⟨hpair, hcode⟩ := hbecomes₁.holds.body (hbecomes₁.gains.le hr)
          exact hbefore hbecomes₁ _ (e.evalBodyTo_stays n hbecomes₁.holds (hawaits hbecomes₁) hpair hcode
            hscope)
  | _ => exact .of_error hw rfl

end Evaluator
end LittleScheme
