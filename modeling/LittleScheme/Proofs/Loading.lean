import LittleScheme.Proofs.Matching
import LittleScheme.Proofs.Represents

/-!
# Text that is loaded

A text is brought into the store in new pairs, which lead to each other only, so they can be taken as
program text. Similar stores stay similar when the same data are brought into both.
-/
namespace LittleScheme

open Value (Related)

/-! ### The same data on both sides -/

section

variable {ρ : Renaming} {s t : Store}

theorem Made.bind {α β γ δ : Type} {Q : Renaming → α → β → Prop} {Q' : Renaming → γ → δ → Prop}
    {x : α × Store} {y : β × Store} {f : α → Store → γ × Store} {g : β → Store → δ × Store}
    (h : Made ρ s t Q x y)
    (hfg : ∀ ρ', ρ.Le ρ' → Similar ρ' x.2 y.2 → Q ρ' x.1 y.1 →
      Made ρ' x.2 y.2 Q' (f x.1 x.2) (g y.1 y.2)) : Made ρ s t Q' (f x.1 x.2) (g y.1 y.2) := by
  obtain ⟨ρ', hlater, hsim, hq⟩ := h
  obtain ⟨ρ'', hlater', hsim', hq'⟩ := hfg ρ' hlater.le hsim hq
  exact ⟨ρ'', hlater.trans hlater', hsim', hq'⟩

theorem Made.pure {α β : Type} {Q : Renaming → α → β → Prop} {a : α} {b : β} (h : Similar ρ s t)
    (hq : Q ρ a b) : Made ρ s t Q (a, s) (b, t) := ⟨ρ, .refl ρ s t, h, hq⟩

end

namespace Similar

mutual

theorem load {ρ : Renaming} {s t : Store} (h : Similar ρ s t) (d : Datum) :
    Made ρ s t Related (s.load d) (t.load d) := by
  cases d with
  | nil => exact .pure h .nil
  | bool b => exact .pure h (.bool b)
  | number n => exact .pure h (.number n)
  | char c => exact .pure h (.char c)
  | symbol name => exact .pure h (.symbol name)
  | keyword k => exact .pure h (.keyword k)
  | string text => exact h.newString text
  | bytes items => exact h.newBytes items.toArray
  | pair a b =>
      refine .bind (f := fun v s => (s.load b).2.cons v (s.load b).1)
        (g := fun w t => (t.load b).2.cons w (t.load b).1) (load h a) fun ρ' _ h' hv => ?_
      exact .bind (f := fun x s' => s'.cons _ x) (g := fun y t' => t'.cons _ y) (load h' b)
        fun ρ'' hle h'' hx => h''.cons (hv.mono hle) hx
  | vector items =>
      exact .bind (f := fun vs s => s.newVector vs.toArray) (g := fun ws t => t.newVector ws.toArray)
        (loadAll h items) fun ρ' _ h' hvs => h'.newVector hvs

theorem loadAll {ρ : Renaming} {s t : Store} (h : Similar ρ s t) (ds : List Datum) :
    Made ρ s t (fun ρ' => List.Forall₂ (Related ρ')) (s.loadAll ds) (t.loadAll ds) := by
  cases ds with
  | nil => exact .pure h .nil
  | cons d ds =>
      refine .bind (f := fun v s => (v :: (s.loadAll ds).1, (s.loadAll ds).2))
        (g := fun w t => (w :: (t.loadAll ds).1, (t.loadAll ds).2)) (load h d) fun ρ' _ h' hv => ?_
      exact .bind (f := fun vs s' => (_ :: vs, s')) (g := fun ws t' => (_ :: ws, t')) (loadAll h' ds)
        fun ρ'' hle h'' hvs => .pure h'' (.cons (hv.mono hle) hvs)

end

end Similar

/-! ### New text -/

namespace Store

theorem Extends.size_le {s s' : Store} (h : s.Extends s') : s.pairs.size ≤ s'.pairs.size := by
  by_contra hlt
  have hlast : s'.pairs.size < s.pairs.size := Nat.lt_of_not_le hlt
  have hsome := h.pairs (Array.getElem?_eq_getElem hlast)
  exact absurd (Array.getElem?_eq_some_iff.1 hsome).1 (Nat.lt_irrefl _)

theorem Extends.pair_eq {s s' : Store} (h : s.Extends s') {r : Ref} (hr : r < s.pairs.size) :
    s'.pair r = s.pair r := by
  have hsome := Array.getElem?_eq_getElem hr
  rw [pair, pair, Array.getD_eq_getD_getElem?, Array.getD_eq_getD_getElem?, h.pairs hsome, hsome]

/-- The pairs that have been made since. -/
def Between (s s' : Store) (r : Ref) : Prop := s.pairs.size ≤ r ∧ r < s'.pairs.size

end Store

open Store (Between)

theorem Code.mono {T T' : Ref → Prop} {v : Value} (h : Code T v) (hT : ∀ r, T r → T' r) : Code T' v :=
  fun r hr => hT r (h r hr)

/-- New text after new text. -/
theorem TextIn.append {s s₁ s₂ : Store} (h : TextIn (Between s s₁) s₁)
    (h' : TextIn (Between s₁ s₂) s₂) (he : s.Extends s₁) (he' : s₁.Extends s₂) :
    TextIn (Between s s₂) s₂ := by
  rintro r ⟨hlow, hhigh⟩
  by_cases hr : r < s₁.pairs.size
  · have hmono : ∀ r, Between s s₁ r → Between s s₂ r :=
      fun r hr => ⟨hr.1, Nat.lt_of_lt_of_le hr.2 he'.size_le⟩
    obtain ⟨-, hcar, hcdr⟩ := h ⟨hlow, hr⟩
    rw [Store.car_eq_of_pair_eq (he'.pair_eq hr), Store.cdr_eq_of_pair_eq (he'.pair_eq hr)]
    exact ⟨hhigh, hcar.mono hmono, hcdr.mono hmono⟩
  · have hmono : ∀ r, Between s₁ s₂ r → Between s s₂ r :=
      fun r hr => ⟨Nat.le_trans he.size_le hr.1, hr.2⟩
    obtain ⟨-, hcar, hcdr⟩ := h' ⟨Nat.le_of_not_lt hr, hhigh⟩
    exact ⟨hhigh, hcar.mono hmono, hcdr.mono hmono⟩

/-- No pairs have been made. -/
theorem textIn_none {s s' s'' : Store} (h : s'.pairs.size = s.pairs.size) :
    TextIn (Between s s') s'' :=
  fun _ hr => absurd (Nat.lt_of_lt_of_le hr.2 h.le) (Nat.not_lt.2 hr.1)

namespace Store

mutual

/-- The pairs of a datum that is loaded are text. -/
theorem load_text (s : Store) (d : Datum) :
    TextIn (Between s (s.load d).2) (s.load d).2 ∧ Code (Between s (s.load d).2) (s.load d).1 := by
  cases d with
  | pair a b =>
      obtain ⟨hea, -⟩ := load_represents s a
      obtain ⟨heb, -⟩ := load_represents (s.load a).2 b
      obtain ⟨hta, hca⟩ := load_text s a
      obtain ⟨htb, hcb⟩ := load_text (s.load a).2 b
      have htext := hta.append htb hea heb
      have hnew : ((s.load a).2.load b).2.Extends (s.load (.pair a b)).2 :=
        ⟨getElem?_push_of_some, id, id, id⟩
      have hlow := Nat.le_trans hea.size_le heb.size_le
      have hsize : (s.load (.pair a b)).2.pairs.size = ((s.load a).2.load b).2.pairs.size + 1 :=
        Array.size_push _
      have hmono : ∀ r, Between s ((s.load a).2.load b).2 r → Between s (s.load (.pair a b)).2 r :=
        fun r hr => ⟨hr.1, Nat.lt_of_lt_of_le hr.2 hnew.size_le⟩
      refine ⟨?_, ?_⟩
      · rintro r ⟨hr, hr'⟩
        rcases Nat.lt_succ_iff_lt_or_eq.1 (hsize ▸ hr') with hold | rfl
        · obtain ⟨-, hcar, hcdr⟩ := htext ⟨hr, hold⟩
          rw [car_eq_of_pair_eq (hnew.pair_eq hold), cdr_eq_of_pair_eq (hnew.pair_eq hold)]
          exact ⟨hr', hcar.mono hmono, hcdr.mono hmono⟩
        · have hpair : (s.load (.pair a b)).2.pair ((s.load a).2.load b).2.pairs.size =
              ⟨(s.load a).1, ((s.load a).2.load b).1⟩ := pair_pushPair_self _ _ _
          refine ⟨hr', ?_, ?_⟩
          · rw [car, hpair]
            exact hca.mono fun r hr => hmono r ⟨hr.1, Nat.lt_of_lt_of_le hr.2 heb.size_le⟩
          · rw [cdr, hpair]
            exact hcb.mono fun r hr => hmono r ⟨Nat.le_trans hea.size_le hr.1, hr.2⟩
      · rintro _ ⟨⟩
        exact ⟨hlow, hsize ▸ Nat.lt_succ_self _⟩
  | vector items =>
      exact ⟨(loadAll_text s items).1, .of_not_isPair rfl⟩
  | _ => exact ⟨textIn_none rfl, .of_not_isPair rfl⟩

theorem loadAll_text (s : Store) (ds : List Datum) :
    TextIn (Between s (s.loadAll ds).2) (s.loadAll ds).2 ∧
      ∀ v ∈ (s.loadAll ds).1, Code (Between s (s.loadAll ds).2) v := by
  cases ds with
  | nil => exact ⟨textIn_none rfl, by simp [loadAll]⟩
  | cons d ds =>
      obtain ⟨hed, -⟩ := load_represents s d
      obtain ⟨heds, -⟩ := loadAll_represents (s.load d).2 ds
      obtain ⟨htd, hcd⟩ := load_text s d
      obtain ⟨htds, hcds⟩ := loadAll_text (s.load d).2 ds
      refine ⟨htd.append htds hed heds, List.forall_mem_cons.2 ⟨?_, fun v hv => ?_⟩⟩
      · exact hcd.mono fun r hr => ⟨hr.1, Nat.lt_of_lt_of_le hr.2 heds.size_le⟩
      · exact (hcds v hv).mono fun r hr => ⟨Nat.le_trans hed.size_le hr.1, hr.2⟩

end

end Store

/-! ### Matching stores with new text -/

/-- More text, on the left. -/
theorem Matched.addText {T T' K : Ref → Prop} {ρ : Renaming} {s t : Store} (h : Matched T K ρ s t)
    (hT : ∀ r, T r → T' r) (htext : TextIn T' s) : Matched T' K ρ s t where
  similar := h.similar
  text := htext
  reserved := h.reserved
  bodies a b hr := by
    obtain ⟨cs, ds, hne, hlisted, hcs, hds⟩ := h.bodies hr
    refine ⟨cs, ds, hne, hlisted, fun c hc => hT c (hcs c hc), fun d hd => ⟨(hds d hd).1, ?_⟩⟩
    exact (hds d hd).2.imp_right fun ⟨p, hp, hpd⟩ => ⟨p, hT p hp, hpd⟩

/-- The same data are brought into matching stores as text. -/
theorem Matched.loadAll {T K : Ref → Prop} {ρ : Renaming} {s t : Store} (h : Matched T K ρ s t)
    (ds : List Datum) :
    ∃ ρ', ρ.Le ρ' ∧
      Matched (fun r => T r ∨ Between s (s.loadAll ds).2 r) K ρ' (s.loadAll ds).2 (t.loadAll ds).2 ∧
      List.Forall₂ (Related ρ') (s.loadAll ds).1 (t.loadAll ds).1 ∧
      ∀ v ∈ (s.loadAll ds).1, Code (fun r => T r ∨ Between s (s.loadAll ds).2 r) v := by
  obtain ⟨ρ', hlater, hsim, hvs⟩ := h.similar.loadAll ds
  have hafter : After T K (fun _ => False) ρ s t ρ' (s.loadAll ds).2 (t.loadAll ds).2 :=
    .of_later h hlater hsim
  obtain ⟨htext, hcode⟩ := s.loadAll_text ds
  refine ⟨ρ', hlater.le, hafter.matched.addText (fun _ hr => .inl hr) ?_, hvs,
    fun v hv => (hcode v hv).mono fun _ hr => .inr hr⟩
  rintro r (hr | hr)
  · obtain ⟨hbound, hcar, hcdr⟩ := hafter.matched.text hr
    exact ⟨hbound, hcar.mono fun _ hr => .inl hr, hcdr.mono fun _ hr => .inl hr⟩
  · obtain ⟨hbound, hcar, hcdr⟩ := htext hr
    exact ⟨hbound, hcar.mono fun _ hr => .inr hr, hcdr.mono fun _ hr => .inr hr⟩

end LittleScheme
