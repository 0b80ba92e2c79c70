import LittleScheme.Proofs.Depth
import LittleScheme.Proofs.Renaming

/-!
# What cannot be told apart

Similar stores show related values alike: whether a value is a list, its elements, its text and
whether it mentions an object. The bounds of the walks differ with the size of the stores, so
each walk is first replaced by one that ends.
-/
namespace LittleScheme

open Value (Related)

namespace Renaming

/-- The renaming read the other way. -/
def inv (ρ : Renaming) : Renaming := fun k a b => ρ k b a

end Renaming

theorem Value.Related.inv {ρ : Renaming} {v w : Value} (h : Related ρ v w) :
    Related ρ.inv w v := by
  cases h <;> constructor <;> assumption

theorem exists_of_mem_left {α β : Type} {R : α → β → Prop} {as : List α} {bs : List β} {a : α}
    (h : List.Forall₂ R as bs) (ha : a ∈ as) : ∃ b, R a b := by
  induction h with
  | nil => simp at ha
  | cons hab _ ih =>
      rcases List.mem_cons.1 ha with rfl | ha
      · exact ⟨_, hab⟩
      · exact ih ha

namespace Similar

variable {ρ : Renaming} {s t : Store}

theorem inv (h : Similar ρ s t) : Similar ρ.inv t s where
  bound _ _ _ hr := (h.bound hr).symm
  functional _ _ _ _ hr hr' := h.injective hr hr'
  injective _ _ _ _ hr hr' := h.functional hr hr'
  alike k a b hr := by
    cases k with
    | string => exact (h.string hr).symm
    | pair => exact ⟨(h.car hr).inv, (h.cdr hr).inv⟩
    | vector => exact (h.vector hr).flip.imp fun _ _ hv => hv.inv
    | bytes => exact (h.bytes hr).symm
    | closure =>
        have hc := h.closure hr
        exact ⟨hc.name.symm, hc.params.symm, hc.rest.symm, hc.scope⟩
    | port => exact (h.port hr).symm
    | scope =>
        have hc := h.scope hr
        refine ⟨⟨fun name => optionRel_flip (hc.bindings name) fun _ _ hv => hv.inv, ?_, ?_, ?_⟩,
          fun p hp => h.right_parent hr hp, fun p hp => h.left_parent hr hp⟩
        · exact optionRel_flip hc.parent fun _ _ hp => hp
        · exact optionRel_flip hc.loop fun _ _ hp => ⟨hp.1.symm, hp.2⟩
        · exact optionRel_flip hc.caller fun _ _ hp => hp
  stdout := h.stdout
  stdin := h.stdin
  console := h.console.symm

theorem ref_eq_iff (h : Similar ρ s t) {k : Kind} {a a' b b' : Ref} (hr : ρ k a b)
    (hr' : ρ k a' b') : a = a' ↔ b = b' :=
  ⟨by rintro rfl; exact h.functional hr hr', by rintro rfl; exact h.injective hr hr'⟩

theorem beq_eq (h : Similar ρ s t) {k : Kind} {a a' b b' : Ref} (hr : ρ k a b) (hr' : ρ k a' b') :
    (a == a') = (b == b') := by
  rw [Bool.eq_iff_iff, beq_iff_eq, beq_iff_eq]
  exact h.ref_eq_iff hr hr'

theorem same_eq (h : Similar ρ s t) {v v' w w' : Value} (hv : Related ρ v w)
    (hv' : Related ρ v' w') : v.same v' = w.same w' := by
  cases hv <;> cases hv' <;>
    first
    | rfl
    | exact h.beq_eq ‹_› ‹_›
    | simp [Value.same]

/-! ### Chains and lists -/

theorem chain (h : Similar ρ s t) {v w tail : Value} {cs : List Ref} (hv : Related ρ v w)
    (hc : s.Chain v cs tail) : ∃ ds tail', t.Chain w ds tail' ∧
      List.Forall₂ (ρ .pair) cs ds ∧ Related ρ tail tail' := by
  induction cs generalizing v w with
  | nil =>
      obtain ⟨rfl, hp⟩ := hc
      exact ⟨[], w, ⟨rfl, hv.isPair_eq ▸ hp⟩, .nil, hv⟩
  | cons r cs ih =>
      obtain ⟨rfl, hc⟩ := hc
      cases hv with
      | @pair _ q hr =>
          obtain ⟨ds, tail', hd, hcells, htail⟩ := ih (h.cdr hr) hc
          exact ⟨q :: ds, tail', ⟨rfl, hd⟩, .cons hr hcells, htail⟩

theorem isList_of_isList (h : Similar ρ s t) {v w : Value} (hv : Related ρ v w)
    (hl : s.isList v = true) : t.isList w = true := by
  obtain ⟨cs, hc⟩ := Store.isList_iff.1 hl
  obtain ⟨ds, tail, hd, -, htail⟩ := h.chain hv hc
  cases htail
  exact Store.isList_iff.2 ⟨ds, hd⟩

theorem isList_eq (h : Similar ρ s t) {v w : Value} (hv : Related ρ v w) :
    s.isList v = t.isList w := by
  rw [Bool.eq_iff_iff]
  exact ⟨h.isList_of_isList hv, h.inv.isList_of_isList hv.inv⟩

theorem map_car (h : Similar ρ s t) {cs ds : List Ref} (hcells : List.Forall₂ (ρ .pair) cs ds) :
    List.Forall₂ (Related ρ) (cs.map s.car) (ds.map t.car) := by
  rw [List.forall₂_map_left_iff, List.forall₂_map_right_iff]
  exact hcells.imp fun _ _ hr => h.car hr

/-- Related lists, pair by pair. -/
theorem listAt (h : Similar ρ s t) {v w : Value} (hv : Related ρ v w) (hl : s.isList v = true) :
    ∃ cs ds, s.ListAt v cs ∧ t.ListAt w ds ∧ List.Forall₂ (ρ .pair) cs ds := by
  obtain ⟨cs, hc⟩ := Store.isList_iff.1 hl
  obtain ⟨ds, tail, hd, hcells, htail⟩ := h.chain hv hc
  cases htail
  refine ⟨cs, ds, ⟨hc, fun r hr => ?_⟩, ⟨hd, fun r hr => ?_⟩, hcells⟩
  · obtain ⟨q, hq⟩ := exists_of_mem_left hcells hr
    exact (h.bound hq).1
  · obtain ⟨q, hq⟩ := exists_of_mem_left hcells.flip hr
    exact (h.bound hq).2

theorem elements? (h : Similar ρ s t) {v w : Value} (hv : Related ρ v w) :
    Option.Rel (List.Forall₂ (Related ρ)) (s.elements? v) (t.elements? w) := by
  cases hl : s.isList v with
  | false =>
      rw [Store.elements?_of_not_isList hl, Store.elements?_of_not_isList (h.isList_eq hv ▸ hl)]
      exact .none
  | true =>
      obtain ⟨cs, ds, hc, hd, hcells⟩ := h.listAt hv hl
      rw [hc.elements?_eq, hd.elements?_eq]
      exact .some (h.map_car hcells)

/-! ### Texts -/

end Similar

/-- Endings that are the same up to a renaming. -/
inductive Store.Ending.Related (ρ : Renaming) : Store.Ending → Store.Ending → Prop
  | proper : Related ρ .proper .proper
  | dotted {v w : Value} (h : Value.Related ρ v w) : Related ρ (.dotted v) (.dotted w)
  | circular : Related ρ .circular .circular

namespace Similar

variable {ρ : Renaming} {s t : Store}

theorem trail (h : Similar ρ s t) {a b : Ref} (hr : ρ .pair a b) (advance : Bool) :
    ρ .pair (s.trail a advance) (t.trail b advance) := by
  unfold Store.trail
  split
  · have hcdr := h.cdr hr
    generalize s.cdr a = v, t.cdr b = w at hcdr
    cases hcdr <;> assumption
  · exact hr

theorem spineWithin (h : Similar ρ s t) (n : Nat) {v w : Value} {a b : Ref} (hv : Related ρ v w)
    (hr : ρ .pair a b) (advance : Bool) :
    List.Forall₂ (Related ρ) (s.spineWithin n v a advance).1 (t.spineWithin n w b advance).1 ∧
      Store.Ending.Related ρ (s.spineWithin n v a advance).2 (t.spineWithin n w b advance).2 := by
  induction n generalizing v w a b advance with
  | zero => exact ⟨.nil, .circular⟩
  | succ n ih =>
      cases hv with
      | nil => exact ⟨.nil, .proper⟩
      | @pair r q hrq =>
          simp only [Store.spineWithin, h.beq_eq hrq hr]
          split
          · exact ⟨.nil, .circular⟩
          · obtain ⟨hitems, hending⟩ := ih (h.cdr hrq) (h.trail hr advance) (!advance)
            exact ⟨.cons (h.car hrq) hitems, hending⟩
      | _ => exact ⟨.nil, .dotted (by constructor <;> assumption)⟩

theorem spine (h : Similar ρ s t) {a b : Ref} (hr : ρ .pair a b) :
    List.Forall₂ (Related ρ) (s.spine a).1 (t.spine b).1 ∧
      Store.Ending.Related ρ (s.spine a).2 (t.spine b).2 := by
  have hs : 2 * s.pairs.size + 2 ≤ 2 * (s.pairs.size + t.pairs.size) + 2 := by omega
  have ht : 2 * t.pairs.size + 2 ≤ 2 * (s.pairs.size + t.pairs.size) + 2 := by omega
  obtain ⟨hitems, hending⟩ := h.spineWithin (2 * (s.pairs.size + t.pairs.size) + 2) (h.cdr hr) hr
    false
  rw [Store.spine_eq hs, Store.spine_eq ht]
  exact ⟨.cons (h.car hr) hitems, hending⟩

theorem parts (h : Similar ρ s t) {v w : Value} (hv : Related ρ v w) :
    List.Forall₂ (Related ρ) (s.parts v) (t.parts w) := by
  cases hv with
  | @pair a b hr =>
      obtain ⟨hitems, hending⟩ := h.spine hr
      simp only [Store.parts]
      generalize s.spine a = x, t.spine b = y at hitems hending
      obtain ⟨items, ending⟩ := x
      obtain ⟨items', ending'⟩ := y
      cases hending with
      | proper | circular => exact hitems
      | dotted htail => exact List.rel_append hitems (.cons htail .nil)
  | vector hr => exact h.vector hr
  | _ => exact .nil

theorem all_eq {α β : Type} {R : α → β → Prop} {p : α → Bool} {q : β → Bool} {as : List α}
    {bs : List β} (h : List.Forall₂ R as bs) (hpq : ∀ a b, R a b → p a = q b) :
    as.all p = bs.all q := by
  induction h with
  | nil => rfl
  | cons hab _ ih => rw [List.all_cons, List.all_cons, hpq _ _ hab, ih]

theorem any_eq {α β : Type} {R : α → β → Prop} {p : α → Bool} {q : β → Bool} {as : List α}
    {bs : List β} (h : List.Forall₂ R as bs) (hpq : ∀ a b, R a b → p a = q b) :
    as.any p = bs.any q := by
  induction h with
  | nil => rfl
  | cons hab _ ih => rw [List.any_cons, List.any_cons, hpq _ _ hab, ih]

theorem map_eq {α β γ : Type} {R : α → β → Prop} {f : α → γ} {g : β → γ} {as : List α}
    {bs : List β} (h : List.Forall₂ R as bs) (hfg : ∀ a b, R a b → f a = g b) :
    as.map f = bs.map g := by
  induction h with
  | nil => rfl
  | cons hab _ ih => rw [List.map_cons, List.map_cons, hfg _ _ hab, ih]

theorem forall₂_zip {α β γ δ : Type} {R : α → β → Prop} {S : γ → δ → Prop} {as : List α}
    {bs : List β} {cs : List γ} {ds : List δ} (h : List.Forall₂ R as bs)
    (h' : List.Forall₂ S cs ds) :
    List.Forall₂ (fun p q => R p.1 q.1 ∧ S p.2 q.2) (as.zip cs) (bs.zip ds) := by
  induction h generalizing cs ds with
  | nil => exact .nil
  | cons hab _ ih =>
      cases h' with
      | nil => exact .nil
      | cons hcd hrest => exact .cons ⟨hab, hcd⟩ (ih hrest)

theorem nestedWithin (h : Similar ρ s t) (n : Nat) {v w : Value} (hv : Related ρ v w) :
    s.nestedWithin n v = t.nestedWithin n w := by
  induction n generalizing v w with
  | zero => rfl
  | succ n ih => exact all_eq (h.parts hv) fun _ _ hp => ih hp

theorem procedureText (h : Similar ρ s t) {v w : Value} (hv : Related ρ v w) :
    s.procedureText v = t.procedureText w := by
  have hname : s.procedureName? v = t.procedureName? w := by
    cases hv with
    | closure hr => exact (h.closure hr).name
    | _ => rfl
  rw [Store.procedureText, Store.procedureText, hname]

theorem textWithin (h : Similar ρ s t) (style : Text.Style) (n : Nat) {v w : Value}
    (hv : Related ρ v w) : s.textWithin style n v = t.textWithin style n w := by
  induction n generalizing v w with
  | zero => rfl
  | succ n ih =>
      cases hv with
      | @pair a b hr =>
          obtain ⟨hitems, hending⟩ := h.spine hr
          simp only [Store.textWithin]
          generalize s.spine a = x, t.spine b = y at hitems hending
          obtain ⟨items, ending⟩ := x
          obtain ⟨items', ending'⟩ := y
          simp only [map_eq hitems fun _ _ hp => ih hp]
          cases hending with
          | proper | circular => rfl
          | dotted htail => simp only [ih htail]
      | @vector a b hr =>
          simp only [Store.textWithin, map_eq (h.vector hr) fun _ _ hp => ih hp]
      | string hr => simp only [Store.textWithin, h.string hr]
      | bytes hr => simp only [Store.textWithin, h.bytes hr]
      | closure hr => exact h.procedureText (.closure hr)
      | _ => rfl

end Similar

/-- Values that are nested and written alike within every bound have the same text. -/
theorem Store.text_eq_of_within {s t : Store} {style : Text.Style} {v w : Value}
    (hn : ∀ n, s.nestedWithin n v = t.nestedWithin n w)
    (ht : ∀ n, s.textWithin style n v = t.textWithin style n w) : s.text style v = t.text style w := by
  cases hs : s.nestedWithin s.depthLimit v with
  | true => rw [Store.text_eq hs, Store.text_eq (hn _ ▸ hs), ht]
  | false =>
      have hnot : t.nestedWithin t.depthLimit w = false := by
        rw [Bool.eq_false_iff]
        intro hw
        rw [← hn] at hw
        rw [Store.nestedWithin_limit hw] at hs
        contradiction
      simp [Store.text, hs, hnot]

namespace Similar

variable {ρ : Renaming} {s t : Store}

theorem text (h : Similar ρ s t) (style : Text.Style) {v w : Value} (hv : Related ρ v w) :
    s.text style v = t.text style w :=
  Store.text_eq_of_within (fun n => h.nestedWithin n hv) fun n => h.textWithin style n hv

theorem written (h : Similar ρ s t) {v w : Value} (hv : Related ρ v w) :
    s.written v = t.written w := h.text .write hv

theorem displayed (h : Similar ρ s t) {v w : Value} (hv : Related ρ v w) :
    s.displayed v = t.displayed w := h.text .display hv

theorem mentionsWithin (h : Similar ρ s t) (n : Nat) {target target' v w : Value}
    (ht : Related ρ target target') (hv : Related ρ v w) :
    s.mentionsWithin target n v = t.mentionsWithin target' n w := by
  induction n generalizing v w with
  | zero => rfl
  | succ n ih =>
      rw [Store.mentionsWithin, Store.mentionsWithin, h.same_eq hv ht,
        any_eq (h.parts hv) fun _ _ hp => ih hp]

theorem mentions (h : Similar ρ s t) {target target' v w : Value} (ht : Related ρ target target')
    (hv : Related ρ v w) : s.mentions target v = t.mentions target' w := by
  rw [Bool.eq_iff_iff, Store.mentions, Store.mentions]
  constructor
  · intro hm
    rw [h.mentionsWithin _ ht hv] at hm
    exact Store.mentionsWithin_limit hm
  · intro hm
    rw [← h.mentionsWithin _ ht hv] at hm
    exact Store.mentionsWithin_limit hm

end Similar
end LittleScheme
