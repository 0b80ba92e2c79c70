import LittleScheme.Proofs.Procedures

/-!
# Matching states of the two evaluators

The recursive evaluator follows the pairs of the program text itself; the stack machine works on copies
in pairs of its own. Their stores match when they are similar, the text is a set of pairs closed under
following references, and the body of a closure is on both sides a list of the same expressions: on
the left it is text, on the right it is held in text or in pairs that nothing else refers to and that
are not in use any more. The pairs in use are reserved for the frames that work with them.
-/
namespace LittleScheme

open Value (Related)

/-! ### Pairs that only one side knows -/

namespace Renaming

/-- No pair of the second store corresponds to the pair. -/
def LeftFree (ρ : Renaming) (p : Ref) : Prop := ∀ q, ¬ ρ .pair p q

/-- No pair of the first store corresponds to the pair. -/
def RightFree (ρ : Renaming) (q : Ref) : Prop := ∀ p, ¬ ρ .pair p q

end Renaming

section

variable {ρ ρ' : Renaming} {s t s' t' : Store} {r : Ref}

theorem Gains.leftFree (h : Gains ρ s t ρ') (hr : r < s.pairs.size) (hfree : ρ.LeftFree r) :
    ρ'.LeftFree r := by
  intro q hq
  rcases h.fresh hq with hold | ⟨hnew, -⟩
  · exact hfree q hold
  · exact Nat.not_lt.2 hnew hr

theorem Gains.rightFree (h : Gains ρ s t ρ') (hr : r < t.pairs.size) (hfree : ρ.RightFree r) :
    ρ'.RightFree r := by
  intro p hp
  rcases h.fresh hp with hold | ⟨-, hnew⟩
  · exact hfree p hold
  · exact Nat.not_lt.2 hnew hr

theorem Similar.leftFree (h : Similar ρ s t) (hr : s.pairs.size ≤ r) : ρ.LeftFree r :=
  fun _ hq => Nat.not_lt.2 hr (h.bound hq).1

theorem Similar.rightFree (h : Similar ρ s t) (hr : t.pairs.size ≤ r) : ρ.RightFree r :=
  fun _ hp => Nat.not_lt.2 hr (h.bound hp).2

end

theorem forall₂_imp_mem {α β : Type} {R S : α → β → Prop} {as : List α} {bs : List β}
    (h : List.Forall₂ R as bs) (hRS : ∀ a ∈ as, ∀ b ∈ bs, R a b → S a b) : List.Forall₂ S as bs := by
  induction h with
  | nil => exact .nil
  | cons hab _ ih =>
      refine .cons (hRS _ (by simp) _ (by simp) hab) (ih fun a ha b hb => ?_)
      exact hRS a (by simp [ha]) b (by simp [hb])

/-- Lists whose pairs stay as they are. -/
theorem Listed.later {ρ ρ' : Renaming} {s t s' t' : Store} {v w : Value} {cs ds : List Ref}
    (h : Listed ρ s t v w cs ds) (hle : ρ.Le ρ') (hs : s.pairs.size ≤ s'.pairs.size)
    (ht : t.pairs.size ≤ t'.pairs.size) (hleft : ∀ c ∈ cs, s'.pair c = s.pair c)
    (hright : ∀ d ∈ ds, t'.pair d = t.pair d) : Listed ρ' s' t' v w cs ds where
  left := h.left.congr (fun c hc => Store.cdr_eq_of_pair_eq (hleft c hc)) hs
  right := h.right.congr (fun d hd => Store.cdr_eq_of_pair_eq (hright d hd)) ht
  elements := by
    refine forall₂_imp_mem h.elements fun c hc d hd hcd => ?_
    rw [Store.car_eq_of_pair_eq (hleft c hc), Store.car_eq_of_pair_eq (hright d hd)]
    exact hcd.mono hle

/-! ### Program text -/

/-- A value that leads into the text if it is a pair. -/
def Code (T : Ref → Prop) (v : Value) : Prop := ∀ r, v = .pair r → T r

theorem Code.of_not_isPair {T : Ref → Prop} {v : Value} (h : v.isPair = false) : Code T v := by
  rintro r rfl
  simp [Value.isPair] at h

/-- The text is in the store, and what its pairs refer to belongs to it. -/
def TextIn (T : Ref → Prop) (s : Store) : Prop :=
  ∀ ⦃r⦄, T r → r < s.pairs.size ∧ Code T (s.car r) ∧ Code T (s.cdr r)

namespace TextIn

variable {T : Ref → Prop} {s s' : Store} {v tail : Value} {cs : List Ref}

theorem congr (h : TextIn T s) (hsame : ∀ r, T r → s'.pair r = s.pair r)
    (hsize : s.pairs.size ≤ s'.pairs.size) : TextIn T s' := by
  intro r hr
  obtain ⟨hbound, hcar, hcdr⟩ := h hr
  rw [Store.car_eq_of_pair_eq (hsame r hr), Store.cdr_eq_of_pair_eq (hsame r hr)]
  exact ⟨Nat.lt_of_lt_of_le hbound hsize, hcar, hcdr⟩

theorem chain (h : TextIn T s) (hv : Code T v) (hchain : s.Chain v cs tail) : ∀ c ∈ cs, T c := by
  induction cs generalizing v with
  | nil => simp
  | cons r cs ih =>
      obtain ⟨rfl, hchain⟩ := hchain
      have hr := hv r rfl
      exact List.forall_mem_cons.2 ⟨hr, ih (h hr).2.2 hchain⟩

theorem isList (h : TextIn T s) (hsame : ∀ r, T r → s'.pair r = s.pair r) (hv : Code T v)
    (hlist : s.isList v = true) : s'.isList v = true := by
  obtain ⟨cs, hchain⟩ := Store.isList_iff.1 hlist
  have hcs := h.chain hv hchain
  exact Store.isList_iff.2 ⟨cs, hchain.congr fun r hr =>
    Store.cdr_eq_of_pair_eq (hsame r (hcs r hr))⟩

/-- Text that stays as it is stays a proper list, or none. -/
theorem isList_eq (h : TextIn T s) (hsame : ∀ r, T r → s'.pair r = s.pair r)
    (hsize : s.pairs.size ≤ s'.pairs.size) (hv : Code T v) : s'.isList v = s.isList v := by
  refine Bool.eq_iff_iff.2 ⟨fun hlist => ?_, h.isList hsame hv⟩
  exact (h.congr hsame hsize).isList (fun r hr => (hsame r hr).symm) hv hlist

theorem listAt (h : TextIn T s) {v : Value} {cs : List Ref} (hv : Code T v) (hlist : s.ListAt v cs) :
    ∀ c ∈ cs, T c ∧ Code T (s.car c) := by
  intro c hc
  have hT := h.chain hv hlist.1 c hc
  exact ⟨hT, (h hT).2.1⟩

end TextIn

/-! ### Matching stores -/

/-- A list of the same expressions on both sides: on the left it is text, on the right it is held in
pairs that are not in use. -/
def Settled (T K : Ref → Prop) (ρ : Renaming) (s t : Store) (v w : Value) : Prop :=
  ∃ cs ds, cs ≠ [] ∧ Listed ρ s t v w cs ds ∧ (∀ c ∈ cs, T c) ∧
    ∀ d ∈ ds, ¬ K d ∧ (ρ.RightFree d ∨ ∃ p, T p ∧ ρ .pair p d)

/-- The stores match along a renaming, with `T` the pairs of the text on the left and `K` the pairs in
use on the right. -/
structure Matched (T K : Ref → Prop) (ρ : Renaming) (s t : Store) : Prop where
  similar : Similar ρ s t
  text : TextIn T s
  reserved : ∀ ⦃q⦄, K q → q < t.pairs.size ∧ ρ.RightFree q
  bodies : ∀ ⦃a b⦄, ρ .closure a b → Settled T K ρ s t (s.closure a).body (t.closure b).body

namespace Matched

variable {T K K' : Ref → Prop} {ρ ρ' : Renaming} {s t s' t' : Store}

theorem mono (h : Matched T K ρ s t) (hK : ∀ q, K' q → K q) : Matched T K' ρ s t where
  similar := h.similar
  text := h.text
  reserved q hq := h.reserved (hK q hq)
  bodies a b hr := by
    obtain ⟨cs, ds, hne, hlisted, hcs, hds⟩ := h.bodies hr
    exact ⟨cs, ds, hne, hlisted, hcs, fun d hd => ⟨fun hk => (hds d hd).1 (hK d hk), (hds d hd).2⟩⟩

/-- Stores match after a change that leaves the text and the settled pairs alone. More pairs may be
in use, if they are new, and more closures may be related, if their bodies are settled. -/
theorem advance (h : Matched T K ρ s t) (hsim : Similar ρ' s' t') (hgains : Gains ρ s t ρ')
    (hs : s.pairs.size ≤ s'.pairs.size) (ht : t.pairs.size ≤ t'.pairs.size)
    (hleft : ∀ r, T r → s'.pair r = s.pair r)
    (hright : ∀ d < t.pairs.size, ¬ K d → (ρ.RightFree d ∨ ∃ p, T p ∧ ρ .pair p d) →
      t'.pair d = t.pair d)
    (hK : ∀ q, K' q → K q ∨ t.pairs.size ≤ q ∧ q < t'.pairs.size ∧ ρ'.RightFree q)
    (hbodies : ∀ ⦃a b⦄, ρ' .closure a b →
      (ρ .closure a b ∧ (s'.closure a).body = (s.closure a).body ∧
        (t'.closure b).body = (t.closure b).body) ∨
      Settled T K' ρ' s' t' (s'.closure a).body (t'.closure b).body) :
    Matched T K' ρ' s' t' where
  similar := hsim
  text := h.text.congr hleft hs
  reserved q hq := by
    rcases hK q hq with hold | ⟨-, hnew⟩
    · obtain ⟨hbound, hfree⟩ := h.reserved hold
      exact ⟨Nat.lt_of_lt_of_le hbound ht, hgains.rightFree hbound hfree⟩
    · exact hnew
  bodies a b hr := by
    rcases hbodies hr with ⟨hold, hl, hr⟩ | hnew
    · rw [hl, hr]
      obtain ⟨cs, ds, hne, hlisted, hcs, hds⟩ := h.bodies hold
      have hbound := hlisted.right.2
      have hsame : ∀ d ∈ ds, t'.pair d = t.pair d := fun d hd =>
        hright d (hbound d hd) (hds d hd).1 (hds d hd).2
      have hlater := hlisted.later hgains.le hs ht (fun c hc => hleft c (hcs c hc)) hsame
      refine ⟨cs, ds, hne, hlater, hcs, fun d hd => ⟨fun hk => ?_, ?_⟩⟩
      · rcases hK d hk with hk | ⟨hnew, -⟩
        · exact (hds d hd).1 hk
        · exact Nat.not_lt.2 hnew (hbound d hd)
      · rcases (hds d hd).2 with hfree | ⟨p, hp, hpd⟩
        · exact .inl (hgains.rightFree (hbound d hd) hfree)
        · exact .inr ⟨p, hp, hgains.le hpd⟩
    · exact hnew

/-- A pair in use may be changed. -/
theorem write (h : Matched T K ρ s t) {c : Ref} (hc : K c)
    (hsame : ∀ k r, ¬ (k = .pair ∧ r = c) → t.SameAt t' k r) (hcount : ∀ k, t'.count k = t.count k)
    (hconsole : t'.console = t.console) : Matched T K ρ s t' := by
  have hfree := (h.reserved hc).2
  have hsim : Similar ρ s t' := by
    refine h.similar.congr (fun k a _ _ => .refl s k a) (fun k a b hr => hsame k b ?_)
      (fun _ => Nat.le_refl _) (fun k => (hcount k).ge) (by rw [hconsole, h.similar.console])
    rintro ⟨rfl, rfl⟩
    exact hfree a hr
  refine h.advance hsim ⟨.refl ρ, fun _ _ _ hr => .inl hr⟩ (Nat.le_refl _) (hcount .pair).ge
    (fun _ _ => rfl) (fun d _ hd _ => ?_) (fun _ hq => .inl hq) fun a b hr => .inl ⟨hr, rfl, ?_⟩
  · refine hsame .pair d ?_
    rintro ⟨-, rfl⟩
    exact hd hc
  · have hclosure : t'.closure b = t.closure b := hsame .closure b (by simp)
    rw [hclosure]

theorem setCar (h : Matched T K ρ s t) {c : Ref} (hc : K c) (v : Value) :
    Matched T K ρ s (t.setCar c v) :=
  h.write hc (fun _ _ hk => t.sameAt_setCar hk v) (t.count_setCar c v) rfl

theorem setCdr (h : Matched T K ρ s t) {c : Ref} (hc : K c) (v : Value) :
    Matched T K ρ s (t.setCdr c v) :=
  h.write hc (fun _ _ hk => t.sameAt_setCdr hk v) (t.count_setCdr c v) rfl

/-- Objects may be made that the renaming does not mention, and new pairs may be put to use. -/
theorem keeps (h : Matched T K ρ s t) (hs : s.Keeps s') (ht : t.Keeps t')
    (hconsole : s'.console = t'.console)
    (hK : ∀ q, K' q → K q ∨ t.pairs.size ≤ q ∧ q < t'.pairs.size) : Matched T K' ρ s' t' := by
  have hsim : Similar ρ s' t' := h.similar.congr
    (fun k a b hr => hs.same k a (h.similar.bound hr).1)
    (fun k a b hr => ht.same k b (h.similar.bound hr).2) hs.count ht.count hconsole
  refine h.advance hsim ⟨.refl ρ, fun _ _ _ hr => .inl hr⟩ (hs.count .pair) (ht.count .pair)
    (fun r hr => hs.same .pair r (h.text hr).1) (fun d hd _ _ => ht.same .pair d hd)
    (fun q hq => ?_) fun a b hr => .inl ⟨hr, ?_, ?_⟩
  · rcases hK q hq with hold | ⟨hnew, hbound⟩
    · exact .inl hold
    · exact .inr ⟨hnew, hbound, h.similar.rightFree hnew⟩
  · have hclosure : s'.closure a = s.closure a := hs.same .closure a (h.similar.bound hr).1
    rw [hclosure]
  · have hclosure : t'.closure b = t.closure b := ht.same .closure b (h.similar.bound hr).2
    rw [hclosure]

end Matched

/-! ### One state after another -/

/-- The stores match again later. On the left the text and the pairs that only the left side knows
are as they were; on the right the pairs in use are, except that those in `D` have received values. -/
structure After (T K D : Ref → Prop) (ρ : Renaming) (s t : Store) (ρ' : Renaming) (s' t' : Store) :
    Prop extends Gains ρ s t ρ' where
  matched : Matched T K ρ' s' t'
  left : ∀ k, s.count k ≤ s'.count k
  right : ∀ k, t.count k ≤ t'.count k
  fixed : ∀ p < s.pairs.size, T p ∨ ρ.LeftFree p → s'.pair p = s.pair p
  rests : ∀ q, K q → t'.cdr q = t.cdr q
  spared : ∀ q, K q → ¬ D q → t'.car q = t.car q

namespace After

variable {T K K' D D' : Ref → Prop} {ρ ρ₁ ρ₂ : Renaming} {s t s₁ t₁ s₂ t₂ : Store}

theorem refl (h : Matched T K ρ s t) : After T K D ρ s t ρ s t where
  le := .refl ρ
  fresh _ _ _ hr := .inl hr
  matched := h
  left _ := Nat.le_refl _
  right _ := Nat.le_refl _
  fixed _ _ _ := rfl
  rests _ _ := rfl
  spared _ _ _ := rfl

theorem trans (h : After T K D ρ s t ρ₁ s₁ t₁) (h' : After T K D ρ₁ s₁ t₁ ρ₂ s₂ t₂) :
    After T K D ρ s t ρ₂ s₂ t₂ where
  toGains := h.toGains.trans h'.toGains h.left h.right
  matched := h'.matched
  left k := Nat.le_trans (h.left k) (h'.left k)
  right k := Nat.le_trans (h.right k) (h'.right k)
  fixed p hp hfree := by
    refine (h'.fixed p (Nat.lt_of_lt_of_le hp (h.left .pair)) ?_).trans (h.fixed p hp hfree)
    exact hfree.imp_right (h.leftFree hp)
  rests q hq := (h'.rests q hq).trans (h.rests q hq)
  spared q hq hD := (h'.spared q hq hD).trans (h.spared q hq hD)

theorem mono (h : After T K D ρ s t ρ₁ s₁ t₁) (hK : ∀ q, K' q → K q) (hD : ∀ q, K' q → D q → D' q) :
    After T K' D' ρ s t ρ₁ s₁ t₁ where
  toGains := h.toGains
  matched := h.matched.mono hK
  left := h.left
  right := h.right
  fixed := h.fixed
  rests q hq := h.rests q (hK q hq)
  spared q hq hnot := h.spared q (hK q hq) fun hd => hnot (hD q hq hd)

/-- Only the right side has changed, in pairs that are not in use. -/
theorem of_right (h : Matched T K ρ s t₁) (hcount : ∀ k, t.count k ≤ t₁.count k)
    (hsame : ∀ q, K q → t₁.pair q = t.pair q) : After T K D ρ s t ρ s t₁ where
  le := .refl ρ
  fresh _ _ _ hr := .inl hr
  matched := h
  left _ := Nat.le_refl _
  right := hcount
  fixed _ _ _ := rfl
  rests q hq := Store.cdr_eq_of_pair_eq (hsame q hq)
  spared q hq _ := Store.car_eq_of_pair_eq (hsame q hq)

/-- A pair in use has received a value. -/
theorem deliver (h : Matched T K ρ s t) {c : Ref} (hc : K c) (hD : D c) (v : Value) :
    After T K D ρ s t ρ s (t.setCar c v) where
  le := .refl ρ
  fresh _ _ _ hr := .inl hr
  matched := h.setCar hc v
  left _ := Nat.le_refl _
  right k := (t.count_setCar c v k).ge
  fixed _ _ _ := rfl
  rests q _ := Store.cdr_setCar c q v
  spared q _ hnot := by
    refine Store.car_setCar_ne ?_ v
    rintro rfl
    exact hnot hD

/-- Both sides have grown in the same way. -/
theorem of_later (h : Matched T K ρ s t) (hlater : Later ρ s t ρ₁ s₁ t₁) (hsim : Similar ρ₁ s₁ t₁) :
    After T K D ρ s t ρ₁ s₁ t₁ where
  toGains := hlater.toGains
  matched := by
    refine h.advance hsim hlater.toGains (hlater.left.count .pair) (hlater.right.count .pair)
      (fun r hr => hlater.left.pair r (h.text hr).1) (fun d hd _ _ => hlater.right.pair d hd)
      (fun _ hq => .inl hq) fun a b hr => .inl ⟨?_, ?_, ?_⟩
    · rcases hlater.fresh hr with hold | ⟨hnew, -⟩
      · exact hold
      · have hbound := (hsim.bound hr).1
        rw [Store.count, hlater.left.closures] at hbound
        exact absurd hbound (Nat.not_lt.2 hnew)
    · rw [Store.closure, hlater.left.closures, Store.closure]
    · rw [Store.closure, hlater.right.closures, Store.closure]
  left := hlater.left.count
  right := hlater.right.count
  fixed p hp _ := hlater.left.pair p hp
  rests q hq := Store.cdr_eq_of_pair_eq (hlater.right.pair q (h.reserved hq).1)
  spared q hq _ := Store.car_eq_of_pair_eq (hlater.right.pair q (h.reserved hq).1)

/-- Objects have been made that the renaming does not mention. -/
theorem of_keeps (h : Matched T K ρ s t) (hs : s.Keeps s₁) (ht : t.Keeps t₁)
    (hconsole : s₁.console = t₁.console) : After T K D ρ s t ρ s₁ t₁ where
  le := .refl ρ
  fresh _ _ _ hr := .inl hr
  matched := h.keeps hs ht hconsole fun _ hq => .inl hq
  left := hs.count
  right := ht.count
  fixed p hp _ := hs.same .pair p hp
  rests q hq := Store.cdr_eq_of_pair_eq (ht.same .pair q (h.reserved hq).1)
  spared q hq _ := Store.car_eq_of_pair_eq (ht.same .pair q (h.reserved hq).1)

/-- A closure has been made on both sides. The pairs that hold its body are not in use any more. -/
theorem of_closureMade (h : Matched T K ρ s t) {cs ds : List Ref} {p q : Value}
    (hcs : ∀ c ∈ cs, T c) (hds : ∀ d ∈ ds, ¬ K d ∧ ρ.RightFree d)
    (hmade : ClosureMade ρ s t cs ds ρ₁ s₁ t₁ p q) : After T K D ρ s t ρ₁ s₁ t₁ where
  toGains := hmade.gains
  matched := by
    refine h.advance hmade.similar hmade.gains (hmade.left.count .pair) (hmade.right.count .pair)
      (fun r hr => hmade.left.same .pair r (h.text hr).1)
      (fun d hd _ _ => hmade.right.same .pair d hd) (fun _ hq => .inl hq) fun a b hr => ?_
    rcases hmade.bodies hr with hold | ⟨cs', ds', hne, hcs', hds', hlisted⟩
    · have hbound := h.similar.bound hold
      have hleft : s₁.closure a = s.closure a := hmade.left.same .closure a hbound.1
      have hright : t₁.closure b = t.closure b := hmade.right.same .closure b hbound.2
      exact .inl ⟨hold, by rw [hleft], by rw [hright]⟩
    · refine .inr ⟨cs', ds', hne, ?_, fun c hc => hcs c (hcs'.subset hc), fun d hd => ?_⟩
      · exact hlisted.later hmade.gains.le (hmade.left.count .pair) (hmade.right.count .pair)
          (fun c hc => hmade.left.same .pair c (hlisted.left.2 c hc))
          fun d hd => hmade.right.same .pair d (hlisted.right.2 d hd)
      · obtain ⟨hk, hfree⟩ := hds d (hds'.subset hd)
        exact ⟨hk, .inl (hmade.gains.rightFree (hlisted.right.2 d hd) hfree)⟩
  left := hmade.left.count
  right := hmade.right.count
  fixed p hp _ := hmade.left.same .pair p hp
  rests q hq := Store.cdr_eq_of_pair_eq (hmade.right.same .pair q (h.reserved hq).1)
  spared q hq _ := Store.car_eq_of_pair_eq (hmade.right.same .pair q (h.reserved hq).1)

/-- Related pairs that are not text have been changed in the same way. -/
theorem of_change (h : Matched T K ρ s t) {a b : Ref} (hr : ρ .pair a b) (hT : ¬ T a)
    (hsim : Similar ρ s₁ t₁) (hs : ∀ k r, ¬ (k = .pair ∧ r = a) → s.SameAt s₁ k r)
    (ht : ∀ k r, ¬ (k = .pair ∧ r = b) → t.SameAt t₁ k r) (hcs : ∀ k, s₁.count k = s.count k)
    (hct : ∀ k, t₁.count k = t.count k) : After T K D ρ s t ρ s₁ t₁ := by
  have hleft : ∀ r, T r → s₁.pair r = s.pair r := by
    intro r hr'
    refine hs .pair r ?_
    rintro ⟨-, rfl⟩
    exact hT hr'
  have hright : ∀ d, ρ.RightFree d ∨ (∃ p, T p ∧ ρ .pair p d) → t₁.pair d = t.pair d := by
    intro d hd
    refine ht .pair d ?_
    rintro ⟨-, rfl⟩
    rcases hd with hfree | ⟨p, hp, hpd⟩
    · exact hfree a hr
    · exact hT (h.similar.injective hpd hr ▸ hp)
  refine ⟨⟨.refl ρ, fun _ _ _ hr => .inl hr⟩, ?_, fun k => (hcs k).ge, fun k => (hct k).ge, ?_, ?_, ?_⟩
  · refine h.advance hsim ⟨.refl ρ, fun _ _ _ hr => .inl hr⟩ (hcs .pair).ge (hct .pair).ge hleft
      (fun d _ _ hd => hright d hd) (fun _ hq => .inl hq) fun a' b' hr' => .inl ⟨hr', ?_, ?_⟩
    · have hclosure : s₁.closure a' = s.closure a' := hs .closure a' (by simp)
      rw [hclosure]
    · have hclosure : t₁.closure b' = t.closure b' := ht .closure b' (by simp)
      rw [hclosure]
  · rintro p - (hp | hp)
    · exact hleft p hp
    · refine hs .pair p ?_
      rintro ⟨-, rfl⟩
      exact hp b hr
  · exact fun q hq => Store.cdr_eq_of_pair_eq (hright q (.inl (h.reserved hq).2))
  · exact fun q hq _ => Store.car_eq_of_pair_eq (hright q (.inl (h.reserved hq).2))

end After
end LittleScheme
