import LittleScheme.Proofs.Renaming

/-!
# Keeping stores similar

Stores stay similar when the objects that a renaming relates are left alone, when related objects are
changed in the same way, and when objects alike are made on both sides.
-/
namespace LittleScheme

open Value (Related)

namespace Store

/-- An object is the same in two stores. -/
def SameAt (s s' : Store) : Kind → Ref → Prop
  | .string, r => s'.string r = s.string r
  | .pair, r => s'.pair r = s.pair r
  | .vector, r => s'.vector r = s.vector r
  | .bytes, r => s'.bytevector r = s.bytevector r
  | .closure, r => s'.closure r = s.closure r
  | .port, r => s'.port r = s.port r
  | .scope, r => s'.scope r = s.scope r

theorem SameAt.refl (s : Store) (k : Kind) (r : Ref) : s.SameAt s k r := by cases k <;> rfl

theorem SameAt.trans {s s' s'' : Store} {k : Kind} {r : Ref} (h : s.SameAt s' k r)
    (h' : s'.SameAt s'' k r) : s.SameAt s'' k r := by cases k <;> exact Eq.trans h' h

/-- No object is lost or changed. -/
structure Keeps (s s' : Store) : Prop where
  count : ∀ k, s.count k ≤ s'.count k
  same : ∀ k r, r < s.count k → s.SameAt s' k r

theorem Keeps.refl (s : Store) : s.Keeps s := ⟨fun _ => Nat.le_refl _, fun k r _ => .refl s k r⟩

theorem Keeps.trans {s s' s'' : Store} (h : s.Keeps s') (h' : s'.Keeps s'') : s.Keeps s'' :=
  ⟨fun k => Nat.le_trans (h.count k) (h'.count k),
    fun k r hr => (h.same k r hr).trans (h'.same k r (Nat.lt_of_lt_of_le hr (h.count k)))⟩

theorem Keeps.grows {s s' : Store} (h : s.Keeps s') (hclosures : s'.closures = s.closures) :
    s.Grows s' := ⟨h.count, h.same .pair, hclosures⟩

end Store

open Store (SameAt Keeps)

theorem Alike.congr {ρ ρ' : Renaming} {s t s' t' : Store} {k : Kind} {a b : Ref} (hle : ρ.Le ρ')
    (hs : s.SameAt s' k a) (ht : t.SameAt t' k b) (h : Alike ρ s t k a b) :
    Alike ρ' s' t' k a b := by
  cases k with
  | string | bytes | port => exact (Eq.trans hs h).trans ht.symm
  | pair =>
      simp only [Alike, Store.car, Store.cdr, show s'.pair a = _ from hs,
        show t'.pair b = _ from ht]
      exact ⟨h.1.mono hle, h.2.mono hle⟩
  | vector =>
      simp only [Alike, show s'.vector a = _ from hs, show t'.vector b = _ from ht]
      exact List.Forall₂.imp (fun _ _ hv => hv.mono hle) h
  | closure =>
      simp only [Alike, show s'.closure a = _ from hs, show t'.closure b = _ from ht]
      exact Closure.Related.mono hle h
  | scope =>
      simp only [Alike, show s'.scope a = _ from hs, show t'.scope b = _ from ht]
      exact ⟨h.1.mono hle, h.2⟩

namespace Similar

variable {ρ : Renaming} {s t s' t' : Store}

/-- Changes of objects that the renaming does not relate do not matter. -/
theorem congr (h : Similar ρ s t) (hs : ∀ k a b, ρ k a b → s.SameAt s' k a)
    (ht : ∀ k a b, ρ k a b → t.SameAt t' k b) (hcs : ∀ k, s.count k ≤ s'.count k)
    (hct : ∀ k, t.count k ≤ t'.count k) (hconsole : s'.console = t'.console) :
    Similar ρ s' t' where
  bound k _ _ hr := ⟨Nat.lt_of_lt_of_le (h.bound hr).1 (hcs k),
    Nat.lt_of_lt_of_le (h.bound hr).2 (hct k)⟩
  functional := h.functional
  injective := h.injective
  alike k a b hr := (h.alike hr).congr (.refl ρ) (hs k a b hr) (ht k a b hr)
  stdout := h.stdout
  stdin := h.stdin
  console := hconsole

/-- Related objects are changed so that they are alike again. -/
theorem update (h : Similar ρ s t) {k : Kind} {a b : Ref} (hr : ρ k a b)
    (hs : ∀ k' r, ¬ (k' = k ∧ r = a) → s.SameAt s' k' r)
    (ht : ∀ k' r, ¬ (k' = k ∧ r = b) → t.SameAt t' k' r) (hcs : ∀ k, s'.count k = s.count k)
    (hct : ∀ k, t'.count k = t.count k) (hconsole : s'.console = t'.console)
    (hnew : Alike ρ s' t' k a b) : Similar ρ s' t' where
  bound k _ _ hr := by
    rw [hcs, hct]
    exact h.bound hr
  functional := h.functional
  injective := h.injective
  alike k' a' b' hr' := by
    by_cases hk : k' = k ∧ a' = a
    · obtain ⟨rfl, rfl⟩ := hk
      obtain rfl := h.functional hr hr'
      exact hnew
    · refine (h.alike hr').congr (.refl ρ) (hs k' a' hk) (ht k' b' fun hk' => hk ?_)
      obtain ⟨rfl, rfl⟩ := hk'
      exact ⟨rfl, h.injective hr' hr⟩
  stdout := h.stdout
  stdin := h.stdin
  console := hconsole

/-- Objects are made on both sides, and the renaming relates them one to one. -/
theorem grow (h : Similar ρ s t) {ρ' : Renaming} (hs : s.Keeps s') (ht : t.Keeps t')
    (hconsole : s'.console = t'.console) (hle : ρ.Le ρ')
    (hnew : ∀ ⦃k a b⦄, ρ' k a b → ρ k a b ∨ (s.count k ≤ a ∧ a < s'.count k) ∧
      (t.count k ≤ b ∧ b < t'.count k) ∧ Alike ρ' s' t' k a b)
    (hfunctional : ∀ ⦃k a b b'⦄, ρ' k a b → ρ' k a b' → b = b')
    (hinjective : ∀ ⦃k a a' b⦄, ρ' k a b → ρ' k a' b → a = a') :
    Similar ρ' s' t' ∧ Gains ρ s t ρ' := by
  refine ⟨⟨?_, hfunctional, hinjective, ?_, hle h.stdout, hle h.stdin, hconsole⟩, hle, ?_⟩
  · intro k a b hr
    rcases hnew hr with hr | ⟨ha, hb, -⟩
    · exact ⟨Nat.lt_of_lt_of_le (h.bound hr).1 (hs.count k),
        Nat.lt_of_lt_of_le (h.bound hr).2 (ht.count k)⟩
    · exact ⟨ha.2, hb.2⟩
  · intro k a b hr
    rcases hnew hr with hr | ⟨-, -, halike⟩
    · exact (h.alike hr).congr hle (hs.same k a (h.bound hr).1) (ht.same k b (h.bound hr).2)
    · exact halike
  · intro k a b hr
    rcases hnew hr with hr | ⟨ha, hb, -⟩
    · exact .inl hr
    · exact .inr ⟨ha.1, hb.1⟩

/-- The next object of a kind is made on both sides. -/
theorem add (h : Similar ρ s t) (k : Kind) (hs : s.Keeps s') (ht : t.Keeps t')
    (hcs : s.count k < s'.count k) (hct : t.count k < t'.count k)
    (hconsole : s'.console = t'.console)
    (hnew : Alike (ρ.add k (s.count k) (t.count k)) s' t' k (s.count k) (t.count k)) :
    Similar (ρ.add k (s.count k) (t.count k)) s' t' ∧
      Gains ρ s t (ρ.add k (s.count k) (t.count k)) := by
  have hleft : ∀ b, ¬ ρ k (s.count k) b := fun b hr => Nat.lt_irrefl _ (h.bound hr).1
  have hright : ∀ a, ¬ ρ k a (t.count k) := fun a hr => Nat.lt_irrefl _ (h.bound hr).2
  refine h.grow hs ht hconsole (ρ.le_add _ _ _) ?_ (ρ.add_functional hleft h.functional)
    (ρ.add_injective hright h.injective)
  rintro k' a b (hr | ⟨rfl, rfl, rfl⟩)
  · exact .inl hr
  · exact .inr ⟨⟨Nat.le_refl _, hcs⟩, ⟨Nat.le_refl _, hct⟩, hnew⟩

end Similar

/-! ### Changing objects -/

namespace Store

variable (s : Store)

theorem count_setCar (r : Ref) (v : Value) (k : Kind) : (s.setCar r v).count k = s.count k := by
  cases k <;> simp [count, setCar]

theorem count_setCdr (r : Ref) (v : Value) (k : Kind) : (s.setCdr r v).count k = s.count k := by
  cases k <;> simp [count, setCdr]

theorem count_setVector (r i : Nat) (v : Value) (k : Kind) :
    (s.setVector r i v).count k = s.count k := by
  cases k <;> simp [count, setVector]

theorem count_setBytes (r i : Nat) (x : UInt8) (k : Kind) :
    (s.setBytes r i x).count k = s.count k := by
  cases k <;> simp [count, setBytes]

theorem count_setPort (r : Ref) (p : Port) (k : Kind) : (s.setPort r p).count k = s.count k := by
  cases k <;> simp [count, setPort]

theorem grows_setVector (r i : Nat) (v : Value) : s.Grows (s.setVector r i v) :=
  ⟨fun k => (s.count_setVector r i v k).ge, fun _ _ => rfl, rfl⟩

theorem grows_setBytes (r i : Nat) (x : UInt8) : s.Grows (s.setBytes r i x) :=
  ⟨fun k => (s.count_setBytes r i x k).ge, fun _ _ => rfl, rfl⟩

theorem grows_setPort (r : Ref) (p : Port) : s.Grows (s.setPort r p) :=
  ⟨fun k => (s.count_setPort r p k).ge, fun _ _ => rfl, rfl⟩

theorem grows_setConsole (console : Console) : s.Grows (s.setConsole console) :=
  ⟨fun k => by cases k <;> exact Nat.le_refl _, fun _ _ => rfl, rfl⟩

theorem sameAt_setCar {r q : Ref} {k : Kind} (h : ¬ (k = .pair ∧ q = r)) (v : Value) :
    s.SameAt (s.setCar r v) k q := by
  cases k with
  | pair => exact pair_setCar_ne (fun hq => h ⟨rfl, hq⟩) v
  | _ => rfl

theorem sameAt_setCdr {r q : Ref} {k : Kind} (h : ¬ (k = .pair ∧ q = r)) (v : Value) :
    s.SameAt (s.setCdr r v) k q := by
  cases k with
  | pair => exact pair_setCdr_ne (fun hq => h ⟨rfl, hq⟩) v
  | _ => rfl

end Store

namespace Similar

variable {ρ : Renaming} {s t : Store} {a b : Ref} {v w : Value}

theorem setCar (h : Similar ρ s t) (hr : ρ .pair a b) (hv : Related ρ v w) :
    Similar ρ (s.setCar a v) (t.setCar b w) := by
  refine h.update hr (fun _ _ hk => s.sameAt_setCar hk v) (fun _ _ hk => t.sameAt_setCar hk w)
    (s.count_setCar a v) (t.count_setCar b w) h.console ⟨?_, ?_⟩
  · rw [Store.car_setCar (h.bound hr).1, Store.car_setCar (h.bound hr).2]
    exact hv
  · rw [Store.cdr_setCar, Store.cdr_setCar]
    exact h.cdr hr

theorem setCdr (h : Similar ρ s t) (hr : ρ .pair a b) (hv : Related ρ v w) :
    Similar ρ (s.setCdr a v) (t.setCdr b w) := by
  refine h.update hr (fun _ _ hk => s.sameAt_setCdr hk v) (fun _ _ hk => t.sameAt_setCdr hk w)
    (s.count_setCdr a v) (t.count_setCdr b w) h.console ⟨?_, ?_⟩
  · rw [Store.car_setCdr, Store.car_setCdr]
    exact h.car hr
  · rw [Store.cdr_setCdr (h.bound hr).1, Store.cdr_setCdr (h.bound hr).2]
    exact hv

end Similar

section arrays

variable {α : Type} (xs : Array α) (x d : α)

theorem getD_push_self : (xs.push x).getD xs.size d = x := by simp [Array.getD]

theorem getD_push_of_lt {i : Nat} (h : i < xs.size) : (xs.push x).getD i d = xs.getD i d := by
  simp [Array.getD_eq_getD_getElem?, Array.getElem?_push, Nat.ne_of_lt h]

theorem getD_modify_self {i : Nat} (h : i < xs.size) (f : α → α) :
    (xs.modify i f).getD i d = f (xs.getD i d) := by
  have hsize : i < (xs.modify i f).size := by simpa using h
  rw [Array.getD_eq_getD_getElem?, Array.getD_eq_getD_getElem?, Array.getElem?_modify, if_pos rfl]
  simp [h]

theorem getD_modify_of_ne {i j : Nat} (h : j ≠ i) (f : α → α) :
    (xs.modify i f).getD j d = xs.getD j d := by
  simp [Array.getD_eq_getD_getElem?, Array.getElem?_modify, Ne.symm h]

theorem getD_setIfInBounds_self {i : Nat} (h : i < xs.size) :
    (xs.setIfInBounds i x).getD i d = x := by
  simp [Array.getD_eq_getD_getElem?, h]

theorem getD_setIfInBounds_of_ne {i j : Nat} (h : j ≠ i) :
    (xs.setIfInBounds i x).getD j d = xs.getD j d := by
  simp [Array.getD_eq_getD_getElem?, Ne.symm h]

end arrays

theorem forall₂_set {α β : Type} {R : α → β → Prop} {as : List α} {bs : List β} {a : α} {b : β}
    (h : List.Forall₂ R as bs) (hab : R a b) (i : Nat) :
    List.Forall₂ R (as.set i a) (bs.set i b) := by
  induction h generalizing i with
  | nil => exact .nil
  | cons hcd hrest ih =>
      cases i with
      | zero => exact .cons hab hrest
      | succ i => exact .cons hcd (ih i)

namespace Similar

variable {ρ : Renaming} {s t : Store} {a b : Ref} {v w : Value}

theorem setVector (h : Similar ρ s t) (hr : ρ .vector a b) (i : Nat) (hv : Related ρ v w) :
    Similar ρ (s.setVector a i v) (t.setVector b i w) := by
  refine h.update hr ?_ ?_ ?_ ?_ h.console ?_
  · intro k r hk
    cases k with
    | vector => exact getD_modify_of_ne _ _ (fun hr => hk ⟨rfl, hr⟩) _
    | _ => rfl
  · intro k r hk
    cases k with
    | vector => exact getD_modify_of_ne _ _ (fun hr => hk ⟨rfl, hr⟩) _
    | _ => rfl
  · exact s.count_setVector a i v
  · exact t.count_setVector b i w
  · have ha : (s.setVector a i v).vector a = (s.vector a).setIfInBounds i v :=
      getD_modify_self _ _ (h.bound hr).1 _
    have hb : (t.setVector b i w).vector b = (t.vector b).setIfInBounds i w :=
      getD_modify_self _ _ (h.bound hr).2 _
    rw [Alike, ha, hb, Array.toList_setIfInBounds, Array.toList_setIfInBounds]
    exact forall₂_set (h.vector hr) hv i

theorem setBytes (h : Similar ρ s t) (hr : ρ .bytes a b) (i : Nat) (x : UInt8) :
    Similar ρ (s.setBytes a i x) (t.setBytes b i x) := by
  refine h.update hr ?_ ?_ ?_ ?_ h.console ?_
  · intro k r hk
    cases k with
    | bytes => exact getD_modify_of_ne _ _ (fun hr => hk ⟨rfl, hr⟩) _
    | _ => rfl
  · intro k r hk
    cases k with
    | bytes => exact getD_modify_of_ne _ _ (fun hr => hk ⟨rfl, hr⟩) _
    | _ => rfl
  · exact s.count_setBytes a i x
  · exact t.count_setBytes b i x
  · have ha : (s.setBytes a i x).bytevector a = (s.bytevector a).setIfInBounds i x :=
      getD_modify_self _ _ (h.bound hr).1 _
    have hb : (t.setBytes b i x).bytevector b = (t.bytevector b).setIfInBounds i x :=
      getD_modify_self _ _ (h.bound hr).2 _
    rw [Alike, ha, hb, h.bytes hr]

theorem setPort (h : Similar ρ s t) (hr : ρ .port a b) (p : Port) :
    Similar ρ (s.setPort a p) (t.setPort b p) := by
  refine h.update hr ?_ ?_ ?_ ?_ h.console ?_
  · intro k r hk
    cases k with
    | port => exact getD_setIfInBounds_of_ne _ _ _ fun hr => hk ⟨rfl, hr⟩
    | _ => rfl
  · intro k r hk
    cases k with
    | port => exact getD_setIfInBounds_of_ne _ _ _ fun hr => hk ⟨rfl, hr⟩
    | _ => rfl
  · exact s.count_setPort a p
  · exact t.count_setPort b p
  · exact (getD_setIfInBounds_self _ _ _ (h.bound hr).1).trans
      (getD_setIfInBounds_self _ _ _ (h.bound hr).2).symm

theorem setConsole (h : Similar ρ s t) (console : Console) :
    Similar ρ (s.setConsole console) (t.setConsole console) :=
  h.congr (fun k _ _ _ => by cases k <;> rfl) (fun k _ _ _ => by cases k <;> rfl)
    (fun k => by cases k <;> rfl) (fun k => by cases k <;> rfl) rfl

theorem print (h : Similar ρ s t) (text : String) : Similar ρ (s.print text) (t.print text) := by
  have hconsole := h.setConsole (s.console.print text)
  rwa [show t.setConsole (s.console.print text) = t.print text by
    rw [h.console]; rfl] at hconsole

end Similar

/-! ### Making objects -/

/-- The same is made on both sides: the results are related and the stores similar. -/
def Made {α β : Type} (ρ : Renaming) (s t : Store) (Q : Renaming → α → β → Prop) (x : α × Store)
    (y : β × Store) : Prop :=
  ∃ ρ', Later ρ s t ρ' x.2 y.2 ∧ Similar ρ' x.2 y.2 ∧ Q ρ' x.1 y.1

theorem Agree.make {α β : Type} {ρ : Renaming} {Q : Renaming → α → β → Prop}
    {f : Store → α × Store} {g : Store → β × Store}
    (h : ∀ s t, Similar ρ s t → Made ρ s t Q (f s) (g t)) :
    Agree ρ (Eval.make f) (Eval.make g) Q := h

theorem Agree.update {ρ : Renaming} {f g : Store → Store}
    (h : ∀ s t, Similar ρ s t → Similar ρ (f s) (g t))
    (hf : ∀ s : Store, s.Grows (f s)) (hg : ∀ t : Store, t.Grows (g t)) :
    Agree ρ (Eval.update f) (Eval.update g) fun _ _ _ => True :=
  fun s t hs => ⟨ρ, .same (hf s) (hg t), h s t hs, trivial⟩

namespace Store

variable (s : Store)

theorem keeps_pushPair (a b : Value) : s.Keeps (s.pushPair a b) := by
  refine ⟨fun k => ?_, fun k r hr => ?_⟩
  · cases k <;> simp [count, pushPair]
  · cases k with
    | pair => exact getD_push_of_lt _ _ _ hr
    | _ => rfl

theorem keeps_newString (text : String) : s.Keeps (s.newString text).2 := by
  refine ⟨fun k => ?_, fun k r hr => ?_⟩
  · cases k <;> simp [count, newString]
  · cases k with
    | string => exact getD_push_of_lt _ _ _ hr
    | _ => rfl

theorem keeps_newVector (items : Array Value) : s.Keeps (s.newVector items).2 := by
  refine ⟨fun k => ?_, fun k r hr => ?_⟩
  · cases k <;> simp [count, newVector]
  · cases k with
    | vector => exact getD_push_of_lt _ _ _ hr
    | _ => rfl

theorem keeps_newBytes (items : Array UInt8) : s.Keeps (s.newBytes items).2 := by
  refine ⟨fun k => ?_, fun k r hr => ?_⟩
  · cases k <;> simp [count, newBytes]
  · cases k with
    | bytes => exact getD_push_of_lt _ _ _ hr
    | _ => rfl

theorem keeps_newClosure (c : Closure) : s.Keeps (s.newClosure c).2 := by
  refine ⟨fun k => ?_, fun k r hr => ?_⟩
  · cases k <;> simp [count, newClosure]
  · cases k with
    | closure => exact getD_push_of_lt _ _ _ hr
    | _ => rfl

theorem keeps_newPort (p : Port) : s.Keeps (s.newPort p).2 := by
  refine ⟨fun k => ?_, fun k r hr => ?_⟩
  · cases k <;> simp [count, newPort]
  · cases k with
    | port => exact getD_push_of_lt _ _ _ hr
    | _ => rfl

theorem keeps_pushScope (c : Scope) : s.Keeps (s.pushScope c) := by
  refine ⟨fun k => ?_, fun k r hr => ?_⟩
  · cases k <;> simp [count, pushScope]
  · cases k with
    | scope => exact getD_push_of_lt _ _ _ hr
    | _ => rfl

theorem keeps_listWithTail (items : List Value) (tail : Value) :
    s.Keeps (s.listWithTail items tail).2 := by
  induction items with
  | nil => exact .refl s
  | cons x items ih => exact ih.trans (keeps_pushPair _ _ _)

end Store

namespace Similar

variable {ρ : Renaming} {s t : Store} {v w x y : Value}

theorem cons (h : Similar ρ s t) (hv : Related ρ v w) (hx : Related ρ x y) :
    Made ρ s t Related (s.cons v x) (t.cons w y) := by
  have hle := ρ.le_add .pair (s.count .pair) (t.count .pair)
  obtain ⟨hsim, hgains⟩ := h.add .pair (s.keeps_pushPair v x) (t.keeps_pushPair w y)
    (by simp [Store.count]) (by simp [Store.count]) h.console (by
      simp only [Alike, Store.count, Store.car, Store.cdr, Store.pair_pushPair_self]
      exact ⟨hv.mono hle, hx.mono hle⟩)
  exact ⟨_, ⟨hgains, (s.keeps_pushPair v x).grows rfl, (t.keeps_pushPair w y).grows rfl⟩, hsim,
    .pair (.inr ⟨rfl, rfl, rfl⟩)⟩

theorem listWithTail (h : Similar ρ s t) {vs ws : List Value}
    (hvs : List.Forall₂ (Related ρ) vs ws) (hx : Related ρ x y) :
    Made ρ s t Related (s.listWithTail vs x) (t.listWithTail ws y) := by
  induction hvs with
  | nil => exact ⟨ρ, .refl ρ s t, h, hx⟩
  | cons hv _ ih =>
      obtain ⟨ρ₁, hlater₁, hsim₁, hrest⟩ := ih
      obtain ⟨ρ₂, hlater₂, hsim₂, hpair⟩ := hsim₁.cons (hv.mono hlater₁.le) hrest
      exact ⟨ρ₂, hlater₁.trans hlater₂, hsim₂, hpair⟩

theorem list (h : Similar ρ s t) {vs ws : List Value} (hvs : List.Forall₂ (Related ρ) vs ws) :
    Made ρ s t Related (s.list vs) (t.list ws) := h.listWithTail hvs .nil

theorem newString (h : Similar ρ s t) (text : String) :
    Made ρ s t Related (s.newString text) (t.newString text) := by
  obtain ⟨hsim, hgains⟩ := h.add .string (s.keeps_newString text) (t.keeps_newString text)
    (by simp [Store.count, Store.newString]) (by simp [Store.count, Store.newString]) h.console
    ((getD_push_self _ _ _).trans (getD_push_self _ _ _).symm)
  exact ⟨_, ⟨hgains, (s.keeps_newString text).grows rfl, (t.keeps_newString text).grows rfl⟩, hsim,
    .string (.inr ⟨rfl, rfl, rfl⟩)⟩

theorem newVector (h : Similar ρ s t) {items items' : Array Value}
    (hitems : List.Forall₂ (Related ρ) items.toList items'.toList) :
    Made ρ s t Related (s.newVector items) (t.newVector items') := by
  have hle := ρ.le_add .vector (s.count .vector) (t.count .vector)
  have hs : (s.newVector items).2.vector (s.count .vector) = items := getD_push_self _ _ _
  have ht : (t.newVector items').2.vector (t.count .vector) = items' := getD_push_self _ _ _
  obtain ⟨hsim, hgains⟩ := h.add .vector (s.keeps_newVector items) (t.keeps_newVector items')
    (by simp [Store.count, Store.newVector]) (by simp [Store.count, Store.newVector]) h.console (by
      rw [Alike, hs, ht]
      exact hitems.imp fun _ _ hv => hv.mono hle)
  exact ⟨_, ⟨hgains, (s.keeps_newVector items).grows rfl, (t.keeps_newVector items').grows rfl⟩,
    hsim, .vector (.inr ⟨rfl, rfl, rfl⟩)⟩

theorem newBytes (h : Similar ρ s t) (items : Array UInt8) :
    Made ρ s t Related (s.newBytes items) (t.newBytes items) := by
  obtain ⟨hsim, hgains⟩ := h.add .bytes (s.keeps_newBytes items) (t.keeps_newBytes items)
    (by simp [Store.count, Store.newBytes]) (by simp [Store.count, Store.newBytes]) h.console
    ((getD_push_self _ _ _).trans (getD_push_self _ _ _).symm)
  exact ⟨_, ⟨hgains, (s.keeps_newBytes items).grows rfl, (t.keeps_newBytes items).grows rfl⟩, hsim,
    .bytes (.inr ⟨rfl, rfl, rfl⟩)⟩

theorem newPort (h : Similar ρ s t) (p : Port) :
    Made ρ s t Related (s.newPort p) (t.newPort p) := by
  obtain ⟨hsim, hgains⟩ := h.add .port (s.keeps_newPort p) (t.keeps_newPort p)
    (by simp [Store.count, Store.newPort]) (by simp [Store.count, Store.newPort]) h.console
    ((getD_push_self _ _ _).trans (getD_push_self _ _ _).symm)
  exact ⟨_, ⟨hgains, (s.keeps_newPort p).grows rfl, (t.keeps_newPort p).grows rfl⟩, hsim,
    .port (.inr ⟨rfl, rfl, rfl⟩)⟩

theorem newClosure (h : Similar ρ s t) {c d : Closure} (hc : Closure.Related ρ c d) :
    ∃ ρ', Gains ρ s t ρ' ∧ Similar ρ' (s.newClosure c).2 (t.newClosure d).2 ∧
      Related ρ' (s.newClosure c).1 (t.newClosure d).1 := by
  have hle := ρ.le_add .closure (s.count .closure) (t.count .closure)
  have hs : (s.newClosure c).2.closure (s.count .closure) = c := getD_push_self _ _ _
  have ht : (t.newClosure d).2.closure (t.count .closure) = d := getD_push_self _ _ _
  obtain ⟨hsim, hgains⟩ := h.add .closure (s.keeps_newClosure c) (t.keeps_newClosure d)
    (by simp [Store.count, Store.newClosure]) (by simp [Store.count, Store.newClosure]) h.console (by
      rw [Alike, hs, ht]
      exact hc.mono hle)
  exact ⟨_, hgains, hsim, .closure (.inr ⟨rfl, rfl, rfl⟩)⟩

end Similar
end LittleScheme
