import LittleScheme.Proofs.StayingRuns

/-!
# What library code holds

Library code has data of its own, which the procedures it calls cannot get at. An estate is a realm
together with the pairs that are kept: those within reach, those of text and those that library code
holds. The copies that frames work on are not among them, so a store may be taken for another that
differs from it in such copies.
-/
namespace LittleScheme

/-! ### Calm -/

/-- Nothing has happened but that objects were made, and that pairs were changed which are not kept. -/
structure Calm (kept : Ref → Prop) (s t : Store) : Prop where
  count : ∀ k, s.count k ≤ t.count k
  pair : ∀ ⦃r⦄, kept r → t.pair r = s.pair r
  same : ∀ ⦃k r⦄, k ≠ .pair → r < s.count k → s.SameAt t k r
  console : t.console = s.console

namespace Calm

variable {kept : Ref → Prop} {s t u : Store}

theorem refl (kept : Ref → Prop) (s : Store) : Calm kept s s where
  count _ := Nat.le_refl _
  pair _ _ := rfl
  same k r _ _ := .refl s k r
  console := rfl

theorem trans (h : Calm kept s t) (h' : Calm kept t u) : Calm kept s u where
  count k := Nat.le_trans (h.count k) (h'.count k)
  pair _ hr := (h'.pair hr).trans (h.pair hr)
  same k _ hk hr := (h.same hk hr).trans (h'.same hk (Nat.lt_of_lt_of_le hr (h.count k)))
  console := h'.console.trans h.console

theorem mono {kept' : Ref → Prop} (h : Calm kept s t) (hkept : ∀ r, kept' r → kept r) :
    Calm kept' s t where
  count := h.count
  pair r hr := h.pair (hkept r hr)
  same := h.same
  console := h.console

/-- Objects are made. -/
theorem of_growsTo (h : s.GrowsTo t) (hkept : ∀ r, kept r → r < s.pairs.size) : Calm kept s t where
  count := h.keeps.count
  pair r hr := h.pair_eq (hkept r hr)
  same k r _ hr := h.keeps.same k r hr
  console := h.console_eq

theorem setCar {c : Ref} (hc : ¬ kept c) (s : Store) (v : Value) : Calm kept s (s.setCar c v) where
  count k := (s.count_setCar c v k).ge
  pair r hr := s.sameAt_setCar (k := .pair) (by rintro ⟨-, rfl⟩; exact hc hr) v
  same k r hk _ := s.sameAt_setCar (fun h => hk h.1) v
  console := rfl

theorem setCdr {c : Ref} (hc : ¬ kept c) (s : Store) (v : Value) : Calm kept s (s.setCdr c v) where
  count k := (s.count_setCdr c v k).ge
  pair r hr := s.sameAt_setCdr (k := .pair) (by rintro ⟨-, rfl⟩; exact hc hr) v
  same k r hk _ := s.sameAt_setCdr (fun h => hk h.1) v
  console := rfl

theorem scope_eq (h : Calm kept s t) {r : Ref} (hr : r < s.scopes.size) : t.scope r = s.scope r :=
  h.same (k := .scope) nofun hr

theorem closure_eq (h : Calm kept s t) {r : Ref} (hr : r < s.closures.size) :
    t.closure r = s.closure r := h.same (k := .closure) nofun hr

theorem listAt (h : Calm kept s t) {v : Value} {cs : List Ref} (hlist : s.ListAt v cs)
    (hcs : ∀ c ∈ cs, kept c) : t.ListAt v cs :=
  hlist.congr (fun c hc => Store.cdr_eq_of_pair_eq (h.pair (hcs c hc))) (h.count .pair)

theorem map_car (h : Calm kept s t) {cs : List Ref} (hcs : ∀ c ∈ cs, kept c) :
    cs.map t.car = cs.map s.car :=
  List.map_congr_left fun c hc => Store.car_eq_of_pair_eq (h.pair (hcs c hc))

end Calm

/-! ### Estates -/

/-- A realm and the pairs that no frame works on. -/
structure Estate where
  realm : Realm
  kept : Ref → Prop

namespace Estate

/-- The pairs within reach and those of text are kept. -/
structure Holds (g : Estate) (s : Store) : Prop where
  realm : g.realm.Holds s
  shared : ∀ ⦃r⦄, g.realm.shared .pair r r → g.kept r
  text : ∀ ⦃r⦄, g.realm.text r → g.kept r
  bound : ∀ ⦃r⦄, g.kept r → r < s.pairs.size

/-- The estate with more pairs that are kept. -/
def keep (g : Estate) (N : Ref → Prop) : Estate := { g with kept := fun r => g.kept r ∨ N r }

/-- From one store to another nothing that is kept has been lost, and only objects within reach have
changed and the pairs `W`. -/
structure Advances (W : Ref → Prop) (g : Estate) (s : Store) (g' : Estate) (s' : Store) : Prop where
  becomes : g.realm.Becomes W s g'.realm s'
  holds : g'.Holds s'
  kept : ∀ ⦃r⦄, g.kept r → g'.kept r
  fresh : ∀ ⦃r⦄, g'.kept r → g.kept r ∨ s.pairs.size ≤ r

/-- The value is `v`, in a store that may be taken for one of which `Q` holds. -/
def Comes (W : Ref → Prop) (g : Estate) (t : Store) (Q : Estate → Value → Store → Prop) (v : Value)
    (t' : Store) : Prop :=
  ∃ g' s', g.Advances W t g' t' ∧ g'.Holds s' ∧ Calm g'.kept s' t' ∧ Q g' v s'

variable {W W' : Ref → Prop} {g g' g'' : Estate} {s s' s'' : Store}
  {Q : Estate → Value → Store → Prop} {v : Value}

theorem Holds.becomes (h : g.Holds s) (hcalm : Calm g.kept s s')
    (hW : ∀ ⦃r⦄, r < s.pairs.size → ¬ W r → s'.pair r = s.pair r) :
    g.realm.Becomes W s g.realm s' := by
  have hgains : Gains g.realm.shared s s g.realm.shared := ⟨.refl _, fun _ _ _ hr => .inl hr⟩
  have htext : ∀ ⦃r⦄, g.realm.text r → g.realm.text r ∧ s'.pair r = s.pair r :=
    fun r hr => ⟨hr, hcalm.pair (h.text hr)⟩
  have hclosure : ∀ ⦃a⦄, a < s.closures.size → s'.closure a = s.closure a :=
    fun a ha => hcalm.closure_eq ha
  have hsame : ∀ k a, g.realm.shared k a a → s.SameAt s' k a := by
    intro k a ha
    by_cases hk : k = .pair
    · subst hk
      exact hcalm.pair (h.shared ha)
    · exact hcalm.same hk (h.realm.similar.bound ha).1
  have hsim : Similar g.realm.shared s' s' := by
    refine h.realm.similar.congr (fun k a b hab => ?_) (fun k a b hab => ?_) hcalm.count hcalm.count rfl
    · obtain rfl := h.realm.diagonal hab
      exact hsame k a hab
    · obtain rfl := h.realm.diagonal hab
      exact hsame k a hab
  exact ⟨h.realm.advance hsim h.realm.diagonal hgains (hcalm.count .pair) htext hclosure
    (fun _ hr => .inl hr) fun _ ha => .inl ha, hgains, htext, fun _ hr => .inl hr, hcalm.count,
    fun _ hr _ hw => hW hr hw, fun _ hr _ => hcalm.scope_eq hr, hclosure⟩

theorem Holds.calm (h : g.Holds s) (hcalm : Calm g.kept s s') : g.Holds s' where
  realm := (h.becomes (W := fun r => ¬ g.kept r) hcalm fun _ _ hr => hcalm.pair (not_not.1 hr)).holds
  shared := h.shared
  text := h.text
  bound _ hr := Nat.lt_of_lt_of_le (h.bound hr) (hcalm.count .pair)

/-- The pairs that are changed are `W`. -/
theorem Holds.advances (h : g.Holds s) (hcalm : Calm g.kept s s')
    (hW : ∀ ⦃r⦄, r < s.pairs.size → ¬ W r → s'.pair r = s.pair r) : g.Advances W s g s' where
  becomes := h.becomes hcalm hW
  holds := h.calm hcalm
  kept _ hr := hr
  fresh _ hr := .inl hr

theorem Holds.advances_growsTo (h : g.Holds s) (hgrows : s.GrowsTo s') : g.Advances W s g s' :=
  h.advances (.of_growsTo hgrows h.bound) fun _ hr _ => hgrows.pair_eq hr

theorem Holds.refl (h : g.Holds s) : g.Advances W s g s := h.advances (.refl _ _) fun _ _ _ => rfl

theorem Holds.not_shared (h : g.Holds s) {r : Ref} (hr : ¬ g.kept r) : ¬ g.realm.shared .pair r r :=
  fun hshared => hr (h.shared hshared)

theorem Holds.apart (h : g.Holds s) {r : Ref} (hr : ¬ g.kept r) : g.realm.Apart r :=
  ⟨h.not_shared hr, fun htext => hr (h.text htext)⟩

/-- A new pair is not kept yet. -/
theorem Holds.not_kept (h : g.Holds s) {r : Ref} (hr : s.pairs.size ≤ r) : ¬ g.kept r :=
  fun hkept => Nat.not_lt.2 hr (h.bound hkept)

theorem Advances.trans (h : g.Advances W s g' s') (h' : g'.Advances W' s' g'' s'')
    (hW : ∀ r, W' r → W r ∨ s.pairs.size ≤ r) : g.Advances W s g'' s'' where
  becomes := h.becomes.trans h'.becomes hW
  holds := h'.holds
  kept _ hr := h'.kept (h.kept hr)
  fresh r hr := by
    rcases h'.fresh hr with hold | hnew
    · exact h.fresh hold
    · exact .inr (Nat.le_trans (h.becomes.count .pair) hnew)

theorem Advances.restrict (h : g.Advances W s g' s') (hW : ∀ r, W r → W' r ∨ s.pairs.size ≤ r) :
    g.Advances W' s g' s' where
  becomes := h.becomes.restrict fun r hr => (hW r hr).imp_right .inl
  holds := h.holds
  kept := h.kept
  fresh := h.fresh

/-- Pairs that have been made are kept from now on. -/
theorem Advances.keep (h : g.Advances W s g' s') {N : Ref → Prop}
    (hN : ∀ ⦃r⦄, N r → s.pairs.size ≤ r ∧ r < s'.pairs.size) : g.Advances W s (g'.keep N) s' where
  becomes := h.becomes
  holds :=
    { realm := h.holds.realm
      shared := fun _ hr => .inl (h.holds.shared hr)
      text := fun _ hr => .inl (h.holds.text hr)
      bound := fun _ hr => hr.elim (fun hr => h.holds.bound hr) fun hr => (hN hr).2 }
  kept _ hr := .inl (h.kept hr)
  fresh _ hr := hr.elim (fun hr => h.fresh hr) fun hr => .inr (hN hr).1

/-- A pair that nobody can get at is as it was. -/
theorem Advances.pair_eq (h : g.Advances W s g' s') {r : Ref} (hr : r < s.pairs.size)
    (hshared : ¬ g.realm.shared .pair r r) (hW : ¬ W r) : s'.pair r = s.pair r :=
  h.becomes.pair hr hshared hW

theorem Advances.not_kept (h : g.Advances W s g' s') {r : Ref} (hr : r < s.pairs.size)
    (hkept : ¬ g.kept r) : ¬ g'.kept r := fun hr' =>
  (h.fresh hr').elim hkept fun hle => Nat.not_lt.2 hle hr

theorem Advances.size_le (h : g.Advances W s g' s') : s.pairs.size ≤ s'.pairs.size :=
  h.becomes.count .pair

theorem Comes.of_ok (h : g.Advances W s g' s') (hq : Q g' v s') : g.Comes W s Q v s' :=
  ⟨g', s', h, h.holds, .refl _ _, hq⟩

/-- The store is not changed. -/
theorem Comes.same {t : Store} (hs : g.Holds s) (hcalm : Calm g.kept s t) (hq : Q g v s) :
    g.Comes W t Q v t := ⟨g, s, (hs.calm hcalm).refl, hs, hcalm, hq⟩

theorem Comes.after {t : Store} (h : g'.Comes W' s' Q v t) (hadvances : g.Advances W s g' s')
    (hW : ∀ r, W' r → W r ∨ s.pairs.size ≤ r) : g.Comes W s Q v t := by
  obtain ⟨g'', s'', hadvances', hholds, hcalm, hq⟩ := h
  exact ⟨g'', s'', hadvances.trans hadvances' hW, hholds, hcalm, hq⟩

/-- Afterwards some more copies are made. -/
theorem Comes.calm {t t' : Store} (h : g.Comes W s Q v t) (hcalm : ∀ g', g.Advances W s g' t → Calm g'.kept t t')
    (hW : ∀ ⦃r⦄, r < t.pairs.size → ¬ (W r ∨ s.pairs.size ≤ r) → t'.pair r = t.pair r) :
    g.Comes W s Q v t' := by
  obtain ⟨g', s', hadvances, hholds, hcalm', hq⟩ := h
  have hmore := hcalm g' hadvances
  exact ⟨g', s', hadvances.trans (hadvances.holds.advances hmore hW) fun _ => id, hholds,
    hcalm'.trans hmore, hq⟩

/-- What is within reach of a call and the text it has made are kept. -/
def reaching (g : Estate) (w : Realm) : Estate where
  realm := w
  kept r := g.kept r ∨ w.shared .pair r r ∨ w.text r

theorem Holds.reaching (h : g.Holds s) {w : Realm} (hbecomes : g.realm.Becomes W s w s')
    (hW : ∀ r, W r → r < s.pairs.size → ¬ w.text r) : g.Advances W s (g.reaching w) s' where
  becomes := hbecomes
  holds :=
    { realm := hbecomes.holds
      shared := fun _ hr => .inr (.inl hr)
      text := fun _ hr => .inr (.inr hr)
      bound := fun r hr => by
        rcases hr with hr | hr | hr
        · exact Nat.lt_of_lt_of_le (h.bound hr) (hbecomes.count .pair)
        · exact (hbecomes.holds.similar.bound hr).1
        · exact (hbecomes.holds.text hr).bound }
  kept _ hr := .inl hr
  fresh r hr := by
    rcases hr with hr | hr | hr
    · exact .inl hr
    · rcases hbecomes.gains.fresh hr with hold | ⟨hnew, -⟩
      · exact .inl (h.shared hold)
      · exact .inr hnew
    · rcases hbecomes.newText hr with hold | hnew | hwritten
      · exact .inl (h.text hold)
      · exact .inr hnew
      · exact .inr (Nat.not_lt.1 fun hlt => hW r hwritten hlt hr)

end Estate
end LittleScheme
