import LittleScheme.Proofs.Frames
import LittleScheme.Proofs.Natives
import LittleScheme.Proofs.Procedures
import LittleScheme.Proofs.Sound

/-!
# Who owns which pairs

During an evaluation the pairs are of two sorts. The copies made for frames belong to the evaluation:
nothing refers to them but frames and the bodies of closures. All other objects are shared, and what
they hold is shared as well. Writes go to pairs of the first sort, so a pair from before the
evaluation changes only if it is named as an exception. Pairs that a frame further down works with
are of neither sort: they are held for it, and receive values at most.
-/
namespace LittleScheme

open Value (Related)

/-- The objects that are shared, each taken to itself, the pairs that belong to the evaluation, and the
pairs that are held for a frame further down, each with the rest of the list after it. -/
structure Ownership where
  shared : Renaming
  own : Ref → Prop
  held : Ref → Value → Prop := fun _ _ => False

namespace Ownership

/-- Nothing ceases to be shared or to be owned, and what is held stays the same. -/
structure Le (w w' : Ownership) : Prop where
  shared : w.shared.Le w'.shared
  own : ∀ ⦃r⦄, w.own r → w'.own r
  held : w'.held = w.held

theorem Le.refl (w : Ownership) : w.Le w := ⟨.refl _, fun _ h => h, rfl⟩

theorem Le.trans {w w' w'' : Ownership} (h : w.Le w') (h' : w'.Le w'') : w.Le w'' :=
  ⟨h.shared.trans h'.shared, fun _ hr => h'.own (h.own hr), h'.held.trans h.held⟩

/-- The ownership with other objects shared. -/
def withShared (w : Ownership) (ρ : Renaming) : Ownership := { w with shared := ρ }

/-- A value that may be handed to the program. -/
def Shared (w : Ownership) (v : Value) : Prop := Related w.shared v v

theorem Shared.mono {w w' : Ownership} {v : Value} (h : w.Shared v) (hle : w.Le w') : w'.Shared v :=
  Related.mono hle.shared h

/-- A list in pairs of the evaluation. -/
def Owned (w : Ownership) (v : Value) : Prop := ∃ q, v = .pair q ∧ w.own q

theorem Owned.mono {w w' : Ownership} {v : Value} (h : w.Owned v) (hle : w.Le w') : w'.Owned v := by
  obtain ⟨q, rfl, hq⟩ := h
  exact ⟨q, rfl, hle.own hq⟩

/-- The rest of a list in pairs of the evaluation, which were made one after the other from the end
of the list on. -/
def Below (w : Ownership) (r : Ref) (v : Value) : Prop := v = .nil ∨ ∃ q < r, v = .pair q ∧ w.own q

theorem Below.mono {w w' : Ownership} {r : Ref} {v : Value} (h : w.Below r v) (hle : w.Le w') :
    w'.Below r v := by
  rcases h with hnil | ⟨q, hlt, hv, hq⟩
  · exact .inl hnil
  · exact .inr ⟨q, hlt, hv, hle.own hq⟩

theorem Below.owned {w : Ownership} {r : Ref} {v : Value} (h : w.Below r v) : v = .nil ∨ w.Owned v :=
  h.imp_right fun ⟨q, _, hv, hq⟩ => ⟨q, hv, hq⟩

/-- What may stand as an expression. -/
def Code (w : Ownership) (v : Value) : Prop := w.Owned v ∨ w.Shared v

theorem Code.mono {w w' : Ownership} {v : Value} (h : w.Code v) (hle : w.Le w') : w'.Code v :=
  h.imp (·.mono hle) (·.mono hle)

/-- The sorts of pairs are kept apart in a store: no pair that is owned can be reached from a shared
object but through the body of a closure. What is owned was made after the first `N` pairs. -/
structure Holds (N : Nat) (w : Ownership) (s : Store) : Prop where
  similar : Similar w.shared s s
  diagonal : ∀ ⦃k a b⦄, w.shared k a b → a = b
  size : N ≤ s.pairs.size
  young : ∀ ⦃r⦄, w.own r → N ≤ r
  bound : ∀ ⦃r⦄, w.own r → r < s.pairs.size
  apart : ∀ ⦃r⦄, w.own r → ¬ w.shared .pair r r
  car : ∀ ⦃r⦄, w.own r → w.Shared (s.car r)
  cdr : ∀ ⦃r⦄, w.own r → w.Below r (s.cdr r)
  body : ∀ ⦃a⦄, w.shared .closure a a → w.Code (s.closure a).body
  held : ∀ ⦃r v⦄, w.held r v → r < N ∧ ¬ w.shared .pair r r ∧ s.cdr r = v

/-- A sound store, of which nothing is owned. -/
def start (s : Store) : Ownership := { shared := .identity s, own := fun _ => False }

theorem start_holds {s : Store} (h : s.Sound) : (start s).Holds s.pairs.size s where
  similar := h.similar
  diagonal _ _ _ hr := hr.1
  size := Nat.le_refl _
  young _ hr := hr.elim
  bound _ hr := hr.elim
  apart _ hr := hr.elim
  car _ hr := hr.elim
  cdr _ hr := hr.elim
  body a hr := .inr (h.closure a hr.2).1.related
  held _ _ hr := hr.elim

/-- The pairs of an expression that is a list. They are all owned, or all shared. -/
structure Spine (w : Ownership) (s : Store) (v : Value) (cs : List Ref) : Prop where
  list : s.ListAt v cs
  cells : (∀ r ∈ cs, w.own r) ∨ ∀ r ∈ cs, w.shared .pair r r

section

variable {N : Nat} {w : Ownership} {s : Store} {v : Value} {cs : List Ref}

theorem Holds.chain_owned (h : w.Holds N s) {tail : Value} (hv : v = .nil ∨ w.Owned v)
    (hchain : s.Chain v cs tail) : ∀ r ∈ cs, w.own r := by
  induction cs generalizing v with
  | nil => simp
  | cons c cs ih =>
      obtain ⟨rfl, hrest⟩ := hchain
      obtain ⟨q, hq, hown⟩ : w.Owned (.pair c) := by simpa using hv
      cases hq
      intro r hr
      rcases List.mem_cons.1 hr with rfl | hr
      · exact hown
      · exact ih (h.cdr hown).owned hrest r hr

theorem Holds.chain_shared (h : w.Holds N s) {tail : Value} (hv : w.Shared v)
    (hchain : s.Chain v cs tail) : ∀ r ∈ cs, w.shared .pair r r := by
  induction cs generalizing v with
  | nil => simp
  | cons c cs ih =>
      obtain ⟨rfl, hrest⟩ := hchain
      cases hv with
      | pair hc =>
          intro r hr
          rcases List.mem_cons.1 hr with rfl | hr
          · exact hc
          · exact ih (h.similar.cdr hc) hrest r hr

theorem Holds.cell_lt (h : w.Holds N s) {r : Ref} (hr : w.own r ∨ w.shared .pair r r) :
    r < s.pairs.size := by
  rcases hr with hr | hr
  · exact h.bound hr
  · exact (h.similar.bound hr).1

theorem Holds.cell_car (h : w.Holds N s) {r : Ref} (hr : w.own r ∨ w.shared .pair r r) :
    w.Shared (s.car r) := by
  rcases hr with hr | hr
  · exact h.car hr
  · exact h.similar.car hr

theorem Spine.cell (h : w.Spine s v cs) {r : Ref} (hr : r ∈ cs) : w.own r ∨ w.shared .pair r r :=
  h.cells.imp (· r hr) (· r hr)

theorem Spine.tail {c : Ref} (h : w.Spine s v (c :: cs)) : w.Spine s (s.cdr c) cs where
  list := h.list.tail
  cells := h.cells.imp (fun h r hr => h r (List.mem_cons_of_mem _ hr))
    fun h r hr => h r (List.mem_cons_of_mem _ hr)

theorem Holds.spine (h : w.Holds N s) (hv : w.Code v) (hl : s.isList v = true) :
    ∃ cs, w.Spine s v cs ∧ (w.Owned v → ∀ r ∈ cs, w.own r) := by
  obtain ⟨cs, hchain⟩ := Store.isList_iff.1 hl
  have hown : w.Owned v → ∀ r ∈ cs, w.own r := fun hv => h.chain_owned (.inr hv) hchain
  have hcells : (∀ r ∈ cs, w.own r) ∨ ∀ r ∈ cs, w.shared .pair r r :=
    hv.imp hown fun hv => h.chain_shared hv hchain
  refine ⟨cs, ⟨⟨hchain, fun r hr => h.cell_lt ?_⟩, hcells⟩, hown⟩
  exact hcells.imp (· r hr) (· r hr)

theorem Spine.listed (hs : w.Spine s v cs) (h : w.Holds N s) : Listed w.shared s s v v cs cs :=
  ⟨hs.list, hs.list, List.forall₂_same.2 fun _ hr => h.cell_car (hs.cell hr)⟩

/-- The rest of the operands, as the body of a closure. -/
theorem Spine.code_of_suffix {body : Value} {cs' : List Ref} (hs : w.Spine s v cs)
    (hne : cs' ≠ []) (hsuffix : cs' <:+ cs) (hbody : s.ListAt body cs') : w.Code body := by
  cases cs' with
  | nil => contradiction
  | cons c cs' =>
      obtain ⟨rfl, -⟩ := hbody.1
      have hc : c ∈ cs := hsuffix.subset (by simp)
      rcases hs.cell hc with hown | hshared
      · exact .inl ⟨c, rfl, hown⟩
      · exact .inr (.pair hshared)

theorem Holds.cell_of_code (h : w.Holds N s) {q : Ref} (hv : w.Code (.pair q)) :
    (w.own q ∨ w.shared .pair q q) ∧ (s.cdr q = .nil ∨ w.Code (s.cdr q)) := by
  rcases hv with ⟨_, hq, hown⟩ | hshared
  · cases hq
    exact ⟨.inl hown, (h.cdr hown).owned.imp_right .inl⟩
  · cases hshared with
    | pair hq => exact ⟨.inr hq, .inr (.inr (h.similar.cdr hq))⟩

/-- Whatever shape an expression has, the pairs along it are owned or shared. -/
theorem Holds.cellsWithin (h : w.Holds N s) (n : Nat) (hv : v = .nil ∨ w.Code v) :
    ∀ r ∈ s.cellsWithin n v, w.own r ∨ w.shared .pair r r := by
  induction n generalizing v with
  | zero => simp [Store.cellsWithin]
  | succ n ih =>
      cases v with
      | pair q =>
          obtain ⟨hq, hcdr⟩ := h.cell_of_code (hv.resolve_left (by simp))
          intro r hr
          rcases List.mem_cons.1 hr with rfl | hr
          · exact hq
          · exact ih hcdr r hr
      | _ => simp [Store.cellsWithin]

theorem Holds.elements_shared (h : w.Holds N s) (hv : w.Code v) : ∀ x ∈ s.elements v, w.Shared x := by
  intro x hx
  obtain ⟨r, hr, rfl⟩ := List.mem_map.1 hx
  exact h.cell_car (h.cellsWithin _ (.inr hv) r hr)

/-- A pair that is owned begins a list. -/
theorem Holds.isList_of_own (h : w.Holds N s) {r : Ref} (hr : w.own r) : s.isList (.pair r) = true := by
  induction r using Nat.strong_induction_on with
  | _ r ih =>
      rw [Store.isList_iff]
      rcases h.cdr hr with hnil | ⟨q, hlt, hcdr, hq⟩
      · exact ⟨[r], rfl, hnil, rfl⟩
      · obtain ⟨cs, hchain⟩ := Store.isList_iff.1 (ih q hlt hq)
        exact ⟨r :: cs, rfl, hcdr ▸ hchain⟩

/-! ### Making objects -/

/-- A renaming of a store to itself whose new part has to do with new objects, and pairs of the
evaluation made in the same time. -/
theorem Holds.extend (h : w.Holds N s) {w' : Ownership} {s' : Store}
    (hsize : s.pairs.size ≤ s'.pairs.size) (hpair : ∀ r < s.pairs.size, s'.pair r = s.pair r)
    (hclosure : ∀ a < s.closures.size, s'.closure a = s.closure a)
    (hgains : Gains w.shared s s w'.shared) (hsimilar : Similar w'.shared s' s')
    (hdiagonal : ∀ ⦃k a b⦄, w'.shared k a b → a = b) (hown : ∀ ⦃r⦄, w.own r → w'.own r)
    (hheld : w'.held = w.held)
    (hnew : ∀ ⦃r⦄, w'.own r → w.own r ∨ s.pairs.size ≤ r ∧ r < s'.pairs.size ∧
      ¬ w'.shared .pair r r ∧ w'.Shared (s'.car r) ∧ w'.Below r (s'.cdr r))
    (hbody : ∀ ⦃a⦄, w'.shared .closure a a → w.shared .closure a a ∨ w'.Code (s'.closure a).body) :
    w'.Holds N s' := by
  have hle : w.Le w' := ⟨hgains.le, hown, hheld⟩
  refine ⟨hsimilar, hdiagonal, Nat.le_trans h.size hsize, fun r hr => ?_, fun r hr => ?_,
    fun r hr => ?_, fun r hr => ?_, fun r hr => ?_, fun a ha => ?_, fun r v hr => ?_⟩
  · rcases hnew hr with hold | ⟨hle, -⟩
    · exact h.young hold
    · exact Nat.le_trans h.size hle
  · rcases hnew hr with hold | ⟨-, hlt, -⟩
    · exact Nat.lt_of_lt_of_le (h.bound hold) hsize
    · exact hlt
  · rcases hnew hr with hold | ⟨-, -, hapart, -⟩
    · intro hshared
      rcases hgains.fresh hshared with hs | ⟨hs, -⟩
      · exact h.apart hold hs
      · exact Nat.not_lt.2 hs (h.bound hold)
    · exact hapart
  · rcases hnew hr with hold | ⟨-, -, -, hcar, -⟩
    · rw [Store.car_eq_of_pair_eq (hpair r (h.bound hold))]
      exact (h.car hold).mono hle
    · exact hcar
  · rcases hnew hr with hold | ⟨-, -, -, -, hcdr⟩
    · rw [Store.cdr_eq_of_pair_eq (hpair r (h.bound hold))]
      exact (h.cdr hold).mono hle
    · exact hcdr
  · rcases hbody ha with hold | hcode
    · rw [hclosure a (h.similar.bound hold).1]
      exact (h.body hold).mono hle
    · exact hcode
  · rw [hheld] at hr
    obtain ⟨hlt, hapart, hcdr⟩ := h.held hr
    have hbound := Nat.lt_of_lt_of_le hlt h.size
    refine ⟨hlt, fun hshared => ?_, (Store.cdr_eq_of_pair_eq (hpair r hbound)).trans hcdr⟩
    rcases hgains.fresh hshared with hs | ⟨hs, -⟩
    · exact hapart hs
    · exact Nat.not_lt.2 hs hbound

theorem Holds.le_fixed (h : w.Holds N s) {ρ' : Renaming} (hle : w.shared.Le ρ') :
    w.Le (w.withShared ρ'.fixed) := ⟨fun _ _ _ hr => ⟨h.diagonal hr, hle hr⟩, fun _ hr => hr, rfl⟩

theorem Holds.gains_fixed (h : w.Holds N s) {ρ' : Renaming} (hgains : Gains w.shared s s ρ') :
    Gains w.shared s s ρ'.fixed := ⟨(h.le_fixed hgains.le).shared, fun _ _ _ hr => hgains.fresh hr.2⟩

/-- Shared objects are made or changed by a computation that agrees with itself. -/
theorem Holds.later (h : w.Holds N s) {ρ' : Renaming} {s' : Store}
    (hlater : Later w.shared s s ρ' s' s') (hs : Similar ρ' s' s') :
    (w.withShared ρ'.fixed).Holds N s' := by
  refine h.extend (hlater.left.count .pair) hlater.left.pair (fun a _ => ?_)
    (h.gains_fixed hlater.toGains) hs.fixed (fun _ _ _ hr => hr.1) (fun _ hr => hr) rfl
    (fun _ hr => .inl hr) fun a ha => ?_
  · rw [Store.closure, hlater.left.closures, Store.closure]
  · rcases hlater.fresh ha.2 with hold | ⟨hnew, -⟩
    · exact .inl hold
    · have hlt := (hs.bound ha.2).1
      simp only [Store.count, hlater.left.closures] at hnew hlt
      exact absurd hlt (Nat.not_lt.2 hnew)

/-- What is shared is the same in a store with more objects. -/
theorem Holds.similar_keeps (h : w.Holds N s) {s' : Store} (hkeeps : s.Keeps s')
    (hconsole : s'.console = s.console) : Similar w.shared s s' :=
  h.similar.congr (fun k a _ _ => .refl s k a)
    (fun k _ b hr => hkeeps.same k b (h.similar.bound hr).2) (fun _ => Nat.le_refl _) hkeeps.count
    hconsole.symm

/-- The ownership when the pairs from the end of a store on are owned as well. -/
def take (w : Ownership) (s s' : Store) : Ownership :=
  { w with own := fun r => w.own r ∨ s.pairs.size ≤ r ∧ r < s'.pairs.size }

theorem le_take (w : Ownership) (s s' : Store) : w.Le (w.take s s') :=
  ⟨.refl _, fun _ h => .inl h, rfl⟩

/-- A list of shared values in new pairs, which are owned. -/
theorem Holds.list (h : w.Holds N s) {items : List Value} (hitems : ∀ v ∈ items, w.Shared v) :
    (w.take s (s.list items).2).Holds N (s.list items).2 := by
  have hkeeps := s.keeps_listWithTail items .nil
  have hclosures : (s.list items).2.closures = s.closures := by
    rw [Store.list, Store.listWithTail_eq]
  refine h.extend (hkeeps.count .pair) (hkeeps.same .pair) (fun a _ => ?_)
    ⟨.refl _, fun _ _ _ hr => .inl hr⟩ ?_ h.diagonal (fun _ hr => .inl hr) rfl (fun r hr => ?_)
    fun _ ha => .inl ha
  · rw [Store.closure, hclosures, Store.closure]
  · exact h.similar.congr (fun k a _ hr => hkeeps.same k a (h.similar.bound hr).1)
      (fun k _ b hr => hkeeps.same k b (h.similar.bound hr).2) hkeeps.count hkeeps.count rfl
  · rcases hr with hold | ⟨hge, hlt⟩
    · exact .inl hold
    · have hlt' := hlt
      rw [Store.size_list] at hlt'
      have hmem : r ∈ Store.newCells s.pairs.size items.length := Store.mem_newCells.2 ⟨hge, hlt'⟩
      refine .inr ⟨hge, hlt, fun hshared => ?_, ?_, ?_⟩
      · exact Nat.not_lt.2 hge (h.similar.bound hshared).1
      · refine (hitems _ ?_).mono (le_take w s _)
        have hcar := List.mem_map_of_mem (f := (s.list items).2.car) hmem
        rwa [Store.map_car_list] at hcar
      · -- What comes after a pair of the list was made before it.
        obtain ⟨as, bs, hsplit⟩ := List.append_of_mem hmem
        have hchain := (Store.listAt_list (s := s) items).1
        have horder := Store.pairwise_newCells s.pairs.size items.length
        rw [hsplit] at hchain horder
        have hrest := hchain.drop
        cases bs with
        | nil => exact .inl hrest.2.1
        | cons q bs =>
            have hq : q ∈ Store.newCells s.pairs.size items.length := by simp [hsplit]
            obtain ⟨hq, hq'⟩ := Store.mem_newCells.1 hq
            have hlt := (List.pairwise_cons.1 (List.pairwise_append.1 horder).2.1).1 q (by simp)
            exact .inr ⟨q, hlt, hrest.2.1, .inr ⟨hq, by rwa [Store.size_list]⟩⟩

/-! ### Changing pairs -/

/-- A change of a pair that is not shared does not show in what is shared. -/
theorem Holds.similar_of_apart (h : w.Holds N s) {r : Ref} {s' : Store} (hr : ¬ w.shared .pair r r)
    (hsame : ∀ k q, ¬ (k = .pair ∧ q = r) → s.SameAt s' k q) (hcount : ∀ k, s'.count k = s.count k) :
    Similar w.shared s' s' := by
  have hne : ∀ k a b, w.shared k a b → ¬ (k = .pair ∧ a = r) := by
    rintro k a b hab ⟨rfl, rfl⟩
    obtain rfl := h.diagonal hab
    exact hr hab
  refine h.similar.congr (fun k a b hab => hsame k a (hne k a b hab)) (fun k a b hab => ?_)
    (fun k => (hcount k).ge) (fun k => (hcount k).ge) rfl
  obtain rfl := h.diagonal hab
  exact hsame k a (hne k a a hab)

theorem Holds.setCar (h : w.Holds N s) (r : Ref) (hv : w.Shared v) : w.Holds N (s.setCar r v) where
  similar := by
    by_cases hshared : w.shared .pair r r
    · exact h.similar.setCar hshared hv
    · exact h.similar_of_apart hshared (fun _ _ hk => s.sameAt_setCar hk v) (s.count_setCar r v)
  diagonal := h.diagonal
  size := by
    rw [Store.size_setCar]
    exact h.size
  young := h.young
  bound q hq := by
    rw [Store.size_setCar]
    exact h.bound hq
  apart := h.apart
  car q hq := by
    by_cases hqr : q = r
    · subst hqr
      rw [Store.car_setCar (h.bound hq)]
      exact hv
    · rw [Store.car_setCar_ne hqr]
      exact h.car hq
  cdr q hq := by
    rw [Store.cdr_setCar]
    exact h.cdr hq
  body := h.body
  held q rest hq := by
    rw [Store.cdr_setCar]
    exact h.held hq

/-- The rest of a list is put after one of its pairs, or after a shared pair a shared value. -/
theorem Holds.setCdr (h : w.Holds N s) {r : Ref}
    (hr : w.own r ∧ w.Below r v ∨ w.shared .pair r r ∧ w.Shared v) :
    w.Holds N (s.setCdr r v) where
  similar := by
    rcases hr with ⟨hr, -⟩ | ⟨hr, hv⟩
    · exact h.similar_of_apart (h.apart hr) (fun _ _ hk => s.sameAt_setCdr hk v) (s.count_setCdr r v)
    · exact h.similar.setCdr hr hv
  diagonal := h.diagonal
  size := by
    rw [Store.size_setCdr]
    exact h.size
  young := h.young
  bound q hq := by
    rw [Store.size_setCdr]
    exact h.bound hq
  apart := h.apart
  car q hq := by
    rw [Store.car_setCdr]
    exact h.car hq
  cdr q hq := by
    by_cases hqr : q = r
    · subst hqr
      rw [Store.cdr_setCdr (h.bound hq)]
      rcases hr with ⟨-, hv⟩ | ⟨hr, -⟩
      · exact hv
      · exact absurd hr (h.apart hq)
    · rw [Store.cdr_setCdr_ne hqr]
      exact h.cdr hq
  body := h.body
  held q rest hq := by
    obtain ⟨hlt, hapart, hcdr⟩ := h.held hq
    refine ⟨hlt, hapart, ?_⟩
    rw [Store.cdr_setCdr_ne ?_]
    · exact hcdr
    · rintro rfl
      rcases hr with ⟨hown, -⟩ | ⟨hshared, -⟩
      · exact Nat.not_lt.2 (h.young hown) hlt
      · exact hapart hshared

end

end Ownership
end LittleScheme
