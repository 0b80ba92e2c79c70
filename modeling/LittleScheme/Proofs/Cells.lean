import LittleScheme.Proofs.Chain
import LittleScheme.Store.Scope

/-!
# Reading what was stored

A new object stands at the place after the last of its kind and leaves all others as they are; a
change of one object leaves all others as they are. A new list runs down from the last new pair.
-/
namespace LittleScheme.Store

variable (s : Store)

/-! ### Pairs -/

theorem pair_pushPair (a b : Value) (r : Ref) :
    (s.pushPair a b).pair r = if r = s.pairs.size then ⟨a, b⟩ else s.pair r := by
  simp only [pushPair, pair, Array.getD_eq_getD_getElem?, Array.getElem?_push]
  split <;> simp_all

@[simp] theorem pair_pushPair_self (a b : Value) : (s.pushPair a b).pair s.pairs.size = ⟨a, b⟩ := by
  rw [pair_pushPair, if_pos rfl]

theorem pair_pushPair_of_lt (a b : Value) {r : Ref} (h : r < s.pairs.size) :
    (s.pushPair a b).pair r = s.pair r := by
  rw [pair_pushPair, if_neg (Nat.ne_of_lt h)]

@[simp] theorem size_pushPair (a b : Value) : (s.pushPair a b).pairs.size = s.pairs.size + 1 := by
  simp [pushPair]

theorem pair_setCar (r q : Ref) (v : Value) :
    (s.setCar r v).pair q =
      if q = r ∧ r < s.pairs.size then { s.pair q with car := v } else s.pair q := by
  simp only [setCar, pair, Array.getD_eq_getD_getElem?, Array.getElem?_modify]
  by_cases hq : r = q
  · subst hq
    by_cases hr : r < s.pairs.size <;> simp [hr]
  · simp [hq, Ne.symm hq]

theorem pair_setCdr (r q : Ref) (v : Value) :
    (s.setCdr r v).pair q =
      if q = r ∧ r < s.pairs.size then { s.pair q with cdr := v } else s.pair q := by
  simp only [setCdr, pair, Array.getD_eq_getD_getElem?, Array.getElem?_modify]
  by_cases hq : r = q
  · subst hq
    by_cases hr : r < s.pairs.size <;> simp [hr]
  · simp [hq, Ne.symm hq]

@[simp] theorem size_setCar (r : Ref) (v : Value) : (s.setCar r v).pairs.size = s.pairs.size := by
  simp [setCar]

@[simp] theorem size_setCdr (r : Ref) (v : Value) : (s.setCdr r v).pairs.size = s.pairs.size := by
  simp [setCdr]

variable {s}

theorem pair_setCar_ne {r q : Ref} (h : q ≠ r) (v : Value) : (s.setCar r v).pair q = s.pair q := by
  rw [pair_setCar, if_neg (fun hq => h hq.1)]

theorem pair_setCdr_ne {r q : Ref} (h : q ≠ r) (v : Value) : (s.setCdr r v).pair q = s.pair q := by
  rw [pair_setCdr, if_neg (fun hq => h hq.1)]

theorem car_setCar {r : Ref} (h : r < s.pairs.size) (v : Value) : (s.setCar r v).car r = v := by
  rw [car, pair_setCar, if_pos ⟨rfl, h⟩]

@[simp] theorem cdr_setCar (r q : Ref) (v : Value) : (s.setCar r v).cdr q = s.cdr q := by
  rw [cdr, pair_setCar]
  split <;> rfl

theorem cdr_setCdr {r : Ref} (h : r < s.pairs.size) (v : Value) : (s.setCdr r v).cdr r = v := by
  rw [cdr, pair_setCdr, if_pos ⟨rfl, h⟩]

@[simp] theorem car_setCdr (r q : Ref) (v : Value) : (s.setCdr r v).car q = s.car q := by
  rw [car, pair_setCdr]
  split <;> rfl

theorem car_setCar_ne {r q : Ref} (h : q ≠ r) (v : Value) : (s.setCar r v).car q = s.car q := by
  rw [car, pair_setCar_ne h, car]

theorem cdr_setCdr_ne {r q : Ref} (h : q ≠ r) (v : Value) : (s.setCdr r v).cdr q = s.cdr q := by
  rw [cdr, pair_setCdr_ne h, cdr]

theorem setCar_car (c : Ref) : s.setCar c (s.car c) = s := by
  have hpairs : s.pairs.modify c (fun p => { p with car := s.car c }) = s.pairs := by
    apply Array.ext_getElem?
    intro i
    rw [Array.getElem?_modify]
    split
    · rename_i hi
      subst hi
      cases hpair : s.pairs[c]? with
      | none => rfl
      | some p => simp [car, pair, Array.getD_eq_getD_getElem?, hpair]
    · rfl
  rw [setCar, hpairs]

theorem car_eq_of_pair_eq {s' : Store} {r : Ref} (h : s'.pair r = s.pair r) : s'.car r = s.car r := by
  rw [car, h, car]

theorem cdr_eq_of_pair_eq {s' : Store} {r : Ref} (h : s'.pair r = s.pair r) : s'.cdr r = s.cdr r := by
  rw [cdr, h, cdr]

/-! ### Chains in another store -/

theorem Chain.congr {s' : Store} {v tail : Value} {cs : List Ref} (h : s.Chain v cs tail)
    (heq : ∀ r ∈ cs, s'.cdr r = s.cdr r) : s'.Chain v cs tail := by
  induction cs generalizing v with
  | nil => exact h
  | cons r cs ih =>
      obtain ⟨rfl, h⟩ := h
      refine ⟨rfl, ?_⟩
      rw [heq r (by simp)]
      exact ih h fun q hq => heq q (by simp [hq])

theorem ListAt.congr {s' : Store} {v : Value} {cs : List Ref} (h : s.ListAt v cs)
    (heq : ∀ r ∈ cs, s'.cdr r = s.cdr r) (hsize : s.pairs.size ≤ s'.pairs.size) :
    s'.ListAt v cs :=
  ⟨h.1.congr heq, fun r hr => Nat.lt_of_lt_of_le (h.2 r hr) hsize⟩

/-! ### New lists -/

/-- The places of `k` new pairs of a list from place `n` on, in the order of the list. -/
def newCells (n : Nat) : Nat → List Ref
  | 0 => []
  | k + 1 => (n + k) :: newCells n k

theorem mem_newCells {n k : Nat} {r : Ref} : r ∈ newCells n k ↔ n ≤ r ∧ r < n + k := by
  induction k with
  | zero => simp only [newCells, List.not_mem_nil, false_iff]; lia
  | succ k ih =>
      rw [newCells, List.mem_cons, ih]
      constructor
      · rintro (h | h) <;> lia
      · intro h
        by_cases hr : r = n + k
        · exact .inl hr
        · exact .inr (by lia)

theorem pairwise_newCells (n k : Nat) : (newCells n k).Pairwise (· > ·) := by
  induction k with
  | zero => exact .nil
  | succ k ih => exact .cons (fun r hr => (mem_newCells.1 hr).2) ih

@[simp] theorem length_newCells (n k : Nat) : (newCells n k).length = k := by
  induction k with
  | zero => rfl
  | succ k ih => rw [newCells, List.length_cons, ih]

theorem listWithTail_cons (x : Value) (items : List Value) (tail : Value) :
    s.listWithTail (x :: items) tail =
      (.pair (s.listWithTail items tail).2.pairs.size,
        (s.listWithTail items tail).2.pushPair x (s.listWithTail items tail).1) := rfl

@[simp] theorem size_listWithTail (items : List Value) (tail : Value) :
    (s.listWithTail items tail).2.pairs.size = s.pairs.size + items.length := by
  induction items with
  | nil => rfl
  | cons x items ih =>
      rw [listWithTail_cons, size_pushPair, ih, List.length_cons, Nat.add_assoc]

theorem pair_listWithTail_of_lt (items : List Value) (tail : Value) {r : Ref}
    (h : r < s.pairs.size) : (s.listWithTail items tail).2.pair r = s.pair r := by
  induction items with
  | nil => rfl
  | cons x items ih =>
      rw [listWithTail_cons, pair_pushPair_of_lt, ih]
      rw [size_listWithTail]
      lia

/-- Only pairs are made for a list. -/
theorem listWithTail_eq (items : List Value) (tail : Value) :
    (s.listWithTail items tail).2 = { s with pairs := (s.listWithTail items tail).2.pairs } := by
  induction items with
  | nil => rfl
  | cons x items ih =>
      rw [listWithTail_cons]
      simp only [pushPair]
      rw [ih]

theorem fst_listWithTail_cons (x : Value) (items : List Value) (tail : Value) :
    (s.listWithTail (x :: items) tail).1 = .pair (s.pairs.size + items.length) := by
  rw [listWithTail_cons, size_listWithTail]

theorem map_car_listWithTail (items : List Value) (tail : Value) :
    (newCells s.pairs.size items.length).map (s.listWithTail items tail).2.car = items := by
  induction items with
  | nil => rfl
  | cons x items ih =>
      rw [List.length_cons, newCells, List.map_cons]
      congr 1
      · rw [listWithTail_cons, ← size_listWithTail items tail, car, pair_pushPair_self]
      · refine Eq.trans (List.map_congr_left fun r hr => ?_) ih
        obtain ⟨-, hr⟩ := mem_newCells.1 hr
        rw [listWithTail_cons, car, pair_pushPair_of_lt, car]
        rwa [size_listWithTail]

/-- New pairs in front of the chain of their tail. -/
theorem chain_listWithTail {tail last : Value} {cs : List Ref} (items : List Value)
    (h : s.Chain tail cs last) (hcs : ∀ r ∈ cs, r < s.pairs.size) :
    (s.listWithTail items tail).2.Chain (s.listWithTail items tail).1
      (newCells s.pairs.size items.length ++ cs) last := by
  induction items with
  | nil => exact h
  | cons x items ih =>
      rw [List.length_cons, newCells, List.cons_append, fst_listWithTail_cons]
      refine ⟨rfl, ?_⟩
      have hcdr : (s.listWithTail (x :: items) tail).2.cdr (s.pairs.size + items.length) =
          (s.listWithTail items tail).1 := by
        rw [listWithTail_cons, ← size_listWithTail items tail, cdr, pair_pushPair_self]
      rw [hcdr]
      refine ih.congr fun r hr => ?_
      rw [listWithTail_cons, cdr, pair_pushPair_of_lt, cdr]
      rw [size_listWithTail]
      rcases List.mem_append.1 hr with hr | hr
      · exact (mem_newCells.1 hr).2
      · exact Nat.lt_of_lt_of_le (hcs r hr) (Nat.le_add_right _ _)

theorem listAt_list (items : List Value) :
    (s.list items).2.ListAt (s.list items).1 (newCells s.pairs.size items.length) := by
  have hchain := chain_listWithTail items (listAt_nil s).1 (listAt_nil s).2
  rw [List.append_nil] at hchain
  refine ⟨hchain, fun r hr => ?_⟩
  rw [list, size_listWithTail]
  exact (mem_newCells.1 hr).2

theorem map_car_list (items : List Value) :
    (newCells s.pairs.size items.length).map (s.list items).2.car = items :=
  map_car_listWithTail items .nil

theorem pair_list_of_lt (items : List Value) {r : Ref} (h : r < s.pairs.size) :
    (s.list items).2.pair r = s.pair r := pair_listWithTail_of_lt items .nil h

@[simp] theorem size_list (items : List Value) :
    (s.list items).2.pairs.size = s.pairs.size + items.length := size_listWithTail items .nil

/-- A new list tells the elements that it was made of and the store before. -/
theorem list_inj {t : Store} {vs ws : List Value} (hpairs : s.pairs = t.pairs)
    (h : (s.list vs).2 = (t.list ws).2) : s = t ∧ vs = ws := by
  have hlength : vs.length = ws.length := by
    have hsize := congrArg (fun s => s.pairs.size) h
    simp only [size_list, hpairs] at hsize
    omega
  constructor
  · have hbefore : ∀ (u : Store) items, { (u.list items).2 with pairs := u.pairs } = u := by
      intro u items
      rw [list, listWithTail_eq]
    rw [← hbefore s vs, ← hbefore t ws, h, hpairs]
  · rw [← map_car_list (s := s) vs, ← map_car_list (s := t) ws, h, hlength, hpairs]

end LittleScheme.Store
