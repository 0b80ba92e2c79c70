import LittleScheme.Proofs.Atomicity
import LittleScheme.Proofs.Cells
import LittleScheme.Proofs.Shapes
import LittleScheme.Proofs.Sound

/-!
# Lists that are copied and lists that are shared

What `append`, `reverse` and `list-tail` do to the pairs of a store, which may form circles and share
their tails. `append` copies all lists but the last argument, which it puts behind the copies as it is,
and `reverse` copies its list. The copies are in new pairs, so a change of one reaches the other only
through what both share. `list-tail` copies nothing. No pair that was there is changed.
-/
namespace LittleScheme

namespace Store

/-! ### Ways along a chain -/

/-- Steps along second parts lead from a value through the given pairs to another value, which may be a
pair itself. -/
def Leads (s : Store) : Value → List Ref → Value → Prop
  | v, [], tail => v = tail
  | v, r :: cs, tail => v = .pair r ∧ s.Leads (s.cdr r) cs tail

/-- The value is a proper list of the given elements. -/
def IsListOf (s : Store) (v : Value) (items : List Value) : Prop :=
  ∃ cs, s.ListAt v cs ∧ cs.map s.car = items

variable {s : Store}

theorem Leads.follow_length {v tail : Value} {cs : List Ref} (h : s.Leads v cs tail) :
    s.follow cs.length v = tail := by
  induction cs generalizing v with
  | nil => exact h
  | cons r cs ih =>
      obtain ⟨rfl, h⟩ := h
      exact ih h

/-- There are pairs only before the end of a way. -/
theorem Leads.isPair_follow {v tail : Value} {cs : List Ref} (h : s.Leads v cs tail) {i : Nat}
    (hi : i < cs.length) : (s.follow i v).isPair = true := by
  induction cs generalizing v i with
  | nil => simp at hi
  | cons r cs ih =>
      obtain ⟨rfl, h⟩ := h
      cases i with
      | zero => rfl
      | succ i => exact ih h (by simpa using hi)

theorem Leads.congr {s' : Store} {v tail : Value} {cs : List Ref} (h : s.Leads v cs tail)
    (heq : ∀ r ∈ cs, s'.cdr r = s.cdr r) : s'.Leads v cs tail := by
  induction cs generalizing v with
  | nil => exact h
  | cons r cs ih =>
      obtain ⟨rfl, h⟩ := h
      refine ⟨rfl, ?_⟩
      rw [heq r (by simp)]
      exact ih h fun q hq => heq q (by simp [hq])

theorem Leads.chain {v mid tail : Value} {cs ds : List Ref} (h : s.Leads v cs mid)
    (hmid : s.Chain mid ds tail) : s.Chain v (cs ++ ds) tail := by
  induction cs generalizing v with
  | nil => exact h ▸ hmid
  | cons r cs ih => exact ⟨h.1, ih h.2⟩

/-- In a sound store the pairs of a chain are all there. -/
theorem Chain.listAt (hs : s.Sound) {v : Value} {cs : List Ref} (hv : v.Within s)
    (h : s.Chain v cs .nil) : s.ListAt v cs := by
  refine ⟨h, ?_⟩
  induction cs generalizing v with
  | nil => simp
  | cons r cs ih =>
      obtain ⟨rfl, h⟩ := h
      exact List.forall_mem_cons.2 ⟨hv, ih (hs.pair r hv).2 h⟩

theorem elements?_of_isListOf {v : Value} {items : List Value} (h : s.IsListOf v items) :
    s.elements? v = some items := by
  obtain ⟨cs, hcs, rfl⟩ := h
  exact hcs.elements?_eq

/-- A value that has elements is a proper list of them. -/
theorem isListOf_of_elements? (hs : s.Sound) {v : Value} (hv : v.Within s) {items : List Value}
    (h : s.elements? v = some items) : s.IsListOf v items := by
  have hlist : s.isList v = true := by
    by_contra hnot
    rw [elements?_of_not_isList (by simpa using hnot)] at h
    simp at h
  obtain ⟨cs, hcs⟩ := isList_iff.1 hlist
  have hat := hcs.listAt hs hv
  exact ⟨cs, hat, Option.some.inj (hat.elements?_eq ▸ h)⟩

/-! ### New pairs -/

/-- The step from `s` to `s'` made a list: from `v` new pairs with the given first parts lead to `tail`.
They are all that is new, and what there was is as it was. -/
structure Lengthened (s : Store) (v : Value) (items : List Value) (tail : Value) (s' : Store) : Prop where
  cells : ∃ cs, s'.Leads v cs tail ∧ cs.map s'.car = items ∧ cs.Nodup ∧
    ∀ r, r ∈ cs ↔ s.pairs.size ≤ r ∧ r < s'.pairs.size
  size : s'.pairs.size = s.pairs.size + items.length
  kept : ∀ r < s.pairs.size, s'.pair r = s.pair r
  others : s' = { s with pairs := s'.pairs }

theorem leads_listWithTail (items : List Value) (tail : Value) :
    (s.listWithTail items tail).2.Leads (s.listWithTail items tail).1
      (newCells s.pairs.size items.length) tail := by
  induction items with
  | nil => rfl
  | cons x items ih =>
      rw [List.length_cons, newCells, fst_listWithTail_cons]
      refine ⟨rfl, ?_⟩
      have hcdr : (s.listWithTail (x :: items) tail).2.cdr (s.pairs.size + items.length) =
          (s.listWithTail items tail).1 := by
        rw [listWithTail_cons, ← size_listWithTail items tail, cdr, pair_pushPair_self]
      rw [hcdr]
      refine ih.congr fun r hr => ?_
      rw [listWithTail_cons, cdr, pair_pushPair_of_lt, cdr]
      rw [size_listWithTail]
      exact (mem_newCells.1 hr).2

theorem lengthened_listWithTail (s : Store) (items : List Value) (tail : Value) :
    Lengthened s (s.listWithTail items tail).1 items tail (s.listWithTail items tail).2 where
  cells := by
    refine ⟨_, leads_listWithTail items tail, map_car_listWithTail items tail,
      (pairwise_newCells _ _).imp fun h => (Nat.ne_of_lt h).symm, fun r => ?_⟩
    rw [mem_newCells, size_listWithTail]
  size := size_listWithTail items tail
  kept r hr := pair_listWithTail_of_lt items tail hr
  others := listWithTail_eq items tail

namespace Lengthened

variable {v tail : Value} {items : List Value} {s' : Store}

/-- The lists that there were are what they were. -/
theorem keeps_isListOf (h : Lengthened s v items tail s') {w : Value} {ws : List Value}
    (hw : s.IsListOf w ws) : s'.IsListOf w ws := by
  obtain ⟨cs, hcs, rfl⟩ := hw
  have hkept : ∀ r ∈ cs, s'.pair r = s.pair r := fun r hr => h.kept r (hcs.2 r hr)
  refine ⟨cs, hcs.congr (fun r hr => cdr_eq_of_pair_eq (hkept r hr)) ?_,
    List.map_congr_left fun r hr => car_eq_of_pair_eq (hkept r hr)⟩
  rw [h.size]
  exact Nat.le_add_right _ _

/-- In front of a proper list the new pairs make a proper list. -/
theorem isListOf (h : Lengthened s v items tail s') {ts : List Value} (ht : s.IsListOf tail ts) :
    s'.IsListOf v (items ++ ts) := by
  obtain ⟨ds, hds, hts⟩ := h.keeps_isListOf ht
  obtain ⟨cs, hleads, hcs, -, hnew⟩ := h.cells
  refine ⟨cs ++ ds, ⟨hleads.chain hds.1, fun r hr => ?_⟩, by rw [List.map_append, hcs, hts]⟩
  rcases List.mem_append.1 hr with hr | hr
  · exact ((hnew r).1 hr).2
  · exact hds.2 r hr

theorem isListOf_nil (h : Lengthened s v items .nil s') : s'.IsListOf v items := by
  have hnil : s.IsListOf .nil [] := ⟨[], listAt_nil s, rfl⟩
  simpa using h.isListOf hnil

/-- As many steps as there are new pairs lead to the tail. -/
theorem follow_length (h : Lengthened s v items tail s') :
    s'.follow items.length v = tail ∧ ∀ i < items.length, (s'.follow i v).isPair = true := by
  obtain ⟨cs, hleads, rfl, -, -⟩ := h.cells
  rw [List.length_map]
  exact ⟨hleads.follow_length, fun i hi => hleads.isPair_follow hi⟩

end Lengthened

end Store

namespace Native

open Eval Argument

/-! ### Lists as arguments -/

/-- The computation stops with a fault, and the store is as it was. -/
def FailsIn {α : Type} (s : Store) (x : Eval α) : Prop :=
  ∃ fault, x.run s = .error (.error (.failed fault .none)) s

/-- A check that cannot succeed fails. -/
theorem failsIn_of_checks {α : Type} {s : Store} {x : Eval α} (h : ChecksFor (fun _ _ => False) x)
    (hnot : ∀ a, x.run s ≠ .ok a s) : FailsIn s x := by
  obtain ⟨a, ha⟩ | ⟨e, hreason, he⟩ := h s
  · exact absurd ha (hnot a)
  · obtain ⟨fault, rfl⟩ := hreason.resolve_right id
    exact ⟨fault, he⟩

theorem FailsIn.bind {α β : Type} {s : Store} {x : Eval α} (h : FailsIn s x) (f : α → Eval β) :
    FailsIn s (x >>= f) := by
  obtain ⟨fault, hx⟩ := h
  exact ⟨fault, run_bind_error hx⟩

theorem run_properList_eq_ok {name : String} {expected : Expected} {v : Value} {s s' : Store}
    {items : List Value} :
    (properList name expected v).run s = .ok items s' ↔ s.elements? v = some items ∧ s' = s := by
  rw [properList, run_ask_bind]
  cases s.elements? v with
  | none =>
      refine ⟨fun h => ?_, fun h => ?_⟩
      · cases h
      · simp at h
  | some items' =>
      rw [run_pure]
      simp [eq_comm]

theorem run_properLists_eq_ok {name : String} {expected : Expected} {vs : List Value} {s s' : Store}
    {itemss : List (List Value)} :
    (vs.mapM (properList name expected)).run s = .ok itemss s' ↔
      List.Forall₂ (fun v items => s.elements? v = some items) vs itemss ∧ s' = s := by
  induction vs generalizing itemss s' with
  | nil =>
      rw [List.mapM_nil, run_pure]
      simp [eq_comm]
  | cons v vs ih =>
      rw [List.mapM_cons, run_bind_eq_ok]
      constructor
      · rintro ⟨items, s₁, hv, hrest⟩
        obtain ⟨hv, rfl⟩ := run_properList_eq_ok.1 hv
        obtain ⟨rest, s₂, hvs, hpure⟩ := run_bind_eq_ok.1 hrest
        obtain ⟨hvs, rfl⟩ := ih.1 hvs
        cases hpure
        exact ⟨.cons hv hvs, rfl⟩
      · rintro ⟨hall, rfl⟩
        cases hall with
        | cons hv hvs =>
            refine ⟨_, _, run_properList_eq_ok.2 ⟨hv, rfl⟩, ?_⟩
            rw [run_bind_ok (ih.2 ⟨hvs, rfl⟩), run_pure]

theorem run_lists {p : Lists} {args : List Value}
    (hcount : (lists p).arity.accepts args.length = true) {s s' : Store} {v : Value}
    (h : (p.run args).run s = .ok v s') :
    ((lists p).call args).run s = .ok (.value v) s' := by
  rw [run_call hcount, run, run_bind_ok h, run_pure]

theorem failsIn_lists {p : Lists} {args : List Value}
    (hcount : (lists p).arity.accepts args.length = true) {s : Store} (h : FailsIn s (p.run args)) : FailsIn s ((lists p).call args) := by
  obtain ⟨fault, hfault⟩ := h
  refine ⟨fault, ?_⟩
  rw [run_call hcount, run, run_bind_error hfault]

/-! ### One procedure at a time -/

variable {s : Store}

theorem accepts_append (args : List Value) : (lists .append).arity.accepts args.length = true := by
  simp [Native.arity, Lists.arity, Arity.accepts]

/-- `append` puts the elements of its lists into new pairs in front of its last argument. -/
theorem call_append {vs : List Value} {itemss : List (List Value)}
    (h : List.Forall₂ s.IsListOf vs itemss) (tail : Value) :
    ∃ v s', ((lists .append).call (vs ++ [tail])).run s = .ok (.value v) s' ∧
      s.Lengthened v itemss.flatten tail s' := by
  refine ⟨_, _, run_lists (accepts_append _) ?_, Store.lengthened_listWithTail s _ tail⟩
  have hlists : (vs.mapM (properList "append" .properList)).run s = .ok itemss s :=
    run_properLists_eq_ok.2 ⟨h.imp fun _ _ => Store.elements?_of_isListOf, rfl⟩
  simp only [Lists.run, Lists.joined, List.getLast?_concat, List.dropLast_concat]
  rw [run_bind_ok hlists, run_make]

theorem forall₂_exists {α β : Type} {R : α → β → Prop} {as : List α} {bs : List β}
    (h : List.Forall₂ R as bs) : ∀ a ∈ as, ∃ b, R a b := by
  induction h with
  | nil => simp
  | cons hab _ ih => exact List.forall_mem_cons.2 ⟨⟨_, hab⟩, ih⟩

/-- `append` fails when one of its lists is not proper. -/
theorem call_append_fails (hs : s.Sound) {vs : List Value} {v : Value} (hv : v ∈ vs)
    (hwithin : v.Within s) (h : ¬ ∃ items, s.IsListOf v items) (tail : Value) :
    FailsIn s ((lists .append).call (vs ++ [tail])) := by
  refine failsIn_lists (accepts_append _) ?_
  simp only [Lists.run, Lists.joined, List.getLast?_concat, List.dropLast_concat]
  refine (failsIn_of_checks (checks_mapM (checks_properList _ _) _) fun itemss hok => h ?_).bind _
  obtain ⟨items, hitems⟩ := forall₂_exists (run_properLists_eq_ok.1 hok).1 v hv
  exact ⟨items, Store.isListOf_of_elements? hs hwithin hitems⟩

/-- `reverse` puts the elements of its list into new pairs from the last one on. -/
theorem call_reverse {v : Value} {items : List Value} (h : s.IsListOf v items) :
    ∃ w s', ((lists .reverse).call [v]).run s = .ok (.value w) s' ∧
      s.Lengthened w items.reverse .nil s' := by
  refine ⟨_, _, run_lists rfl ?_, Store.lengthened_listWithTail s _ .nil⟩
  have hlist : (properList "reverse" .properList v).run s = .ok items s :=
    run_properList_eq_ok.2 ⟨Store.elements?_of_isListOf h, rfl⟩
  rw [Lists.run, run_bind_ok hlist, run_make]
  rfl

theorem call_reverse_fails (hs : s.Sound) {v : Value} (hwithin : v.Within s)
    (h : ¬ ∃ items, s.IsListOf v items) : FailsIn s ((lists .reverse).call [v]) := by
  refine failsIn_lists rfl ?_
  rw [Lists.run]
  refine (failsIn_of_checks (checks_properList _ _ _) fun items hok => h ?_).bind _
  exact ⟨items, Store.isListOf_of_elements? hs hwithin (run_properList_eq_ok.1 hok).1⟩

theorem call_length {v : Value} {items : List Value} (h : s.IsListOf v items) :
    ((lists .length).call [v]).run s = .ok (.value (.ofNat items.length)) s := by
  refine run_lists rfl ?_
  have hlist : (properList "length" .properList v).run s = .ok items s :=
    run_properList_eq_ok.2 ⟨Store.elements?_of_isListOf h, rfl⟩
  rw [Lists.run, run_bind_ok hlist, run_pure]

/-- The tail of a chain is there when all steps to it start from pairs. -/
theorem tailAfter?_eq_some_iff {n : Nat} {v tail : Value} :
    Lists.tailAfter? s n v = some tail ↔
      (∀ i < n, (s.follow i v).isPair = true) ∧ s.follow n v = tail := by
  induction n generalizing v with
  | zero => simp [Lists.tailAfter?, Store.follow]
  | succ n ih =>
      cases v with
      | pair r =>
          rw [Lists.tailAfter?, ih]
          refine and_congr_left fun _ => ⟨fun h i hi => ?_, fun h i hi => h (i + 1) (by omega)⟩
          cases i with
          | zero => rfl
          | succ i => exact h i (by omega)
      | _ =>
          refine ⟨fun h => ?_, fun h => ?_⟩
          · simp [Lists.tailAfter?] at h
          · exact absurd (h.1 0 (by omega)) (by simp [Store.follow, Value.isPair])

theorem run_index_listTail {k : Int64} (hk : 0 ≤ k.toInt) :
    (index "list-tail" Lists.longest (.integer k)).run s = .ok k.toInt.toNat s := by
  have hhigh := k.toInt_lt
  have hbound : 0 ≤ k.toInt ∧ k.toInt < (Lists.longest : Int) := by
    simp only [Lists.longest]
    omega
  rw [index, Value.integer, integer, run_pure_bind, if_pos hbound, run_pure]

/-- `list-tail` gives the very value to which some steps lead. -/
theorem call_listTail {v : Value} {k : Int64} (hk : 0 ≤ k.toInt)
    (h : ∀ i < k.toInt.toNat, (s.follow i v).isPair = true) :
    ((lists .listTail).call [v, .integer k]).run s =
      .ok (.value (s.follow k.toInt.toNat v)) s := by
  refine run_lists rfl ?_
  have htail := tailAfter?_eq_some_iff.2 ⟨h, rfl⟩
  rw [Lists.run, Lists.tailOf, run_bind_ok (run_index_listTail hk), run_ask_bind, htail, run_pure]

theorem call_listTail_fails {v : Value} {k : Int64} (hk : 0 ≤ k.toInt)
    (h : ¬ ∀ i < k.toInt.toNat, (s.follow i v).isPair = true) :
    FailsIn s ((lists .listTail).call [v, .integer k]) := by
  refine failsIn_lists rfl ?_
  have hnone : Lists.tailAfter? s k.toInt.toNat v = none := by
    by_contra hsome
    obtain ⟨tail, htail⟩ := Option.ne_none_iff_exists'.1 hsome
    exact h (tailAfter?_eq_some_iff.1 htail).1
  refine ⟨.shortList (s.written v) k.toInt.toNat, ?_⟩
  rw [Lists.run, Lists.tailOf, run_bind_ok (run_index_listTail hk), run_ask_bind, hnone]
  rfl

/-! ### Two lists after each other -/

theorem call_append_two {a b : Value} {as : List Value} (ha : s.IsListOf a as) :
    ∃ v s', ((lists .append).call [a, b]).run s = .ok (.value v) s' ∧ s.Lengthened v as b s' := by
  have h := call_append (.cons ha .nil) b
  rwa [List.flatten_singleton] at h

/-- After as many pairs as the first list has, the second list itself is found. -/
theorem call_listTail_append {v b : Value} {as : List Value} {s' : Store}
    (h : s.Lengthened v as b s') (hlength : (as.length : Int) ≤ Number.greatest) :
    ((lists .listTail).call [v, .ofNat as.length]).run s' = .ok (.value b) s' := by
  have hlt : (as.length : Int) < 9223372036854775808 := by
    simp only [Number.greatest] at hlength
    omega
  have hint : (Int64.ofNat as.length).toInt = as.length := Int64.toInt_ofNat_of_lt (by omega)
  obtain ⟨hfollow, hpairs⟩ := h.follow_length
  have htail := @call_listTail s' v (Int64.ofNat as.length) (by omega)
  rw [hint, Int.toNat_natCast, hfollow] at htail
  exact htail hpairs

/-- The reverse of two lists after each other has the elements of their reverses after each other. -/
theorem reverse_append {a b ab : Value} {as bs : List Value} (ha : s.IsListOf a as)
    (hb : s.IsListOf b bs) (hab : s.IsListOf ab (as ++ bs)) :
    ∃ x s₁ y s₂ z s₃ w s₄,
      ((lists .reverse).call [ab]).run s = .ok (.value x) s₁ ∧
      ((lists .reverse).call [b]).run s₁ = .ok (.value y) s₂ ∧
      ((lists .reverse).call [a]).run s₂ = .ok (.value z) s₃ ∧
      ((lists .append).call [y, z]).run s₃ = .ok (.value w) s₄ ∧
      s₄.IsListOf x (as ++ bs).reverse ∧ s₄.IsListOf w (as ++ bs).reverse := by
  obtain ⟨x, s₁, hx, h₁⟩ := call_reverse hab
  obtain ⟨y, s₂, hy, h₂⟩ := call_reverse (h₁.keeps_isListOf hb)
  obtain ⟨z, s₃, hz, h₃⟩ := call_reverse (h₂.keeps_isListOf (h₁.keeps_isListOf ha))
  obtain ⟨w, s₄, hw, h₄⟩ := call_append_two (h₃.keeps_isListOf h₂.isListOf_nil)
  refine ⟨x, s₁, y, s₂, z, s₃, w, s₄, hx, hy, hz, hw, ?_, ?_⟩
  · exact h₄.keeps_isListOf (h₃.keeps_isListOf (h₂.keeps_isListOf h₁.isListOf_nil))
  · rw [List.reverse_append]
    exact h₄.isListOf h₃.isListOf_nil

/-- What `append`, `reverse` and `list-tail` do on any store, in which lists may be circular or share
pairs. `append` and `reverse` succeed exactly on proper lists and make new pairs only, and `append` ends
in its last argument itself. `list-tail` succeeds exactly when the steps it takes start from pairs, and
gives what they lead to. A call that fails changes nothing. Of two proper lists after each other the
length is the sum of theirs, the tail behind the first is the second itself, and the reverse has the
elements of the reverses in the other order. -/
theorem lists_are_copied_or_shared (hs : s.Sound) :
    ((lists .append).call []).run s = .ok (.value .nil) s ∧
    (∀ (vs : List Value) (tail : Value), (∀ v ∈ vs, v.Within s) →
      (∀ itemss, List.Forall₂ s.IsListOf vs itemss →
        ∃ v s', ((lists .append).call (vs ++ [tail])).run s = .ok (.value v) s' ∧
          s.Lengthened v itemss.flatten tail s') ∧
      ((∃ v ∈ vs, ¬ ∃ items, s.IsListOf v items) →
        FailsIn s ((lists .append).call (vs ++ [tail])))) ∧
    (∀ v : Value, v.Within s →
      (∀ items, s.IsListOf v items →
        ∃ w s', ((lists .reverse).call [v]).run s = .ok (.value w) s' ∧
          s.Lengthened w items.reverse .nil s') ∧
      ((¬ ∃ items, s.IsListOf v items) → FailsIn s ((lists .reverse).call [v]))) ∧
    (∀ (v : Value) (k : Int64), 0 ≤ k.toInt →
      ((∀ i < k.toInt.toNat, (s.follow i v).isPair = true) →
        ((lists .listTail).call [v, .integer k]).run s =
          .ok (.value (s.follow k.toInt.toNat v)) s) ∧
      ((¬ ∀ i < k.toInt.toNat, (s.follow i v).isPair = true) →
        FailsIn s ((lists .listTail).call [v, .integer k]))) ∧
    ∀ (a b : Value) (as bs : List Value), s.IsListOf a as → s.IsListOf b bs →
      ((lists .length).call [a]).run s = .ok (.value (.ofNat as.length)) s ∧
      ((lists .length).call [b]).run s = .ok (.value (.ofNat bs.length)) s ∧
      ∃ v s', ((lists .append).call [a, b]).run s = .ok (.value v) s' ∧
        ((lists .length).call [v]).run s' = .ok (.value (.ofNat (as.length + bs.length))) s' ∧
        ((as.length : Int) ≤ Number.greatest →
          ((lists .listTail).call [v, .ofNat as.length]).run s' = .ok (.value b) s') ∧
        ∃ x s₁ y s₂ z s₃ w s₄,
          ((lists .reverse).call [v]).run s' = .ok (.value x) s₁ ∧
          ((lists .reverse).call [b]).run s₁ = .ok (.value y) s₂ ∧
          ((lists .reverse).call [a]).run s₂ = .ok (.value z) s₃ ∧
          ((lists .append).call [y, z]).run s₃ = .ok (.value w) s₄ ∧
          s₄.IsListOf x (as ++ bs).reverse ∧ s₄.IsListOf w (as ++ bs).reverse := by
  refine ⟨rfl, fun vs tail hvs => ⟨fun itemss h => call_append h tail, ?_⟩,
    fun v hv => ⟨fun items => call_reverse, call_reverse_fails hs hv⟩,
    fun v k hk => ⟨call_listTail hk, call_listTail_fails hk⟩, fun a b as bs ha hb => ?_⟩
  · rintro ⟨v, hv, h⟩
    exact call_append_fails hs hv (hvs v hv) h tail
  · obtain ⟨v, s', hv, hnew⟩ := call_append_two (b := b) ha
    have hlist : s'.IsListOf v (as ++ bs) := hnew.isListOf hb
    have hlength := call_length hlist
    rw [List.length_append] at hlength
    exact ⟨call_length ha, call_length hb, v, s', hv, hlength, call_listTail_append hnew,
      reverse_append (hnew.keeps_isListOf ha) (hnew.keeps_isListOf hb) hlist⟩

/-- A list of two elements is put in front of a circle of one pair, which stays as it is. Neither a copy
nor a reverse of the circle can be made, but it has a tail after any number of steps. -/
theorem lists_are_copied_or_shared_circle :
    let s : Store := { pairs := #[⟨.bool true, .pair 1⟩, ⟨.bool false, .nil⟩, ⟨.nil, .pair 2⟩] }
    (∃ v s', ((lists .append).call [.pair 0, .pair 2]).run s = .ok (.value v) s' ∧
      s.Lengthened v [.bool true, .bool false] (.pair 2) s') ∧
    FailsIn s ((lists .append).call [.pair 2, .pair 0]) ∧ FailsIn s ((lists .reverse).call [.pair 2]) ∧
    ((lists .listTail).call [.pair 2, .integer 5]).run s = .ok (.value (.pair 2)) s := by
  intro s
  have hs : s.Sound := {
    pair := by decide
    vector := by decide
    closure := by decide
    binding := fun r hr => absurd hr (Nat.not_lt_zero r)
    parent := fun r hr => absurd hr (Nat.not_lt_zero r)
    loop := fun r hr => absurd hr (Nat.not_lt_zero r)
    caller := fun r hr => absurd hr (Nat.not_lt_zero r)
    ports := by decide }
  have hcircle : ¬ ∃ items, s.IsListOf (.pair 2) items := by
    rintro ⟨items, cs, hcs, -⟩
    exact absurd hcs.isList (by decide)
  have hlist : s.IsListOf (.pair 0) [.bool true, .bool false] :=
    ⟨[0, 1], ⟨⟨rfl, rfl, rfl, rfl⟩, by decide⟩, rfl⟩
  obtain ⟨-, happend, hreverse, htail, -⟩ := lists_are_copied_or_shared hs
  refine ⟨?_, ?_, (hreverse (.pair 2) (by decide)).2 hcircle, ?_⟩
  · exact (happend [.pair 0] (.pair 2) (by decide)).1 [[.bool true, .bool false]] (.cons hlist .nil)
  · exact (happend [.pair 2] (.pair 0) (by decide)).2 ⟨.pair 2, by simp, hcircle⟩
  · exact (htail (.pair 2) 5 (by decide)).1 (by decide)

end Native
end LittleScheme
