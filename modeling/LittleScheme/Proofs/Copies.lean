import LittleScheme.Proofs.Frames
import LittleScheme.Proofs.Matching

/-!
# Expressions and their copies

A frame holds a copy of the expression that the recursive evaluator reads from the text: a list of the
same elements in pairs of its own, or the expression itself when it is no proper list. The copy stays
good for as long as its pairs are in use and receive no values.
-/
namespace LittleScheme

open Value (Related)

/-- The pairs of a list, besides some others. -/
abbrev Including (K : Ref → Prop) (own : List Ref) (q : Ref) : Prop := K q ∨ q ∈ own

theorem Store.pair_ext {s s' : Store} {r : Ref} (hcar : s'.car r = s.car r)
    (hcdr : s'.cdr r = s.cdr r) : s'.pair r = s.pair r := by
  unfold Store.car at hcar
  unfold Store.cdr at hcdr
  generalize s'.pair r = p at *
  generalize s.pair r = q at *
  cases p
  cases q
  simp_all

/-- A new list with at least one element, in pairs that are new. -/
theorem Store.exists_list (s : Store) (v : Value) (vs : List Value) :
    ∃ r cs, (s.list (v :: vs)).1 = .pair r ∧ (s.list (v :: vs)).2.ListAt (.pair r) (r :: cs) ∧
      (r :: cs).map (s.list (v :: vs)).2.car = v :: vs ∧ ∀ c ∈ r :: cs, s.pairs.size ≤ c := by
  have hfst : (s.list (v :: vs)).1 = .pair (s.pairs.size + vs.length) :=
    Store.fst_listWithTail_cons _ _ _
  have hlist := Store.listAt_list (s := s) (v :: vs)
  rw [hfst] at hlist
  refine ⟨s.pairs.size + vs.length, Store.newCells s.pairs.size vs.length, hfst, hlist,
    Store.map_car_list (v :: vs), fun c hc => ?_⟩
  exact (Store.mem_newCells (n := s.pairs.size) (k := vs.length + 1)).1 hc |>.1

/-! ### Lists to be evaluated -/

/-- Where a list comes from that is evaluated on the left: it is text, or it was made by the evaluator
itself, as an application. -/
inductive Source (T : Ref → Prop) (ρ : Renaming) (s : Store) : List Ref → Prop
  | text {cs : List Ref} (h : ∀ c ∈ cs, T c) : Source T ρ s cs
  | application {r : Ref} {cs : List Ref} (hfree : ∀ c ∈ r :: cs, ρ.LeftFree c)
      (hhead : ∀ k, s.car r ≠ .keyword k) (hcode : ∀ c ∈ r :: cs, Code T (s.car c)) :
      Source T ρ s (r :: cs)

namespace Source

variable {T K D : Ref → Prop} {ρ ρ' : Renaming} {s t s' t' : Store} {r : Ref} {cs : List Ref}

theorem fixed (h : Source T ρ s cs) : ∀ c ∈ cs, T c ∨ ρ.LeftFree c := by
  cases h with
  | text h => exact fun c hc => .inl (h c hc)
  | application hfree _ _ => exact fun c hc => .inr (hfree c hc)

/-- A special form is text. -/
theorem text_of_keyword (h : Source T ρ s (r :: cs)) {k : Keyword} (hhead : s.car r = .keyword k) :
    ∀ c ∈ r :: cs, T c := by
  cases h with
  | text h => exact h
  | application _ hnot _ => exact absurd hhead (hnot k)

/-- The elements of the list are code. -/
theorem code (h : Source T ρ s (r :: cs)) (htext : TextIn T s) :
    ∀ c ∈ r :: cs, Code T (s.car c) := by
  cases h with
  | text h => exact fun c hc => (htext (h c hc)).2.1
  | application _ _ hcode => exact hcode

theorem same (h : Source T ρ s cs) (hafter : After T K D ρ s t ρ' s' t')
    (hbound : ∀ c ∈ cs, c < s.pairs.size) : ∀ c ∈ cs, s'.pair c = s.pair c :=
  fun c hc => hafter.fixed c (hbound c hc) (h.fixed c hc)

theorem later (h : Source T ρ s cs) (hafter : After T K D ρ s t ρ' s' t')
    (hbound : ∀ c ∈ cs, c < s.pairs.size) : Source T ρ' s' cs := by
  have hsame := h.same hafter hbound
  cases h with
  | text h => exact .text h
  | @application r cs hfree hhead hcode =>
      refine .application (fun c hc => hafter.leftFree (hbound c hc) (hfree c hc)) (fun k => ?_)
        fun c hc => ?_
      · rw [Store.car_eq_of_pair_eq (hsame r (by simp))]
        exact hhead k
      · rw [Store.car_eq_of_pair_eq (hsame c hc)]
        exact hcode c hc

end Source

/-- An expression on the left and what the machine has in its place, with the pairs that are the
machine's own. -/
inductive Expression (T : Ref → Prop) (ρ : Renaming) (s t : Store) : Value → Value → List Ref → Prop
  | atom {v w : Value} (hrelated : Related ρ v w) (hcode : Code T v)
      (hlist : v.isPair = true → s.isList v = false) : Expression T ρ s t v w []
  | form {r q : Ref} {cs ds : List Ref}
      (hlisted : Listed ρ s t (.pair r) (.pair q) (r :: cs) (q :: ds))
      (hsource : Source T ρ s (r :: cs)) : Expression T ρ s t (.pair r) (.pair q) (q :: ds)

section

variable {T K D : Ref → Prop} {ρ ρ' : Renaming} {s t s' t' : Store}

theorem After.right_pair (h : After T K D ρ s t ρ' s' t') {q : Ref} (hq : K q) (hD : ¬ D q) :
    t'.pair q = t.pair q := Store.pair_ext (h.spared q hq hD) (h.rests q hq)

theorem Expression.later {v w : Value} {own : List Ref} (h : Expression T ρ s t v w own)
    (htext : TextIn T s) (hafter : After T K D ρ s t ρ' s' t') (hown : ∀ q ∈ own, K q ∧ ¬ D q) :
    Expression T ρ' s' t' v w own := by
  cases h with
  | atom hrelated hcode hlist =>
      refine .atom (hrelated.mono hafter.le) hcode fun hpair => ?_
      rw [htext.isList_eq (fun r hr => hafter.fixed r (htext hr).1 (.inl hr)) (hafter.left .pair)
        hcode]
      exact hlist hpair
  | form hlisted hsource =>
      refine .form (hlisted.later hafter.le (hafter.left .pair) (hafter.right .pair) ?_ ?_)
        (hsource.later hafter hlisted.left.2)
      · exact hsource.same hafter hlisted.left.2
      · exact fun q hq => hafter.right_pair (hown q hq).1 (hown q hq).2

/-! ### Making copies -/

theorem Listed.of_values {v w : Value} {cs ds : List Ref} (hleft : s.ListAt v cs)
    (hright : t.ListAt w ds) (hvalues : List.Forall₂ (Related ρ) (cs.map s.car) (ds.map t.car)) :
    Listed ρ s t v w cs ds := by
  refine ⟨hleft, hright, ?_⟩
  rwa [List.forall₂_map_left_iff, List.forall₂_map_right_iff] at hvalues

/-- A list made on the right of elements that a list on the left has. -/
theorem Listed.list {v : Value} {cs : List Ref} {ws : List Value} (hleft : s.ListAt v cs)
    (hws : List.Forall₂ (Related ρ) (cs.map s.car) ws) :
    Listed ρ s (t.list ws).2 v (t.list ws).1 cs (Store.newCells t.pairs.size ws.length) := by
  refine .of_values hleft (Store.listAt_list ws) ?_
  rwa [Store.map_car_list]

/-- Some new pairs, all different, have been taken. -/
structure Taken (t t' : Store) (own : List Ref) : Prop where
  keeps : t.Keeps t'
  console : t'.console = t.console
  fresh : ∀ q ∈ own, t.pairs.size ≤ q ∧ q < t'.pairs.size
  nodup : own.Nodup

namespace Taken

variable {own : List Ref}

theorem none (t : Store) : Taken t t [] := ⟨.refl t, rfl, by simp, .nil⟩

theorem append {t₁ : Store} {own' : List Ref} (h : Taken t t₁ own) (h' : Taken t₁ t' own') :
    Taken t t' (own ++ own') where
  keeps := h.keeps.trans h'.keeps
  console := h'.console.trans h.console
  fresh q hq := by
    have hleft := h.keeps.count .pair
    have hright := h'.keeps.count .pair
    rcases List.mem_append.1 hq with hq | hq
    · exact ⟨(h.fresh q hq).1, Nat.lt_of_lt_of_le (h.fresh q hq).2 hright⟩
    · exact ⟨Nat.le_trans hleft (h'.fresh q hq).1, (h'.fresh q hq).2⟩
  nodup := by
    refine List.nodup_append.2 ⟨h.nodup, h'.nodup, fun q hq q' hq' => ?_⟩
    rintro rfl
    exact Nat.not_lt.2 (h'.fresh q hq').1 (h.fresh q hq).2

/-- The new pairs are put to use. -/
theorem matched (h : Taken t t' own) (hm : Matched T K ρ s t) : Matched T (Including K own) ρ s t' :=
  hm.keeps (.refl s) h.keeps (by rw [h.console, hm.similar.console]) fun q hq =>
    hq.imp_right (h.fresh q)

theorem after (h : Taken t t' own) (hm : Matched T K ρ s t) : After T K D ρ s t ρ s t' :=
  .of_keeps hm (.refl s) h.keeps (by rw [h.console, hm.similar.console])

theorem apart (h : Taken t t' own) (hm : Matched T K ρ s t) {q : Ref} (hq : q ∈ own) : ¬ K q :=
  fun hk => Nat.not_lt.2 (h.fresh q hq).1 (hm.reserved hk).1

end Taken

/-- A copy of an expression has been made for the machine, in the given pairs. -/
structure Copied (T : Ref → Prop) (ρ : Renaming) (s t : Store) (v w : Value) (t' : Store)
    (own : List Ref) : Prop extends Taken t t' own where
  expression : Expression T ρ s t' v w own

/-- A list made of the elements of one on the left is a copy of it. -/
theorem copied_list {r : Ref} {cs : List Ref} {ws : List Value} (hleft : s.ListAt (.pair r) (r :: cs))
    (hsource : Source T ρ s (r :: cs))
    (hws : List.Forall₂ (Related ρ) ((r :: cs).map s.car) ws) :
    Copied T ρ s t (.pair r) (t.list ws).1 (t.list ws).2
      (Store.newCells t.pairs.size ws.length) where
  keeps := t.keeps_listWithTail ws .nil
  console := by rw [Store.list, Store.listWithTail_eq]
  expression := by
    have hlisted := Listed.list (t := t) hleft hws
    cases ws with
    | nil => cases hws
    | cons w ws =>
        have hfst : (t.list (w :: ws)).1 = .pair (t.pairs.size + ws.length) :=
          Store.fst_listWithTail_cons _ _ _
        rw [hfst] at hlisted ⊢
        exact .form hlisted hsource
  fresh q hq := by
    rw [Store.size_list]
    exact Store.mem_newCells.1 hq
  nodup := (Store.pairwise_newCells _ _).imp fun hlt => Nat.ne_of_gt hlt

theorem Matched.copy (h : Matched T K ρ s t) {v w : Value} (hv : Related ρ v w) (hcode : Code T v) :
    ∃ own, Copied T ρ s t v (t.copySpine w).1 (t.copySpine w).2 own := by
  have hitself : t.copySpine w = (w, t) → (v.isPair = true → s.isList v = false) →
      ∃ own, Copied T ρ s t v (t.copySpine w).1 (t.copySpine w).2 own := by
    intro hcopy hlist
    rw [hcopy]
    exact ⟨[], .none t, .atom hv hcode hlist⟩
  cases hl : s.isList v with
  | false =>
      refine hitself ?_ fun _ => hl
      have hl' : t.isList w = false := (h.similar.isList_eq hv).symm.trans hl
      cases w with
      | pair q => rw [Store.copySpine, Store.elements?_of_not_isList hl']
      | _ => rfl
  | true =>
      have hv' := hv
      cases hv with
      | @pair r q hr =>
          obtain ⟨cs, ds, hlisted, -⟩ := h.similar.listed hv' hl
          have htext := h.text.chain hcode hlisted.left.1
          rw [Store.copySpine, hlisted.right.elements?_eq]
          cases cs with
          | nil => exact absurd hlisted.left.1.1 (by simp)
          | cons c cs =>
              obtain ⟨⟨⟩, -⟩ := hlisted.left.1
              exact ⟨_, copied_list hlisted.left (.text htext) hlisted.values⟩
      | _ => exact hitself rfl (by simp [Value.isPair])

end
end LittleScheme
