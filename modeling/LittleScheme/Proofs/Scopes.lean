import LittleScheme.Proofs.Similarity
import LittleScheme.Proofs.Views

/-!
# Names in similar stores

A scope is made after the one around it, so the chain of scopes is complete. Names have related values
in related scopes, and binding them on both sides keeps the stores similar.
-/
namespace LittleScheme

/-! ### One scope -/

namespace Scope

theorem lookup?_bind (c : Scope) (name : String) (v : Value) (other : String) :
    (c.bind name v).lookup? other = if name = other then some v else c.lookup? other := by
  unfold lookup? bind
  rw [Std.TreeMap.getElem?_insert]
  by_cases h : name = other
  · subst h
    rw [if_pos Std.ReflCmp.compare_self, if_pos rfl]
  · rw [if_neg (fun hcompare => h (Std.LawfulEqCmp.eq_of_compare hcompare)), if_neg h]

theorem contains_eq_isSome (c : Scope) (name : String) :
    c.contains name = (c.lookup? name).isSome := by
  unfold contains lookup?
  rw [Std.TreeMap.contains_eq_isSome_getElem?]
  cases c.bindings[name]? with
  | some v => rfl
  | none =>
      cases c.loop with
      | none => rfl
      | some loop => cases h : loop.1 == name <;> simp [h]

end Scope

/-! ### Names on both sides -/

open Value (Related)

namespace Similar

variable {ρ : Renaming} {s t : Store}

/-- The two chains of scopes, if the bounds leave room for them. -/
theorem chainWithin (h : Similar ρ s t) {m n : Nat} {a b : Ref} (hr : ρ .scope a b) (hm : a < m)
    (hn : b < n) : List.Forall₂ (ρ .scope) (s.chainWithin m a) (t.chainWithin n b) := by
  induction m generalizing a b n with
  | zero => lia
  | succ m ih =>
      obtain ⟨n, rfl⟩ : ∃ k, n = k + 1 := ⟨n - 1, by lia⟩
      rw [Store.chainWithin, Store.chainWithin]
      refine .cons hr ?_
      have hparent := (h.scope hr).parent
      have hleft := (h.alike hr).2.1
      have hright := (h.alike hr).2.2
      generalize (s.scope a).parent = p, (t.scope b).parent = q at *
      cases hparent with
      | none => exact .nil
      | some hp => exact ih hp (by have := hleft _ rfl; lia) (by have := hright _ rfl; lia)

theorem chain_scopes (h : Similar ρ s t) {a b : Ref} (hr : ρ .scope a b) :
    List.Forall₂ (ρ .scope) (s.chain a) (t.chain b) :=
  h.chainWithin hr (Nat.lt_succ_self a) (Nat.lt_succ_self b)

theorem lookup? (h : Similar ρ s t) {a b : Ref} (hr : ρ .scope a b) (name : String) :
    Option.Rel (Related ρ) ((s.scope a).lookup? name) ((t.scope b).lookup? name) := by
  have hbinding := (h.scope hr).bindings name
  have hloop := (h.scope hr).loop
  unfold Scope.lookup?
  generalize (s.scope a).bindings[name]? = x, (t.scope b).bindings[name]? = y at hbinding
  cases hbinding with
  | some hv => exact .some hv
  | none =>
      generalize (s.scope a).loop = x, (t.scope b).loop = y at hloop
      cases hloop with
      | none => exact .none
      | @some c d hcd =>
          obtain ⟨n, r⟩ := c
          obtain ⟨n', r'⟩ := d
          obtain ⟨rfl, hr'⟩ := hcd
          simp only
          split
          · exact .some (.closure hr')
          · exact .none

theorem contains (h : Similar ρ s t) {a b : Ref} (hr : ρ .scope a b) (name : String) :
    (s.scope a).contains name = (t.scope b).contains name := by
  have hbinding := (h.scope hr).bindings name
  have hloop := (h.scope hr).loop
  have hcontains : (s.scope a).bindings.contains name = (t.scope b).bindings.contains name := by
    rw [Std.TreeMap.contains_eq_isSome_getElem?, Std.TreeMap.contains_eq_isSome_getElem?]
    generalize (s.scope a).bindings[name]? = x, (t.scope b).bindings[name]? = y at hbinding
    cases hbinding <;> rfl
  unfold Scope.contains
  rw [hcontains]
  generalize (s.scope a).loop = x, (t.scope b).loop = y at hloop
  cases hloop with
  | none => rfl
  | @some c d hcd =>
      obtain ⟨n, r⟩ := c
      obtain ⟨n', r'⟩ := d
      obtain ⟨rfl, -⟩ := hcd
      rfl

theorem get? (h : Similar ρ s t) {a b : Ref} (hr : ρ .scope a b) (name : String) :
    Option.Rel (Related ρ) (s.get? a name) (t.get? b name) := by
  unfold Store.get?
  have hchain := h.chain_scopes hr
  generalize s.chain a = as, t.chain b = bs at hchain
  induction hchain with
  | nil => exact .none
  | @cons a b as bs hab _ ih =>
      rw [List.findSome?_cons, List.findSome?_cons]
      have hlook := h.lookup? hab name
      generalize (s.scope a).lookup? name = x, (t.scope b).lookup? name = y at hlook
      cases hlook with
      | some hv => exact .some hv
      | none => exact ih

theorem find? (h : Similar ρ s t) {a b : Ref} (hr : ρ .scope a b) (name : String) :
    Option.Rel (ρ .scope) (s.find? a name) (t.find? b name) := by
  unfold Store.find?
  have hchain := h.chain_scopes hr
  generalize s.chain a = as, t.chain b = bs at hchain
  induction hchain with
  | nil => exact .none
  | @cons a b as bs hab _ ih =>
      rw [List.find?_cons, List.find?_cons, h.contains hab name]
      split
      · exact .some hab
      · exact ih

end Similar

/-! ### Binding names -/

theorem Scope.Related.bind {ρ : Renaming} {c d : Scope} {v w : Value} (h : Scope.Related ρ c d)
    (name : String) (hv : Value.Related ρ v w) : Scope.Related ρ (c.bind name v) (d.bind name w) where
  bindings name' := by
    simp only [Scope.bind, Std.TreeMap.getElem?_insert]
    split
    · exact .some hv
    · exact h.bindings name'
  parent := h.parent
  loop := h.loop
  caller := h.caller

namespace Store

variable (s : Store)

theorem count_bind (r : Ref) (name : String) (v : Value) (k : Kind) :
    (s.bind r name v).count k = s.count k := by
  cases k <;> simp [count, bind]

theorem grows_bind (r : Ref) (name : String) (v : Value) : s.Grows (s.bind r name v) :=
  ⟨fun k => (s.count_bind r name v k).ge, fun _ _ => rfl, rfl⟩

theorem grows_bindAll (r : Ref) (bindings : List (String × Value)) :
    s.Grows (s.bindAll r bindings) := by
  induction bindings generalizing s with
  | nil => exact .refl s
  | cons x bindings ih => exact (s.grows_bind r x.1 x.2).trans (ih _)

theorem pairs_bindAll (r : Ref) (bindings : List (String × Value)) :
    (s.bindAll r bindings).pairs = s.pairs := by
  induction bindings generalizing s with
  | nil => rfl
  | cons x bindings ih => exact ih (s.bind r x.1 x.2)

theorem sameAt_bind {r q : Ref} {k : Kind} (h : ¬ (k = .scope ∧ q = r)) (name : String) (v : Value) :
    s.SameAt (s.bind r name v) k q := by
  cases k with
  | scope => exact getD_modify_of_ne _ _ (fun hq => h ⟨rfl, hq⟩) _
  | _ => rfl

theorem scope_bind {r : Ref} (h : r < s.scopes.size) (name : String) (v : Value) :
    (s.bind r name v).scope r = (s.scope r).bind name v := getD_modify_self _ _ h _

theorem scope_pushScope_self (c : Scope) : (s.pushScope c).scope s.scopes.size = c :=
  getD_push_self _ _ _

theorem fst_enterCall (closure : Ref) (args : List Value) :
    (s.enterCall closure args).1 = s.scopes.size := by
  unfold enterCall
  cases hrest : (s.closure closure).rest <;> simp only [hrest, nextScope]

end Store

namespace Similar

variable {ρ : Renaming} {s t : Store} {a b : Ref}

theorem bind (h : Similar ρ s t) (hr : ρ .scope a b) (name : String) {v w : Value}
    (hv : Related ρ v w) : Similar ρ (s.bind a name v) (t.bind b name w) := by
  refine h.update hr (fun _ _ hk => s.sameAt_bind hk name v) (fun _ _ hk => t.sameAt_bind hk name w)
    (s.count_bind a name v) (t.count_bind b name w) h.console ?_
  have halike := h.alike hr
  simp only [Alike, s.scope_bind (h.bound hr).1, t.scope_bind (h.bound hr).2]
  exact ⟨halike.1.bind name hv, halike.2⟩

theorem bindAll (h : Similar ρ s t) (hr : ρ .scope a b) {vs ws : List (String × Value)}
    (hvs : List.Forall₂ (fun x y => x.1 = y.1 ∧ Related ρ x.2 y.2) vs ws) :
    Similar ρ (s.bindAll a vs) (t.bindAll b ws) := by
  induction hvs generalizing s t with
  | nil => exact h
  | @cons x y vs ws hxy _ ih =>
      obtain ⟨name, v⟩ := x
      obtain ⟨name', w⟩ := y
      obtain ⟨rfl, hv⟩ := hxy
      exact ih (h.bind hr name hv)

theorem pushScope (h : Similar ρ s t) {c d : Scope} (hc : Scope.Related ρ c d) :
    Made ρ s t (fun ρ' => ρ' .scope) (s.nextScope, s.pushScope c) (t.nextScope, t.pushScope d) := by
  have hleft : ∀ p, c.parent = some p → p < s.nextScope := by
    intro p hp
    have hparent := hc.parent
    rw [hp] at hparent
    generalize d.parent = q at hparent
    cases hparent with
    | some hr => exact (h.bound hr).1
  have hright : ∀ p, d.parent = some p → p < t.nextScope := by
    intro p hp
    have hparent := hc.parent
    rw [hp] at hparent
    generalize c.parent = q at hparent
    cases hparent with
    | some hr => exact (h.bound hr).2
  obtain ⟨hsim, hgains⟩ := h.add .scope (s.keeps_pushScope c) (t.keeps_pushScope d)
    (by simp [Store.count, Store.pushScope]) (by simp [Store.count, Store.pushScope]) h.console (by
      simp only [Alike, Store.count, Store.scope_pushScope_self]
      exact ⟨hc.mono (ρ.le_add _ _ _), hleft, hright⟩)
  exact ⟨_, ⟨hgains, (s.keeps_pushScope c).grows rfl, (t.keeps_pushScope d).grows rfl⟩, hsim,
    .inr ⟨rfl, rfl, rfl⟩⟩

/-- The scope of a call: the parameters are bound to related arguments, the rest parameter to lists
of related arguments. -/
theorem enterCall (h : Similar ρ s t) (hr : ρ .closure a b) {vs ws : List Value}
    (hvs : List.Forall₂ (Related ρ) vs ws) :
    Made ρ s t (fun ρ' => ρ' .scope) (s.enterCall a vs) (t.enterCall b ws) := by
  have hc := h.closure hr
  unfold Store.enterCall
  obtain ⟨ρ₁, hlater₁, hsim₁, hscope⟩ := h.pushScope
    (c := { parent := some (s.closure a).scope, caller := some a })
    (d := { parent := some (t.closure b).scope, caller := some b })
    ⟨fun _ => by simp, .some hc.scope, .none, .some hr⟩
  have hbindings : List.Forall₂ (fun x y => x.1 = y.1 ∧ Related ρ₁ x.2 y.2)
      ((s.closure a).params.zip vs) ((t.closure b).params.zip ws) := by
    rw [hc.params]
    refine forall₂_zip (List.forall₂_same.2 fun _ _ => rfl) (hvs.imp fun _ _ hv => hv.mono hlater₁.le)
  have hsim₂ := hsim₁.bindAll hscope hbindings
  dsimp only at hlater₁ hscope hsim₂
  simp only [hc.rest]
  cases (t.closure b).rest with
  | none =>
      exact ⟨ρ₁, hlater₁.trans (.same (Store.grows_bindAll _ _ _) (Store.grows_bindAll _ _ _)),
        hsim₂, hscope⟩
  | some rest =>
      have hmore : List.Forall₂ (Related ρ₁) (vs.drop (s.closure a).params.length)
          (ws.drop (t.closure b).params.length) := by
        rw [hc.params]
        exact List.forall₂_drop _ (hvs.imp fun _ _ hv => hv.mono hlater₁.le)
      obtain ⟨ρ₃, hlater₃, hsim₃, hlist⟩ := hsim₂.list hmore
      have hlater₂ := (Later.same (Store.grows_bindAll _ _ _) (Store.grows_bindAll _ _ _)).trans
        hlater₃
      refine ⟨ρ₃, hlater₁.trans (hlater₂.trans (.same (Store.grows_bind _ _ _ _)
        (Store.grows_bind _ _ _ _))), ?_, hlater₃.le hscope⟩
      exact hsim₃.bind (hlater₃.le hscope) rest hlist

/-- The closure of a named `let` and its scope know each other, so they are related at once. -/
theorem newLoop (h : Similar ρ s t) (hr : ρ .scope a b) (name : String) (params : List String)
    (rest : Option String) (body body' : Value) :
    ∃ ρ', Gains ρ s t ρ' ∧
      Similar ρ' (s.newLoop a name params rest body).2 (t.newLoop b name params rest body').2 ∧
      Related ρ' (s.newLoop a name params rest body).1 (t.newLoop b name params rest body').1 := by
  have hscope : ∀ d, ¬ ρ .scope (s.count .scope) d := fun d hr => Nat.lt_irrefl _ (h.bound hr).1
  have hscope' : ∀ d, ¬ ρ .scope d (t.count .scope) := fun d hr => Nat.lt_irrefl _ (h.bound hr).2
  let ρ₁ := ρ.add .scope (s.count .scope) (t.count .scope)
  have hclosure : ∀ d, ¬ ρ₁ .closure (s.count .closure) d := by
    rintro d (hr | ⟨hk, -⟩)
    · exact Nat.lt_irrefl _ (h.bound hr).1
    · exact Kind.noConfusion hk
  have hclosure' : ∀ d, ¬ ρ₁ .closure d (t.count .closure) := by
    rintro d (hr | ⟨hk, -⟩)
    · exact Nat.lt_irrefl _ (h.bound hr).2
    · exact Kind.noConfusion hk
  let ρ₂ := ρ₁.add .closure (s.count .closure) (t.count .closure)
  have hle : ρ.Le ρ₂ := (ρ.le_add _ _ _).trans (ρ₁.le_add _ _ _)
  have hnewScope : ρ₂ .scope (s.count .scope) (t.count .scope) := .inl (.inr ⟨rfl, rfl, rfl⟩)
  have hnewClosure : ρ₂ .closure (s.count .closure) (t.count .closure) := .inr ⟨rfl, rfl, rfl⟩
  have hgrow : Similar ρ₂ (s.newLoop a name params rest body).2 (t.newLoop b name params rest body').2 ∧
      Gains ρ s t ρ₂ := by
    refine h.grow ((s.keeps_pushScope _).trans (Store.keeps_newClosure _ _))
      ((t.keeps_pushScope _).trans (Store.keeps_newClosure _ _)) h.console hle ?_
      (ρ₁.add_functional hclosure (ρ.add_functional hscope h.functional))
      (ρ₁.add_injective hclosure' (ρ.add_injective hscope' h.injective))
    rintro k c d ((hcd | ⟨rfl, rfl, rfl⟩) | ⟨rfl, rfl, rfl⟩)
    · exact .inl hcd
    · refine .inr ⟨⟨Nat.le_refl _, ?_⟩, ⟨Nat.le_refl _, ?_⟩, ?_⟩
      · simp [Store.count, Store.newLoop, Store.newClosure, Store.pushScope]
      · simp [Store.count, Store.newLoop, Store.newClosure, Store.pushScope]
      · have hs : (s.newLoop a name params rest body).2.scope (s.count .scope) =
            { parent := some a, loop := some (name, s.closures.size) } := getD_push_self _ _ _
        have ht : (t.newLoop b name params rest body').2.scope (t.count .scope) =
            { parent := some b, loop := some (name, t.closures.size) } := getD_push_self _ _ _
        rw [Alike, hs, ht]
        refine ⟨⟨fun _ => by simp, .some (hle hr), .some ⟨rfl, hnewClosure⟩, .none⟩, ?_, ?_⟩
        · rintro p ⟨⟩
          exact (h.bound hr).1
        · rintro p ⟨⟩
          exact (h.bound hr).2
    · refine .inr ⟨⟨Nat.le_refl _, ?_⟩, ⟨Nat.le_refl _, ?_⟩, ?_⟩
      · simp [Store.count, Store.newLoop, Store.newClosure, Store.pushScope]
      · simp [Store.count, Store.newLoop, Store.newClosure, Store.pushScope]
      · have hs : (s.newLoop a name params rest body).2.closure (s.count .closure) =
            ⟨some name, params, rest, body, s.nextScope⟩ := getD_push_self _ _ _
        have ht : (t.newLoop b name params rest body').2.closure (t.count .closure) =
            ⟨some name, params, rest, body', t.nextScope⟩ := getD_push_self _ _ _
        rw [Alike, hs, ht]
        exact ⟨rfl, rfl, rfl, hnewScope⟩
  exact ⟨ρ₂, hgrow.2, hgrow.1, .closure hnewClosure⟩

end Similar
end LittleScheme
