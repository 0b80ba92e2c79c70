import LittleScheme.Proofs.Effects
import LittleScheme.Proofs.Scopes

/-!
# Lexical scope

Whatever has been done to a forest of scopes, a name means the binding in the nearest scope that has
one, and its value is the one it was last given there. An assignment is seen from exactly the scopes
that see the same binding, and a new binding from those that reach its scope before any other that
binds the name. The scopes of a program are tied to the record of what names were given.
-/
namespace LittleScheme

/-! ### What names were given -/

/-- A value given to a name in a scope. -/
structure Write where
  scope : Ref
  name : String
  value : Value

namespace Write

/-- The value that a name in a scope was last given. The last write stands first. -/
def last? (log : List Write) (r : Ref) (name : String) : Option Value :=
  (log.find? fun w => w.scope == r && w.name == name).map (·.value)

theorem last?_cons (w : Write) (log : List Write) (r : Ref) (name : String) :
    last? (w :: log) r name =
      if w.scope = r ∧ w.name = name then some w.value else last? log r name := by
  unfold last?
  rw [List.find?_cons]
  by_cases h : w.scope = r ∧ w.name = name
  · simp [h]
  · have hfalse : (w.scope == r && w.name == name) = false := by simpa using h
    rw [hfalse, if_neg h]

end Write

namespace Store

/-- The names that a call of a closure binds in its scope, in this order. -/
def argumentBindings (s : Store) (closure : Ref) (args : List Value) : List (String × Value) :=
  (s.closure closure).params.zip args ++
    (s.closure closure).rest.toList.map fun rest =>
      (rest, (s.list (args.drop (s.closure closure).params.length)).1)

/-- Going outward from a scope, none before `target` binds the name. -/
inductive Sees (s : Store) (name : String) (target : Ref) : Ref → Prop
  | here : Sees s name target target
  | outward {r p : Ref} (hr : (s.scope r).contains name = false) (hp : (s.scope r).parent = some p)
      (h : Sees s name target p) : Sees s name target r

/-- The nearest scope that binds a name. -/
def Nearest (s : Store) (r : Ref) (name : String) (found : Ref) : Prop :=
  s.Sees name found r ∧ (s.scope found).contains name = true

/-- The stores that scopes grow in, with the record of what names were given. The loop procedure of a
named `let` is what its name is given first. Other changes of the store do not matter. -/
inductive Grown : List Write → Store → Prop
  | empty {s : Store} (hscopes : s.scopes = #[]) (hclosures : s.closures = #[]) : Grown [] s
  | data {log : List Write} {s s' : Store} (h : Grown log s) (hscopes : s'.scopes = s.scopes)
      (hclosures : s'.closures = s.closures) : Grown log s'
  | root {log : List Write} {s s' : Store} {r : Ref} (h : Grown log s)
      (hrun : Eval.newRoot.run s = .ok r s') : Grown log s'
  | inside {log : List Write} {s s' : Store} {r q : Ref} (h : Grown log s) (hr : r < s.scopes.size)
      (hrun : (Eval.newInside r).run s = .ok q s') : Grown log s'
  | closure {log : List Write} {s : Store} (h : Grown log s) (c : Closure)
      (hc : c.scope < s.scopes.size) : Grown log (s.newClosure c).2
  | call {log : List Write} {s s' : Store} {closure r : Ref} {args : List Value} (h : Grown log s)
      (hc : closure < s.closures.size) (hrun : (Eval.enterCall closure args).run s = .ok r s') :
      Grown (((s.argumentBindings closure args).map fun b => ⟨r, b.1, b.2⟩).reverse ++ log) s'
  | loop {log : List Write} {s : Store} {r : Ref} (h : Grown log s) (hr : r < s.scopes.size)
      (name : String) (params : List String) (rest : Option String) (body : Value) :
      Grown (⟨s.scopes.size, name, .closure s.closures.size⟩ :: log)
        (s.newLoop r name params rest body).2
  | bind {log : List Write} {s s' : Store} {r : Ref} {name : String} {v u : Value} (h : Grown log s)
      (hr : r < s.scopes.size) (hrun : (Eval.bind r name v).run s = .ok u s') :
      Grown (⟨r, name, v⟩ :: log) s'
  | assign {log : List Write} {s s' : Store} {r found : Ref} {name : String} {v u : Value}
      (h : Grown log s) (hfound : s.Nearest r name found)
      (hrun : (Eval.assign r name v).run s = .ok u s') : Grown (⟨found, name, v⟩ :: log) s'

end Store

/-! ### Chains of scopes -/

namespace Store

/-- A scope stands after the one around it. -/
def Rooted (s : Store) : Prop := ∀ r p, (s.scope r).parent = some p → p < r

variable {s : Store}

theorem chainWithin_eq (hs : s.Rooted) {m n : Nat} {r : Ref} (hm : r < m) (hn : r < n) :
    s.chainWithin m r = s.chainWithin n r := by
  induction m generalizing r n with
  | zero => lia
  | succ m ih =>
      obtain ⟨n, rfl⟩ : ∃ k, n = k + 1 := ⟨n - 1, by lia⟩
      rw [chainWithin, chainWithin]
      cases hp : (s.scope r).parent with
      | none => rfl
      | some p =>
          have hlt := hs r p hp
          exact congrArg (r :: ·) (ih (by lia) (by lia))

theorem chain_of_parent (hs : s.Rooted) {r p : Ref} (hp : (s.scope r).parent = some p) :
    s.chain r = r :: s.chain p := by
  have hlt := hs r p hp
  rw [chain, chainWithin, hp]
  exact congrArg (r :: ·) (chainWithin_eq hs (by lia) (by lia))

theorem chain_of_no_parent {r : Ref} (hp : (s.scope r).parent = none) : s.chain r = [r] := by
  rw [chain, chainWithin, hp]

theorem find?_of_contains {r : Ref} {name : String} (h : (s.scope r).contains name = true) :
    s.find? r name = some r := by
  rw [find?, chain, chainWithin, List.find?_cons, h]

theorem find?_of_parent (hs : s.Rooted) {r p : Ref} {name : String}
    (h : (s.scope r).contains name = false) (hp : (s.scope r).parent = some p) :
    s.find? r name = s.find? p name := by
  rw [find?, chain_of_parent hs hp, List.find?_cons, h, find?]

theorem find?_of_no_parent {r : Ref} {name : String} (h : (s.scope r).contains name = false)
    (hp : (s.scope r).parent = none) : s.find? r name = none := by
  rw [find?, chain_of_no_parent hp, List.find?_cons, h]
  rfl

/-- The two walks agree: the value of a name is its value in the scope that is found. -/
theorem get?_eq (r : Ref) (name : String) :
    s.get? r name = (s.find? r name).bind fun found => (s.scope found).lookup? name := by
  unfold get? find?
  induction s.chain r with
  | nil => rfl
  | cons q rest ih =>
      rw [List.findSome?_cons, List.find?_cons, Scope.contains_eq_isSome]
      cases h : (s.scope q).lookup? name with
      | some v => simp [h]
      | none => simpa using ih

theorem find?_eq_some_iff (hs : s.Rooted) {r found : Ref} {name : String} :
    s.find? r name = some found ↔ s.Nearest r name found := by
  constructor
  · intro h
    -- by induction on the place: a scope stands after the one around it
    induction r using Nat.strong_induction_on with
    | _ r ih =>
        cases hr : (s.scope r).contains name with
        | true =>
            rw [find?_of_contains hr] at h
            obtain rfl := Option.some.inj h
            exact ⟨.here, hr⟩
        | false =>
            cases hp : (s.scope r).parent with
            | none =>
                rw [find?_of_no_parent hr hp] at h
                cases h
            | some p =>
                rw [find?_of_parent hs hr hp] at h
                have hnearest := ih p (hs r p hp) h
                exact ⟨.outward hr hp hnearest.1, hnearest.2⟩
  · rintro ⟨hsees, hfound⟩
    induction hsees with
    | here => exact find?_of_contains hfound
    | outward hr hp _ ih => rw [find?_of_parent hs hr hp, ih]

/-- The walks depend on the names that scopes bind and on the scopes around them. -/
theorem find?_congr {s' : Store} {name : String}
    (hparent : ∀ r, (s'.scope r).parent = (s.scope r).parent)
    (hcontains : ∀ r, (s'.scope r).contains name = (s.scope r).contains name) (r : Ref) :
    s'.find? r name = s.find? r name := by
  have hchain : ∀ n r, s'.chainWithin n r = s.chainWithin n r := by
    intro n
    induction n with
    | zero => exact fun _ => rfl
    | succ n ih =>
        intro r
        rw [chainWithin, chainWithin, hparent r]
        cases (s.scope r).parent with
        | none => rfl
        | some p => exact congrArg (r :: ·) (ih p)
  unfold find? chain
  rw [hchain]
  exact congrArg (List.find? · _) (funext hcontains)

/-! ### Binding a name -/

theorem scope_bind_of_ne {r q : Ref} (h : q ≠ r) (name : String) (v : Value) :
    (s.bind r name v).scope q = s.scope q := getD_modify_of_ne _ _ h _

theorem parent_bind (r : Ref) (name : String) (v : Value) (q : Ref) :
    ((s.bind r name v).scope q).parent = (s.scope q).parent := by
  by_cases hq : q = r
  · subst hq
    by_cases hr : q < s.scopes.size
    · rw [s.scope_bind hr, Scope.bind]
    · simp [scope, bind, Array.getD_eq_getD_getElem?, hr]
  · rw [scope_bind_of_ne hq]

theorem Rooted.bind (hs : s.Rooted) (r : Ref) (name : String) (v : Value) :
    (s.bind r name v).Rooted := by
  intro q p hp
  rw [parent_bind] at hp
  exact hs q p hp

theorem lookup?_bind {r : Ref} (hr : r < s.scopes.size) (name : String) (v : Value) (q : Ref)
    (other : String) : ((s.bind r name v).scope q).lookup? other =
      if r = q ∧ name = other then some v else (s.scope q).lookup? other := by
  by_cases hq : r = q
  · subst hq
    rw [s.scope_bind hr, Scope.lookup?_bind]
    by_cases hname : name = other <;> simp [hname]
  · rw [scope_bind_of_ne (Ne.symm hq), if_neg fun h => hq h.1]

theorem contains_bind_of_ne {r q : Ref} {name other : String} (hr : r < s.scopes.size)
    (h : ¬ (r = q ∧ name = other)) (v : Value) :
    ((s.bind r name v).scope q).contains other = (s.scope q).contains other := by
  rw [Scope.contains_eq_isSome, lookup?_bind hr, if_neg h, Scope.contains_eq_isSome]

/-- A binding is seen from the scopes that reach it before any other of the name. -/
theorem get?_bind_of_sees (hs : s.Rooted) {r g : Ref} {name : String} (hr : r < s.scopes.size)
    (hsees : s.Sees name r g) (v : Value) : (s.bind r name v).get? g name = some v := by
  have hself : ((s.bind r name v).scope r).lookup? name = some v := by
    rw [lookup?_bind hr, if_pos ⟨rfl, rfl⟩]
  have hfound : (s.bind r name v).find? g name = some r := by
    refine (find?_eq_some_iff (hs.bind r name v)).2 ⟨?_, ?_⟩
    · induction hsees with
      | here => exact .here
      | @outward q p hq hp _ ih =>
          by_cases hqr : r = q
          · exact hqr ▸ .here
          · refine .outward ?_ (by rw [parent_bind, hp]) ih
            rw [contains_bind_of_ne hr (fun h => hqr h.1), hq]
    · rw [Scope.contains_eq_isSome, hself]
      rfl
  rw [get?_eq, hfound]
  exact hself

/-- From any other scope nothing has changed, and no other name has changed. -/
theorem get?_bind_of_not_sees (hs : s.Rooted) {r g : Ref} {name other : String}
    (hr : r < s.scopes.size) (h : ¬ (other = name ∧ s.Sees name r g)) (v : Value) :
    (s.bind r name v).get? g other = s.get? g other := by
  have hs' := hs.bind r name v
  induction g using Nat.strong_induction_on with
  | _ g ih =>
      have hplace : ¬ (r = g ∧ name = other) := by
        rintro ⟨rfl, rfl⟩
        exact h ⟨rfl, .here⟩
      have hcontains := contains_bind_of_ne hr hplace v
      have hparent := parent_bind (s := s) r name v g
      cases hg : (s.scope g).contains other with
      | true =>
          rw [get?_eq, get?_eq, find?_of_contains hg, find?_of_contains (hcontains.trans hg)]
          exact (lookup?_bind hr name v g other).trans (if_neg hplace)
      | false =>
          cases hp : (s.scope g).parent with
          | none =>
              rw [get?_eq, get?_eq, find?_of_no_parent hg hp,
                find?_of_no_parent (hcontains.trans hg) (hparent.trans hp)]
              rfl
          | some p =>
              have hp' := ih p (hs g p hp) fun ⟨hname, hsees⟩ =>
                h ⟨hname, .outward (hname ▸ hg) hp hsees⟩
              rw [get?_eq, get?_eq, find?_of_parent hs hg hp,
                find?_of_parent hs' (hcontains.trans hg) (hparent.trans hp), ← get?_eq, ← get?_eq, hp']

end Store

/-- A call that takes place makes the scope of the call. -/
theorem Eval.enterCall_eq_ok {closure r : Ref} {args : List Value} {s s' : Store}
    (h : (enterCall closure args).run s = .ok r s') :
    (s.enterCall closure args).1 = r ∧ (s.enterCall closure args).2 = s' := by
  obtain ⟨_, s₁, hchecked, hmade⟩ := run_bind_eq_ok.1 ((run_ask_bind _ _ s).symm.trans h)
  obtain rfl := (checks_checkArity _ _ _).readOnly.eq_of_ok hchecked
  exact EStateM.Result.ok.inj hmade

namespace Store

variable {s : Store}

/-! ### The record and the scopes -/

/-- The scopes hold what the record says. -/
structure Tracked (log : List Write) (s : Store) : Prop where
  rooted : s.Rooted
  closures : ∀ r < s.closures.size, (s.closure r).scope < s.scopes.size
  values : ∀ r name, (s.scope r).lookup? name = Write.last? log r name

theorem scope_eq_empty {r : Ref} (hr : s.scopes.size ≤ r) : s.scope r = {} := by
  simp [scope, Array.getD_eq_getD_getElem?, hr]

theorem Nearest.lt_size {r found : Ref} {name : String} (h : s.Nearest r name found) :
    found < s.scopes.size := by
  by_contra hle
  have hfound := h.2
  rw [scope_eq_empty (Nat.not_lt.1 hle)] at hfound
  simp [Scope.contains] at hfound

theorem bindAll_append (s : Store) (r : Ref) (xs ys : List (String × Value)) :
    s.bindAll r (xs ++ ys) = (s.bindAll r xs).bindAll r ys := List.foldl_append ..

/-- The place of a new list depends on the number of pairs alone. -/
theorem fst_list_congr {s' : Store} (h : s'.pairs = s.pairs) (items : List Value) :
    (s'.list items).1 = (s.list items).1 := by
  cases items with
  | nil => rfl
  | cons v items => rw [list, list, fst_listWithTail_cons, fst_listWithTail_cons, h]

/-- A call binds the parameters in a new scope; the list for a rest parameter is data. -/
theorem enterCall_scopes (s : Store) (closure : Ref) (args : List Value) :
    let bound := (s.pushScope
      { parent := some (s.closure closure).scope, caller := some closure }).bindAll s.scopes.size
        (s.argumentBindings closure args)
    (s.enterCall closure args).2.scopes = bound.scopes ∧
      (s.enterCall closure args).2.closures = bound.closures := by
  intro bound
  unfold enterCall
  cases hrest : (s.closure closure).rest with
  | none =>
      have hbindings : s.argumentBindings closure args = (s.closure closure).params.zip args := by
        simp [argumentBindings, hrest]
      simp only [hrest, bound, hbindings]
      exact ⟨rfl, rfl⟩
  | some rest =>
      have hbindings : s.argumentBindings closure args = (s.closure closure).params.zip args ++
          [(rest, (s.list (args.drop (s.closure closure).params.length)).1)] := by
        simp [argumentBindings, hrest]
      have hpairs : ((s.pushScope
          { parent := some (s.closure closure).scope, caller := some closure }).bindAll s.scopes.size
            ((s.closure closure).params.zip args)).pairs = s.pairs := pairs_bindAll _ _ _
      simp only [hrest, bound, hbindings, bindAll_append, nextScope] at hpairs ⊢
      generalize bindAll _ s.scopes.size ((s.closure closure).params.zip args) = s₁ at hpairs ⊢
      have hdata := s₁.listWithTail_data (args.drop (s.closure closure).params.length) .nil
      rw [fst_list_congr hpairs]
      refine ⟨?_, hdata.2⟩
      simp only [bindAll, List.foldl_cons, List.foldl_nil, Store.bind, list, hdata.1]

namespace Tracked

variable {log : List Write}

theorem empty (hscopes : s.scopes = #[]) (hclosures : s.closures = #[]) : Tracked [] s := by
  have hscope (r : Ref) : s.scope r = {} := scope_eq_empty (by simp [hscopes])
  refine ⟨fun r p hp => ?_, fun r hr => ?_, fun r name => ?_⟩
  · rw [hscope] at hp
    cases hp
  · simp [hclosures] at hr
  · rw [hscope]
    simp [Scope.lookup?, Write.last?]

theorem of_eq {s' : Store} (h : Tracked log s) (hscopes : s'.scopes = s.scopes)
    (hclosures : s'.closures = s.closures) : Tracked log s' := by
  have hscope (r : Ref) : s'.scope r = s.scope r := by rw [scope, hscopes, scope]
  have hclosure (r : Ref) : s'.closure r = s.closure r := by rw [closure, hclosures, closure]
  exact ⟨fun r p hp => h.rooted r p (hscope r ▸ hp),
    fun r hr => by rw [hclosure, hscopes]; exact h.closures r (hclosures ▸ hr),
    fun r name => by rw [hscope]; exact h.values r name⟩

/-- A new scope: the record may say what its names are, and nothing more of the others. -/
theorem pushScope {log' : List Write} (h : Tracked log s) {c : Scope}
    (hparent : ∀ p, c.parent = some p → p < s.scopes.size)
    (hself : ∀ name, c.lookup? name = Write.last? log' s.scopes.size name)
    (hothers : ∀ r name, r ≠ s.scopes.size → Write.last? log' r name = Write.last? log r name) :
    Tracked log' (s.pushScope c) := by
  have hscope (r : Ref) (hr : r ≠ s.scopes.size) : (s.pushScope c).scope r = s.scope r := by
    simp [scope, Store.pushScope, Array.getD_eq_getD_getElem?, Array.getElem?_push, hr]
  refine ⟨fun r p hp => ?_, fun r hr => ?_, fun r name => ?_⟩
  · by_cases hr : r = s.scopes.size
    · subst hr
      rw [s.scope_pushScope_self] at hp
      exact hparent p hp
    · rw [hscope r hr] at hp
      exact h.rooted r p hp
  · have hsize := h.closures r hr
    simp only [Store.pushScope, Array.size_push]
    exact Nat.lt_succ_of_lt hsize
  · by_cases hr : r = s.scopes.size
    · subst hr
      rw [s.scope_pushScope_self, hself]
    · rw [hscope r hr, h.values, hothers r name hr]

/-- The record says nothing of a scope that is not there. -/
theorem last?_size (h : Tracked log s) (name : String) :
    Write.last? log s.scopes.size name = none := by
  rw [← h.values, scope_eq_empty (Nat.le_refl _)]
  simp [Scope.lookup?]

/-- A new scope that binds nothing. -/
theorem pushEmpty (h : Tracked log s) {c : Scope} (hparent : ∀ p, c.parent = some p → p < s.scopes.size)
    (hempty : ∀ name, c.lookup? name = none) : Tracked log (s.pushScope c) :=
  h.pushScope hparent (fun name => by rw [hempty, h.last?_size]) fun _ _ _ => rfl

theorem newClosure (h : Tracked log s) {c : Closure} (hc : c.scope < s.scopes.size) :
    Tracked log (s.newClosure c).2 := by
  refine ⟨h.rooted, fun r hr => ?_, h.values⟩
  have hclosure : (s.newClosure c).2.closure r = if r = s.closures.size then c else s.closure r := by
    simp only [Store.newClosure, closure, Array.getD_eq_getD_getElem?, Array.getElem?_push]
    split <;> simp_all
  rw [hclosure]
  split
  · exact hc
  · refine h.closures r ?_
    simp only [Store.newClosure, Array.size_push] at hr
    lia

theorem newLoop (h : Tracked log s) {r : Ref} (hr : r < s.scopes.size) (name : String)
    (params : List String) (rest : Option String) (body : Value) :
    Tracked (⟨s.scopes.size, name, .closure s.closures.size⟩ :: log)
      (s.newLoop r name params rest body).2 := by
  have hscope : Tracked (⟨s.scopes.size, name, .closure s.closures.size⟩ :: log)
      (s.pushScope { parent := some r, loop := some (name, s.closures.size) }) := by
    refine h.pushScope (by rintro p ⟨⟩; exact hr) (fun other => ?_) fun q other hq => ?_
    · rw [Write.last?_cons, h.last?_size]
      by_cases hname : name = other <;> simp [Scope.lookup?, hname]
    · rw [Write.last?_cons, if_neg fun hw => hq hw.1.symm]
  exact hscope.newClosure (by simp [nextScope, Store.pushScope])

theorem bind (h : Tracked log s) {r : Ref} (hr : r < s.scopes.size) (name : String) (v : Value) :
    Tracked (⟨r, name, v⟩ :: log) (s.bind r name v) := by
  refine ⟨h.rooted.bind r name v, fun q hq => ?_, fun q other => ?_⟩
  · have hsize : (s.bind r name v).scopes.size = s.scopes.size := by simp [Store.bind]
    rw [hsize]
    exact h.closures q hq
  · rw [lookup?_bind hr, Write.last?_cons, h.values]

theorem bindAll {r : Ref} (h : Tracked log s) (hr : r < s.scopes.size)
    (bindings : List (String × Value)) :
    Tracked ((bindings.map fun b => ⟨r, b.1, b.2⟩).reverse ++ log) (s.bindAll r bindings) := by
  induction bindings generalizing s log with
  | nil => exact h
  | cons b bindings ih =>
      have hrest := ih (h.bind hr b.1 b.2) (by simpa [Store.bind] using hr)
      rw [List.map_cons, List.reverse_cons, List.append_assoc]
      exact hrest

/-- A call makes a scope inside that of the closure and binds the parameters there. -/
theorem enterCall (h : Tracked log s) {closure : Ref} (hc : closure < s.closures.size)
    (args : List Value) :
    Tracked (((s.argumentBindings closure args).map fun b =>
      ⟨s.scopes.size, b.1, b.2⟩).reverse ++ log) (s.enterCall closure args).2 := by
  have hscope : Tracked log
      (s.pushScope { parent := some (s.closure closure).scope, caller := some closure }) :=
    h.pushEmpty (by rintro p ⟨⟩; exact h.closures closure hc) fun name => by simp [Scope.lookup?]
  have hbound := hscope.bindAll (r := s.scopes.size) (by simp [Store.pushScope])
    (s.argumentBindings closure args)
  exact hbound.of_eq (s.enterCall_scopes closure args).1 (s.enterCall_scopes closure args).2

end Tracked

/-- Every way to grow scopes keeps to its record. -/
theorem Grown.tracked {log : List Write} (h : Grown log s) : Tracked log s := by
  induction h with
  | empty hscopes hclosures => exact .empty hscopes hclosures
  | data _ hscopes hclosures ih => exact ih.of_eq hscopes hclosures
  | root _ hrun ih =>
      cases hrun
      exact ih.pushEmpty (by rintro p ⟨⟩) fun name => by simp [Scope.lookup?]
  | inside _ hr hrun ih =>
      cases hrun
      exact ih.pushEmpty (by rintro p ⟨⟩; exact hr) fun name => by simp [Scope.lookup?]
  | closure _ c hc ih => exact ih.newClosure hc
  | @call log s s' closure r args _ hc hrun ih =>
      obtain ⟨rfl, rfl⟩ := Eval.enterCall_eq_ok hrun
      rw [s.fst_enterCall]
      exact ih.enterCall hc args
  | loop _ hr name params rest body ih => exact ih.newLoop hr name params rest body
  | bind _ hr hrun ih =>
      cases hrun
      exact ih.bind hr _ _
  | @assign log s s' r found name v u _ hfound hrun ih =>
      rw [Eval.run_assign, (find?_eq_some_iff ih.rooted).2 hfound] at hrun
      cases hrun
      exact ih.bind hfound.lt_size name v

/-! ### Looking up and assigning -/

/-- A name has a value where it is found, the one it was last given there. -/
theorem get?_eq_some_iff {log : List Write} (h : Tracked log s) {r : Ref} {name : String} {v : Value} :
    s.get? r name = some v ↔ ∃ g, s.Nearest r name g ∧ Write.last? log g name = some v := by
  simp only [get?_eq, Option.bind_eq_some_iff, find?_eq_some_iff h.rooted, h.values]

theorem contains_of_find? {r found : Ref} {name : String} (h : s.find? r name = some found) :
    (s.scope found).contains name = true := by
  have hfound := List.find?_some h
  exact hfound

theorem isSome_get? (r : Ref) (name : String) :
    (s.get? r name).isSome = (s.find? r name).isSome := by
  rw [get?_eq]
  cases hfind : s.find? r name with
  | none => rfl
  | some found =>
      have hcontains := contains_of_find? hfind
      rw [Scope.contains_eq_isSome] at hcontains
      exact hcontains

/-- An assignment changes no name that scopes bind. -/
theorem find?_bind_found {r found : Ref} {name : String} (h : s.Nearest r name found) (v : Value)
    (g : Ref) (other : String) : (s.bind found name v).find? g other = s.find? g other := by
  refine find?_congr (parent_bind found name v) (fun q => ?_) g
  by_cases hq : found = q ∧ name = other
  · obtain ⟨rfl, rfl⟩ := hq
    rw [Scope.contains_eq_isSome, lookup?_bind h.lt_size, if_pos ⟨rfl, rfl⟩, h.2]
    rfl
  · exact contains_bind_of_ne h.lt_size hq v

/-- An assignment is seen from the scopes that find the name in the same place. -/
theorem get?_bind_found (hs : s.Rooted) {r found : Ref} {name : String}
    (h : s.Nearest r name found) (v : Value) (g : Ref) (other : String) :
    (s.bind found name v).get? g other =
      if other = name ∧ s.find? g name = some found then some v else s.get? g other := by
  by_cases hfound : s.find? g name = some found
  · have hsees := ((find?_eq_some_iff hs).1 hfound).1
    by_cases hname : other = name
    · subst hname
      rw [if_pos ⟨rfl, hfound⟩]
      exact get?_bind_of_sees hs h.lt_size hsees v
    · rw [if_neg fun hw => hname hw.1]
      exact get?_bind_of_not_sees hs h.lt_size (fun hw => hname hw.1) v
  · rw [if_neg fun hw => hfound hw.2]
    refine get?_bind_of_not_sees hs h.lt_size (fun hw => hfound ?_) v
    exact (find?_eq_some_iff hs).2 ⟨hw.2, h.2⟩

/-- In a store whose scopes have grown in any way: a name is found in the nearest scope that binds it
and has the value it was last given there. Where it is not found, looking it up, finding it and
assigning to it all fail and change nothing. An assignment to it changes its value as seen from the
scopes that find it in the same place, and nothing else; no other scope is found for any name. A
binding changes the value of its name as seen from the scopes that reach its scope before any other
that binds the name, and nothing else. -/
theorem names_have_lexical_scope {log : List Write} (h : Grown log s) (f : Ref) (name : String)
    (v : Value) :
    (∀ g, s.find? f name = some g ↔ s.Nearest f name g) ∧
    (∀ u, s.get? f name = some u ↔ ∃ g, s.Nearest f name g ∧ Write.last? log g name = some u) ∧
    (s.get? f name).isSome = (s.find? f name).isSome ∧
    (s.find? f name = none →
      (Eval.find f name).run s = .error (.error (.unbound name .none)) s ∧
      (Eval.lookup f name).run s = .error (.error (.unbound name .none)) s ∧
      (Eval.assign f name v).run s = .error (.error (.unbound name .none)) s) ∧
    (∀ found, s.find? f name = some found →
      (Eval.find f name).run s = .ok found s ∧
      (∃ u, s.get? f name = some u ∧ (Eval.lookup f name).run s = .ok u s) ∧
      ∃ s', (Eval.assign f name v).run s = .ok v s' ∧ ∀ g other,
        s'.find? g other = s.find? g other ∧
        s'.get? g other =
          if other = name ∧ s.find? g name = s.find? f name then some v else s.get? g other) ∧
    (f < s.scopes.size → ∃ s', (Eval.bind f name v).run s = .ok v s' ∧ ∀ g,
      (s.Sees name f g → s'.get? g name = some v) ∧
      ∀ other, ¬ (other = name ∧ s.Sees name f g) → s'.get? g other = s.get? g other) := by
  have htracked := h.tracked
  have hs := htracked.rooted
  refine ⟨fun g => find?_eq_some_iff hs, fun u => get?_eq_some_iff htracked, isSome_get? f name,
    fun hnone => ?_, fun found hfound => ?_, fun hf => ?_⟩
  · have hget : s.get? f name = none := by rw [get?_eq, hnone]; rfl
    refine ⟨?_, ?_, ?_⟩
    · rw [Eval.run_find, hnone]
    · rw [Eval.run_lookup, hget]
    · rw [Eval.run_assign, hnone]
  · have hnearest := (find?_eq_some_iff hs).1 hfound
    obtain ⟨u, hu⟩ : ∃ u, s.get? f name = some u :=
      Option.isSome_iff_exists.1 (by rw [isSome_get?, hfound]; rfl)
    refine ⟨?_, ⟨u, hu, ?_⟩, s.bind found name v, ?_, fun g other => ⟨?_, ?_⟩⟩
    · rw [Eval.run_find, hfound]
    · rw [Eval.run_lookup, hu]
    · rw [Eval.run_assign, hfound]
    · exact find?_bind_found hnearest v g other
    · rw [hfound]
      exact get?_bind_found hs hnearest v g other
  · exact ⟨s.bind f name v, rfl, fun g => ⟨fun hsees => get?_bind_of_sees hs hf hsees v,
      fun other hother => get?_bind_of_not_sees hs hf hother v⟩⟩

/-- A variable of the root, assigned to from the scope of a named `let`: the root sees the new value,
and the loop procedure stays what its name means. -/
theorem names_have_lexical_scope_loop :
    let s := (((ofConsole {}).pushScope {}).bind 0 "x" (.integer 1)).newLoop 0 "loop" [] none .nil |>.2
    let log : List Write := [⟨1, "loop", .closure 0⟩, ⟨0, "x", .integer 1⟩]
    (Grown log s ∧ s.find? 1 "x" = some 0) ∧
      ∃ s', (Eval.assign 1 "x" (.integer 2)).run s = .ok (.integer 2) s' ∧
        s'.get? 0 "x" = some (.integer 2) ∧ s'.get? 1 "loop" = some (.closure 0) := by
  intro s log
  have hempty : Grown [] (ofConsole {}) := .empty rfl rfl
  have hroot : Grown [] ((ofConsole {}).pushScope {}) := hempty.root (r := 0) rfl
  have hbound : Grown [⟨0, "x", .integer 1⟩]
      (((ofConsole {}).pushScope {}).bind 0 "x" (.integer 1)) :=
    hroot.bind (u := .integer 1) (by decide) rfl
  have hgrown : Grown log s := hbound.loop (r := 0) (by decide) "loop" [] none .nil
  have hfind : s.find? 1 "x" = some 0 := by decide
  obtain ⟨-, -, s', hrun, hall⟩ :=
    (names_have_lexical_scope hgrown 1 "x" (.integer 2)).2.2.2.2.1 0 hfind
  refine ⟨⟨hgrown, hfind⟩, s', hrun, ?_, ?_⟩
  · rw [(hall 0 "x").2, if_pos ⟨rfl, by decide⟩]
  · rw [(hall 1 "loop").2, if_neg (by decide)]
    rfl

end Store
end LittleScheme
