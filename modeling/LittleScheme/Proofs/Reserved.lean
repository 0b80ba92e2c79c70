import LittleScheme.Proofs.Effects
import LittleScheme.Proofs.Readable
import LittleScheme.Proofs.Scopes

/-!
# Reserved names

No symbol of a running program has the name of a keyword: the reader and `string->symbol` make a
keyword of such a name, and everything else hands on values that are there already. A store without
such symbols stays one, whatever a computation does to it and whether it ends in a value or stops.
-/
namespace LittleScheme

/-! ### Values and objects -/

/-- A value that is no symbol with a reserved name. -/
def Value.Unreserved : Value → Prop
  | .symbol name => Keyword.ofName? name = none
  | _ => True

/-- Neither part is a reserved symbol. -/
structure Pair.Unreserved (p : Pair) : Prop where
  car : p.car.Unreserved
  cdr : p.cdr.Unreserved

/-- A call binds no reserved name, and the body is no reserved symbol. -/
structure Closure.Unreserved (c : Closure) : Prop where
  params : ∀ name ∈ c.params, Keyword.ofName? name = none
  rest : ∀ name ∈ c.rest, Keyword.ofName? name = none
  body : c.body.Unreserved

/-- No reserved name is bound, neither among the bindings nor as that of a named `let`, and no name
has a reserved symbol as its value. -/
def Scope.Unreserved (c : Scope) : Prop :=
  ∀ name v, c.lookup? name = some v → Keyword.ofName? name = none ∧ v.Unreserved

/-- There are no reserved symbols in the store and no reserved names in its scopes. -/
structure Store.Unreserved (s : Store) : Prop where
  pair : ∀ r, (s.pair r).Unreserved
  vector : ∀ r, ∀ v ∈ s.vector r, v.Unreserved
  closure : ∀ r, (s.closure r).Unreserved
  scope : ∀ r, (s.scope r).Unreserved

section arrays

variable {α : Type} {P : α → Prop} {xs : Array α} {d : α}

theorem forall_getD_push (hxs : ∀ i, P (xs.getD i d)) {x : α} (hx : P x) (i : Nat) :
    P ((xs.push x).getD i d) := by
  by_cases hi : i = xs.size
  · rw [hi, getD_push_self]
    exact hx
  · have hget : (xs.push x).getD i d = xs.getD i d := by
      simp [Array.getD_eq_getD_getElem?, Array.getElem?_push, hi]
    rw [hget]
    exact hxs i

theorem forall_getD_modify (hxs : ∀ i, P (xs.getD i d)) {f : α → α} (hf : ∀ x, P x → P (f x))
    (j i : Nat) : P ((xs.modify j f).getD i d) := by
  by_cases hi : i = j
  · subst hi
    by_cases hsize : i < xs.size
    · rw [getD_modify_self _ _ hsize]
      exact hf _ (hxs i)
    · have hget : (xs.modify i f).getD i d = xs.getD i d := by
        simp [Array.getD_eq_getD_getElem?, Nat.not_lt.1 hsize]
      rw [hget]
      exact hxs i
  · rw [getD_modify_of_ne _ _ hi]
    exact hxs i

end arrays

namespace Scope.Unreserved

theorem empty : Scope.Unreserved {} := by
  intro name v h
  simp [Scope.lookup?] at h

theorem bind {c : Scope} (h : c.Unreserved) {name : String} (hname : Keyword.ofName? name = none)
    {v : Value} (hv : v.Unreserved) : (c.bind name v).Unreserved := by
  intro other w hw
  rw [Scope.lookup?_bind] at hw
  split at hw
  · rename_i heq
    obtain rfl := Option.some.inj hw
    exact heq ▸ ⟨hname, hv⟩
  · exact h other w hw

end Scope.Unreserved

namespace Store.Unreserved

variable {s : Store}

theorem ofConsole (console : Console) : (Store.ofConsole console).Unreserved where
  pair _ := ⟨trivial, trivial⟩
  vector _ v hv := by simp [Store.vector, Store.ofConsole] at hv
  closure _ := ⟨fun _ h => (List.not_mem_nil h).elim, (fun _ h => nomatch h), trivial⟩
  scope _ := Scope.Unreserved.empty

/-! ### What changes the store -/

theorem setCar (h : s.Unreserved) (r : Ref) {v : Value} (hv : v.Unreserved) :
    (s.setCar r v).Unreserved :=
  { h with
    pair := forall_getD_modify (f := fun p => { p with car := v }) h.pair (fun _ hp => ⟨hv, hp.cdr⟩) r }

theorem setCdr (h : s.Unreserved) (r : Ref) {v : Value} (hv : v.Unreserved) :
    (s.setCdr r v).Unreserved :=
  { h with
    pair := forall_getD_modify (f := fun p => { p with cdr := v }) h.pair (fun _ hp => ⟨hp.car, hv⟩) r }

theorem pushPair (h : s.Unreserved) {a d : Value} (ha : a.Unreserved) (hd : d.Unreserved) :
    (s.pushPair a d).Unreserved :=
  { h with pair := forall_getD_push h.pair ⟨ha, hd⟩ }

theorem listWithTail (h : s.Unreserved) {items : List Value} (hitems : ∀ v ∈ items, v.Unreserved)
    {tail : Value} (htail : tail.Unreserved) :
    (s.listWithTail items tail).2.Unreserved ∧ (s.listWithTail items tail).1.Unreserved := by
  induction items with
  | nil => exact ⟨h, htail⟩
  | cons v items ih =>
      obtain ⟨hv, hitems⟩ := List.forall_mem_cons.1 hitems
      obtain ⟨hstore, hrest⟩ := ih hitems
      exact ⟨hstore.pushPair hv hrest, trivial⟩

theorem list (h : s.Unreserved) {items : List Value} (hitems : ∀ v ∈ items, v.Unreserved) :
    (s.list items).2.Unreserved ∧ (s.list items).1.Unreserved := h.listWithTail hitems trivial

theorem newVector (h : s.Unreserved) {items : Array Value} (hitems : ∀ v ∈ items, v.Unreserved) :
    (s.newVector items).2.Unreserved :=
  { h with
    vector := forall_getD_push (P := fun items : Array Value => ∀ v ∈ items, v.Unreserved) h.vector
      hitems }

theorem setVector (h : s.Unreserved) (r index : Nat) {v : Value} (hv : v.Unreserved) :
    (s.setVector r index v).Unreserved := by
  have hset (items : Array Value) (hitems : ∀ w ∈ items, w.Unreserved) :
      ∀ w ∈ items.setIfInBounds index v, w.Unreserved := by
    intro w hw
    obtain hw | rfl := Array.mem_or_eq_of_mem_setIfInBounds hw
    · exact hitems w hw
    · exact hv
  exact { h with
    vector := forall_getD_modify (P := fun items : Array Value => ∀ w ∈ items, w.Unreserved) h.vector
      hset r }

/-! Strings, bytevectors, ports and the console hold no values. -/

theorem newString (h : s.Unreserved) (text : String) : (s.newString text).2.Unreserved := { h with }

theorem newBytes (h : s.Unreserved) (items : Array UInt8) : (s.newBytes items).2.Unreserved :=
  { h with }

theorem setBytes (h : s.Unreserved) (r index : Nat) (b : UInt8) : (s.setBytes r index b).Unreserved :=
  { h with }

theorem newPort (h : s.Unreserved) (p : Port) : (s.newPort p).2.Unreserved := { h with }

theorem setPort (h : s.Unreserved) (r : Ref) (p : Port) : (s.setPort r p).Unreserved := { h with }

theorem setConsole (h : s.Unreserved) (console : Console) : (s.setConsole console).Unreserved :=
  { h with }

theorem print (h : s.Unreserved) (text : String) : (s.print text).Unreserved := { h with }

theorem newClosure (h : s.Unreserved) {c : Closure} (hc : c.Unreserved) :
    (s.newClosure c).2.Unreserved :=
  { h with closure := forall_getD_push h.closure hc }

theorem pushScope (h : s.Unreserved) {c : Scope} (hc : c.Unreserved) : (s.pushScope c).Unreserved :=
  { h with scope := forall_getD_push h.scope hc }

theorem bind (h : s.Unreserved) (r : Ref) {name : String} (hname : Keyword.ofName? name = none)
    {v : Value} (hv : v.Unreserved) : (s.bind r name v).Unreserved :=
  { h with scope := forall_getD_modify h.scope (fun _ hc => hc.bind hname hv) r }

theorem bindAll (h : s.Unreserved) (r : Ref) {bindings : List (String × Value)}
    (hbindings : ∀ b ∈ bindings, Keyword.ofName? b.1 = none ∧ b.2.Unreserved) :
    (s.bindAll r bindings).Unreserved := by
  induction bindings generalizing s with
  | nil => exact h
  | cons b rest ih =>
      obtain ⟨hb, hrest⟩ := List.forall_mem_cons.1 hbindings
      exact ih (h.bind r hb.1 hb.2) hrest

theorem newLoop (h : s.Unreserved) (r : Ref) {name : String} (hname : Keyword.ofName? name = none)
    {params : List String} (hparams : ∀ p ∈ params, Keyword.ofName? p = none) {body : Value}
    (hbody : body.Unreserved) : (s.newLoop r name params none body).2.Unreserved := by
  refine (h.pushScope fun other v hv => ?_).newClosure ⟨hparams, by simp, hbody⟩
  simp only [Scope.lookup?, Std.TreeMap.getElem?_emptyc] at hv
  split at hv
  · rename_i heq
    obtain rfl := Option.some.inj hv
    exact ⟨beq_iff_eq.1 heq ▸ hname, trivial⟩
  · cases hv

theorem enterCall (h : s.Unreserved) (r : Ref) {args : List Value}
    (hargs : ∀ v ∈ args, v.Unreserved) : (s.enterCall r args).2.Unreserved := by
  have hclosure := h.closure r
  have hparams : ((s.pushScope { parent := some (s.closure r).scope, caller := some r }).bindAll
      s.nextScope ((s.closure r).params.zip args)).Unreserved := by
    refine (h.pushScope fun name v hv => by simp [Scope.lookup?] at hv).bindAll _ fun b hb => ?_
    obtain ⟨hname, hv⟩ := List.of_mem_zip hb
    exact ⟨hclosure.params _ hname, hargs _ hv⟩
  unfold Store.enterCall
  cases hrest : (s.closure r).rest with
  | none => simpa only [hrest] using hparams
  | some rest =>
      simp only [hrest]
      obtain ⟨hstore, hmore⟩ := hparams.list fun v hv => hargs v (List.mem_of_mem_drop hv)
      exact hstore.bind _ (hclosure.rest rest (by simp [hrest])) hmore

/-! ### What is read from the store -/

theorem elements (h : s.Unreserved) (v : Value) : ∀ w ∈ s.elements v, w.Unreserved := by
  intro w hw
  obtain ⟨c, -, rfl⟩ := List.mem_map.1 hw
  exact (h.pair c).car

theorem elements? (h : s.Unreserved) (v : Value) :
    ∀ items ∈ s.elements? v, ∀ w ∈ items, w.Unreserved := by
  intro items hitems
  unfold Store.elements? at hitems
  split at hitems
  · obtain rfl := Option.some.inj hitems
    exact h.elements v
  · cases hitems

theorem get? (h : s.Unreserved) (r : Ref) (name : String) :
    ∀ v ∈ s.get? r name, v.Unreserved := by
  intro v hv
  obtain ⟨scope, -, hlookup⟩ := List.exists_of_findSome?_eq_some hv
  exact (h.scope scope name v hlookup).2

/-- A scope that binds a name does not bind a reserved one. -/
theorem find? (h : s.Unreserved) {r found : Ref} {name : String}
    (hfound : s.find? r name = some found) : Keyword.ofName? name = none := by
  have hcontains : (s.scope found).contains name = true :=
    List.find?_some (p := fun r => (s.scope r).contains name) hfound
  rw [Scope.contains_eq_isSome] at hcontains
  obtain ⟨v, hv⟩ := Option.isSome_iff_exists.1 hcontains
  exact (h.scope found name v hv).1

theorem copySpine (h : s.Unreserved) {v : Value} (hv : v.Unreserved) :
    (s.copySpine v).2.Unreserved ∧ (s.copySpine v).1.Unreserved := by
  unfold Store.copySpine
  split
  · split
    · rename_i items hitems
      exact h.list (h.elements? _ items hitems)
    · exact ⟨h, hv⟩
  · exact ⟨h, hv⟩

mutual

/-- What the reader accepts comes into the store without reserved symbols. -/
theorem load {s : Store} (h : s.Unreserved) (d : Datum) (hd : d.Readable) :
    (s.load d).2.Unreserved ∧ (s.load d).1.Unreserved := by
  cases d with
  | pair car cdr =>
      obtain ⟨hstore, hcar⟩ := load h car hd.1
      obtain ⟨hstore, hcdr⟩ := load hstore cdr hd.2
      exact ⟨hstore.pushPair hcar hcdr, trivial⟩
  | vector items =>
      obtain ⟨hstore, hitems⟩ := loadAll h items hd
      exact ⟨hstore.newVector (by simpa using hitems), trivial⟩
  | symbol name => exact ⟨h, hd.notKeyword⟩
  | string text => exact ⟨h.newString text, trivial⟩
  | bytes items => exact ⟨h.newBytes _, trivial⟩
  | nil | bool | number | char | keyword => exact ⟨h, trivial⟩

theorem loadAll {s : Store} (h : s.Unreserved) (items : List Datum) (hitems : Datum.AllReadable items) :
    (s.loadAll items).2.Unreserved ∧ ∀ v ∈ (s.loadAll items).1, v.Unreserved := by
  cases items with
  | nil => exact ⟨h, by simp [Store.loadAll]⟩
  | cons d rest =>
      obtain ⟨hstore, hv⟩ := load h d hitems.1
      obtain ⟨hstore, hvs⟩ := loadAll hstore rest hitems.2
      exact ⟨hstore, List.forall_mem_cons.2 ⟨hv, hvs⟩⟩

end

end Store.Unreserved

/-! ### Computations -/

/-- A store without reserved symbols stays one, whatever becomes of the computation, and what it
returns has the property `Q`. -/
structure Eval.Preserves {α : Type} (x : Eval α) (Q : α → Prop) : Prop where
  outcome : ∀ s, s.Unreserved → match x.run s with
    | .ok a s' => s'.Unreserved ∧ Q a
    | .error _ s' => s'.Unreserved

namespace Eval.Preserves

variable {α β : Type} {Q : α → Prop} {R : β → Prop}

theorem of_checks {x : Eval α} (h : Checks x) : Preserves x fun _ => True := by
  refine ⟨fun s hs => ?_⟩
  obtain ⟨a, ha⟩ | ⟨e, -, he⟩ := h s
  · rw [ha]
    exact ⟨hs, trivial⟩
  · rw [he]
    exact hs

theorem pure {a : α} (h : Q a) : Preserves (Pure.pure a) Q := ⟨fun _ hs => ⟨hs, h⟩⟩

theorem throw (e : Stop) : Preserves (throw e : Eval α) Q := ⟨fun _ hs => hs⟩

theorem ask {f : Store → α} (h : ∀ s, s.Unreserved → Q (f s)) : Preserves (Eval.ask f) Q :=
  ⟨fun s hs => ⟨hs, h s hs⟩⟩

theorem make {f : Store → α × Store} (h : ∀ s, s.Unreserved → (f s).2.Unreserved ∧ Q (f s).1) :
    Preserves (Eval.make f) Q := ⟨h⟩

theorem update {f : Store → Store} (h : ∀ s, s.Unreserved → (f s).Unreserved) :
    Preserves (Eval.update f) fun _ => True := ⟨fun s hs => ⟨h s hs, trivial⟩⟩

theorem bind {x : Eval α} {f : α → Eval β} (hx : Preserves x Q)
    (hf : ∀ a, Q a → Preserves (f a) R) : Preserves (x >>= f) R := by
  refine ⟨fun s hs => ?_⟩
  have hxs := hx.outcome s hs
  cases hrun : x.run s with
  | error e s' =>
      simp only [hrun] at hxs
      rw [run_bind_error hrun]
      exact hxs
  | ok a s' =>
      simp only [hrun] at hxs
      rw [run_bind_ok hrun]
      exact (hf a hxs.2).outcome s' hxs.1

theorem after_checks {x : Eval α} {f : α → Eval β} (hx : Checks x)
    (hf : ∀ a, Preserves (f a) R) : Preserves (x >>= f) R := (of_checks hx).bind fun a _ => hf a

theorem mapM {f : α → Eval β} {items : List α} (hf : ∀ a ∈ items, Preserves (f a) R) :
    Preserves (items.mapM f) fun bs => ∀ b ∈ bs, R b := by
  induction items with
  | nil => exact pure (by simp)
  | cons a items ih =>
      obtain ⟨ha, hitems⟩ := List.forall_mem_cons.1 hf
      rw [List.mapM_cons]
      exact ha.bind fun b hb => (ih hitems).bind fun bs hbs =>
        pure (List.forall_mem_cons.2 ⟨hb, hbs⟩)

theorem foldlM {f : β → α → Eval β} {items : List α}
    (hf : ∀ b, R b → ∀ a ∈ items, Preserves (f b a) R) {b : β} (hb : R b) :
    Preserves (items.foldlM f b) R := by
  induction items generalizing b with
  | nil => exact pure hb
  | cons a items ih =>
      rw [List.foldlM_cons]
      exact (hf b hb a List.mem_cons_self).bind fun b' hb' =>
        ih (fun b hb a ha => hf b hb a (List.mem_cons_of_mem _ ha)) hb'

end Eval.Preserves

/-! ### Native procedures -/

namespace Native

open Eval

namespace Argument

theorem wrongType_preserves {α : Type} {Q : α → Prop} (name : String) (expected : Expected)
    (v : Value) : Preserves (wrongType name expected v : Eval α) Q :=
  .after_checks (checks_written v) fun _ => .throw _

theorem properList_preserves (name : String) (expected : Expected) (v : Value) :
    Preserves (properList name expected v) fun items => ∀ w ∈ items, w.Unreserved := by
  have hask : Preserves (ask fun s => s.elements? v) fun found =>
      ∀ items ∈ found, ∀ w ∈ items, w.Unreserved := .ask fun s hs => hs.elements? v
  refine hask.bind fun found hfound => ?_
  split
  · exact .pure (hfound _ rfl)
  · exact wrongType_preserves _ _ _

end Argument

open Argument

namespace Numeric

theorem fold_preserves (op : Number → Number → Number.Result) (first : Number)
    (rest : List Number) : Preserves (fold op first rest) Value.Unreserved :=
  .after_checks (checks_foldlM (fun _ _ => checks_ofArithmetic _) rest first) fun _ => .pure trivial

theorem foldFrom_preserves (name : String) (alone : Number → Number.Result)
    (op : Number → Number → Number.Result) (first : Value) (rest : List Value) :
    Preserves (foldFrom name alone op first rest) Value.Unreserved := by
  refine .after_checks (checks_number name first) fun n => ?_
  split
  · exact .after_checks (checks_ofArithmetic _) fun _ => .pure trivial
  · exact .after_checks (checks_numbers name _) fun ns => fold_preserves op n ns

theorem binary_preserves (name : String) (op : Number → Number → Number.Result) (a b : Value) :
    Preserves (binary name op a b) Value.Unreserved :=
  .after_checks (checks_number name a) fun _ => .after_checks (checks_number name b) fun _ =>
    .after_checks (checks_ofArithmetic _) fun _ => .pure trivial

theorem ordered_preserves (name : String) (orders : List Ordering) (args : List Value) :
    Preserves (ordered name orders args) Value.Unreserved :=
  .after_checks (checks_numbers name args) fun _ => .pure trivial

theorem extremum_preserves (name : String) (keep : Ordering) (first : Value) (rest : List Value) :
    Preserves (extremum name keep first rest) Value.Unreserved := by
  refine .after_checks (checks_numbers name _) fun ns => ?_
  split <;> exact .pure trivial

theorem rounding_preserves (name : String) (rule : Inexact.Rounding) (v : Value) :
    Preserves (rounding name rule v) Value.Unreserved := by
  refine .after_checks (checks_number name v) fun n => ?_
  split <;> exact .pure trivial

theorem run_preserves (p : Numeric) (args : List Value) :
    Preserves (p.run args) Value.Unreserved := by
  have hunary (name : String) (v : Value) (op : Number → Number.Result) :
      Preserves (do return Value.number (← ofArithmetic (op (← number name v)))) Value.Unreserved :=
    .after_checks (checks_number name v) fun _ => .after_checks (checks_ofArithmetic _) fun _ =>
      .pure trivial
  unfold run
  split
  · exact .after_checks (checks_numbers _ _) fun _ => fold_preserves _ _ _
  · exact .after_checks (checks_numbers _ _) fun _ => fold_preserves _ _ _
  · exact foldFrom_preserves _ _ _ _ _
  · exact foldFrom_preserves _ _ _ _ _
  · exact binary_preserves _ _ _ _
  · exact binary_preserves _ _ _ _
  · exact binary_preserves _ _ _ _
  · exact ordered_preserves _ _ _
  · exact ordered_preserves _ _ _
  · exact ordered_preserves _ _ _
  · exact ordered_preserves _ _ _
  · exact ordered_preserves _ _ _
  · exact hunary _ _ _
  · exact extremum_preserves _ _ _ _
  · exact extremum_preserves _ _ _ _
  · exact .pure trivial
  · exact .pure trivial
  · split <;> exact .pure trivial
  · exact .after_checks (checks_number _ _) fun _ => .pure trivial
  · exact .after_checks (checks_number _ _) fun _ => .pure trivial
  · exact hunary _ _ _
  · exact rounding_preserves _ _ _
  · exact rounding_preserves _ _ _
  · exact rounding_preserves _ _ _
  · exact rounding_preserves _ _ _
  · exact .after_checks (checks_number _ _) fun _ => .pure trivial
  · exact binary_preserves _ _ _ _
  · exact .throw _

end Numeric

namespace Lists

theorem joined_preserves {args : List Value} (hargs : ∀ v ∈ args, v.Unreserved) :
    Preserves (joined args) Value.Unreserved := by
  unfold joined
  split
  · exact .pure trivial
  · rename_i tail htail
    have hparts : Preserves (args.dropLast.mapM (properList "append" .properList)) fun parts =>
        ∀ items ∈ parts, ∀ v ∈ items, v.Unreserved :=
      .mapM fun v _ => properList_preserves _ _ v
    refine hparts.bind fun parts hitems => .make fun s hs => hs.listWithTail (fun v hv => ?_) ?_
    · obtain ⟨items, hmem, hv⟩ := List.mem_flatten.1 hv
      exact hitems items hmem v hv
    · exact hargs tail (List.mem_of_getLast? htail)

theorem tailAfter?_unreserved {s : Store} (hs : s.Unreserved) (n : Nat) {v : Value}
    (hv : v.Unreserved) : ∀ w ∈ tailAfter? s n v, w.Unreserved := by
  fun_induction tailAfter? s n v with
  | case1 v => simpa using hv
  | case2 n r ih => exact ih (hs.pair r).cdr
  | case3 => simp

theorem tailOf_preserves {chain : Value} (hchain : chain.Unreserved) (count : Value) :
    Preserves (tailOf chain count) Value.Unreserved := by
  refine .after_checks (checks_index _ _ count) fun n => ?_
  have hask : Preserves (ask fun s => tailAfter? s n chain) fun found => ∀ w ∈ found, w.Unreserved :=
    .ask fun s hs => tailAfter?_unreserved hs n hchain
  refine hask.bind fun found hfound => ?_
  split
  · exact .pure (hfound _ rfl)
  · exact .after_checks (checks_written chain) fun _ => .throw _

theorem run_preserves (p : Lists) {args : List Value} (hargs : ∀ v ∈ args, v.Unreserved) :
    Preserves (p.run args) Value.Unreserved := by
  unfold run
  split
  · exact .make fun s hs => ⟨hs.pushPair (hargs _ (by simp)) (hargs _ (by simp)), trivial⟩
  · exact .after_checks (checks_pairRef _ _) fun r => .ask fun s hs => (hs.pair r).car
  · exact .after_checks (checks_pairRef _ _) fun r => .ask fun s hs => (hs.pair r).cdr
  · exact .after_checks (checks_pairRef _ _) fun r =>
      (Preserves.update fun s hs => hs.setCar r (hargs _ (by simp))).bind fun _ _ => .pure trivial
  · exact .after_checks (checks_pairRef _ _) fun r =>
      (Preserves.update fun s hs => hs.setCdr r (hargs _ (by simp))).bind fun _ _ => .pure trivial
  · exact .make fun s hs => hs.list hargs
  · exact .after_checks (checks_properList _ _ _) fun _ => .pure trivial
  · exact joined_preserves hargs
  · exact (properList_preserves _ _ _).bind fun items hitems => .make fun s hs =>
      hs.list fun v hv => hitems v (List.mem_reverse.1 hv)
  · exact tailOf_preserves (hargs _ (by simp)) _
  · exact .pure trivial
  · exact .pure trivial
  · exact .after_checks (checks_ask _) fun _ => .pure trivial
  · exact .pure trivial
  · exact .pure trivial
  · exact .after_checks (checks_ask _) fun _ => .pure trivial
  · exact .pure trivial
  · exact .throw _

end Lists

namespace Texts

/-- A symbol that is made from a string is a keyword where its name is reserved. -/
theorem symbolOf_unreserved (name : String) : (symbolOf name).Unreserved := by
  unfold symbolOf
  split
  · trivial
  · rename_i hname
    exact hname

theorem newString_preserves (text : String) :
    Preserves (make fun s => s.newString text) Value.Unreserved :=
  .make fun _ hs => ⟨hs.newString text, trivial⟩

theorem charAt_preserves (text position : Value) :
    Preserves (charAt text position) Value.Unreserved := by
  refine .after_checks (checks_string _ text) fun cs =>
    .after_checks (checks_index _ _ position) fun i => ?_
  split
  · exact .pure trivial
  · exact .throw _

theorem slice_preserves (text start : Value) (stop : Option Value) :
    Preserves (slice text start stop) Value.Unreserved := by
  refine .after_checks (checks_string _ text) fun cs =>
    .after_checks (checks_index _ _ start) fun i => ?_
  have hcut (stop : Nat) : Preserves (do
      if stop < i then fail (.startAfterEnd i stop)
      make fun s => s.newString (String.ofList ((cs.toList.drop i).take (stop - i))))
      Value.Unreserved := by
    split
    · exact .after_checks (checks_fail _) fun _ => newString_preserves _
    · exact newString_preserves _
  cases stop with
  | some stop => exact .after_checks (checks_index _ _ stop) hcut
  | none => exact hcut _

theorem charOfInteger_preserves (v : Value) : Preserves (charOfInteger v) Value.Unreserved := by
  refine .after_checks (checks_integer _ v) fun n => ?_
  split
  · exact .pure trivial
  · exact .throw _

theorem run_preserves (p : Texts) (args : List Value) :
    Preserves (p.run args) Value.Unreserved := by
  have hstrings (name : String) (args : List Value) : Checks (args.mapM (string name)) :=
    checks_mapM (checks_string name) args
  have hchars (name : String) (args : List Value) : Checks (args.mapM (char name)) :=
    checks_mapM (checks_char name) args
  unfold run
  split
  · exact .pure trivial
  · exact .after_checks (checks_string _ _) fun _ => .pure trivial
  · exact charAt_preserves _ _
  · exact .after_checks (hstrings _ _) fun _ => newString_preserves _
  · exact slice_preserves _ _ _
  · exact slice_preserves _ _ _
  · exact .after_checks (hstrings _ _) fun _ => .pure trivial
  · exact .after_checks (hstrings _ _) fun _ => .pure trivial
  · exact .after_checks (checks_string _ _) fun name => .pure (symbolOf_unreserved name)
  · split
    · exact newString_preserves _
    · exact newString_preserves _
    · exact wrongType_preserves _ _ _
  · refine .after_checks (checks_string _ _) fun text => ?_
    split <;> exact .pure trivial
  · exact .after_checks (checks_number _ _) fun _ => newString_preserves _
  · refine .after_checks (checks_string _ _) fun text => .make fun s hs => hs.list fun v hv => ?_
    obtain ⟨c, -, rfl⟩ := List.mem_map.1 hv
    trivial
  · exact .after_checks (checks_properList _ _ _) fun items =>
      .after_checks (hchars _ items) fun _ => newString_preserves _
  · exact .pure trivial
  · exact .pure trivial
  · exact .after_checks (checks_char _ _) fun _ => .pure trivial
  · exact charOfInteger_preserves _
  · exact .after_checks (hchars _ _) fun _ => .pure trivial
  · exact .after_checks (hchars _ _) fun _ => .pure trivial
  · exact .throw _

end Texts

namespace Vectors

theorem element_preserves (target position : Value) :
    Preserves (element target position) Value.Unreserved := by
  refine .after_checks (checks_vectorArg _ target) fun r => ?_
  have hask : Preserves (ask fun s => s.vector r) fun items => ∀ v ∈ items, v.Unreserved :=
    .ask fun s hs => hs.vector r
  refine hask.bind fun items hitems => .after_checks (checks_index _ _ position) fun i => .pure ?_
  rw [Array.getD_eq_getD_getElem?]
  cases hget : items[i]? with
  | none => trivial
  | some v => exact hitems v (Array.mem_of_getElem? hget)

theorem setElement_preserves (target position : Value) {v : Value} (hv : v.Unreserved) :
    Preserves (setElement target position v) Value.Unreserved :=
  .after_checks (checks_vectorArg _ target) fun r => .after_checks (checks_ask _) fun _ =>
    .after_checks (checks_heldIndex (fun _ _ => trivial) _ _) fun i =>
      (Preserves.update fun _ hs => hs.setVector r i hv).bind fun _ _ => .pure trivial

theorem filled_preserves (size : Value) {fill : Value} (hfill : fill.Unreserved) :
    Preserves (filled size fill) Value.Unreserved :=
  .after_checks (checks_length _ size) fun _ => .make fun _ hs =>
    ⟨hs.newVector fun _ hv => (Array.mem_replicate.1 hv).2 ▸ hfill, trivial⟩

theorem setByte_preserves (target position v : Value) :
    Preserves (setByte target position v) Value.Unreserved :=
  .after_checks (checks_bytesArg _ target) fun _ => .after_checks (checks_byte _ v) fun _ =>
    .after_checks (checks_ask _) fun _ => .after_checks (checks_heldIndex (fun _ _ => trivial) _ _) fun _ =>
      (Preserves.update fun _ hs => hs.setBytes _ _ _).bind fun _ _ => .pure trivial

theorem filledBytes_preserves (size : Value) (fill : Option Value) :
    Preserves (filledBytes size fill) Value.Unreserved := by
  refine .after_checks (checks_length _ size) fun n => ?_
  cases fill with
  | some v =>
      exact .after_checks (checks_byte _ v) fun _ => .make fun _ hs => ⟨hs.newBytes _, trivial⟩
  | none => exact .make fun _ hs => ⟨hs.newBytes _, trivial⟩

theorem run_preserves (p : Vectors) {args : List Value} (hargs : ∀ v ∈ args, v.Unreserved) :
    Preserves (p.run args) Value.Unreserved := by
  unfold run
  split
  · exact .make fun s hs => ⟨hs.newVector (by simpa using hargs), trivial⟩
  · exact filled_preserves _ trivial
  · exact filled_preserves _ (hargs _ (by simp))
  · exact .pure trivial
  · exact .after_checks (checks_vectorArg _ _) fun _ => .after_checks (checks_ask _) fun _ =>
      .pure trivial
  · exact element_preserves _ _
  · exact setElement_preserves _ _ (hargs _ (by simp))
  · exact .after_checks (checks_vectorArg _ _) fun r => .make fun s hs =>
      hs.list fun v hv => hs.vector r v (Array.mem_toList_iff.1 hv)
  · exact (properList_preserves _ _ _).bind fun items hitems => .make fun s hs =>
      ⟨hs.newVector (by simpa using hitems), trivial⟩
  · exact .after_checks (checks_mapM (checks_byte _) _) fun _ => .make fun _ hs =>
      ⟨hs.newBytes _, trivial⟩
  · exact filledBytes_preserves _ _
  · exact filledBytes_preserves _ _
  · exact .pure trivial
  · exact .after_checks (checks_bytesArg _ _) fun _ => .after_checks (checks_ask _) fun _ =>
      .pure trivial
  · exact .after_checks (checks_bytesArg _ _) fun _ => .after_checks (checks_ask _) fun _ =>
      .after_checks (checks_index _ _ _) fun _ => .pure trivial
  · exact setByte_preserves _ _ _
  · exact .throw _

end Vectors

namespace Ports

theorem writeTo_preserves (r : Ref) (text : String) :
    Preserves (writeTo r text) Value.Unreserved :=
  .after_checks (checks_ask _) fun _ => .after_checks (checks_ofPort _) fun _ =>
    (Preserves.update fun _ hs => (hs.setPort r _).print _).bind fun _ _ => .pure trivial

theorem takeFrom_preserves (r : Ref)
    (op : Port → Console → Except Port.Stop (Option Char × Port × Console)) :
    Preserves (takeFrom r op) Value.Unreserved := by
  refine .after_checks (checks_ask _) fun p => .after_checks (checks_ask _) fun console => ?_
  split
  · refine (Preserves.update fun _ hs => (hs.setPort r _).setConsole _).bind fun _ _ => ?_
    split <;> exact .pure trivial
  · exact .throw _
  · exact .throw _

theorem isPort_preserves (test : Port → Bool) (v : Value) :
    Preserves (isPort test v) Value.Unreserved := by
  unfold isPort
  split
  · exact .after_checks (checks_ask _) fun _ => .pure trivial
  · exact .pure trivial

theorem newPort_preserves (p : Port) : Preserves (make fun s => s.newPort p) Value.Unreserved :=
  .make fun _ hs => ⟨hs.newPort p, trivial⟩

theorem run_preserves (p : Ports) (args : List Value) :
    Preserves (p.run args) Value.Unreserved := by
  unfold run
  split
  · exact .after_checks (checks_portRef _ _ _) fun _ => .after_checks (checks_ask _) fun _ =>
      writeTo_preserves _ _
  · exact .after_checks (checks_portRef _ _ _) fun _ => .after_checks (checks_written _) fun _ =>
      writeTo_preserves _ _
  · exact .after_checks (checks_portRef _ _ _) fun _ => writeTo_preserves _ _
  · exact .after_checks (checks_char _ _) fun _ => .after_checks (checks_portRef _ _ _) fun _ =>
      writeTo_preserves _ _
  · exact .after_checks (checks_portRef _ _ _) fun _ => takeFrom_preserves _ _
  · exact .after_checks (checks_portRef _ _ _) fun _ => takeFrom_preserves _ _
  · exact .after_checks (checks_portRef _ _ _) fun _ => .after_checks (checks_ask _) fun _ =>
      .after_checks (checks_ofPort _) fun _ => .pure trivial
  · exact (Preserves.update fun _ hs => hs.setPort _ _).bind fun _ _ => .pure trivial
  · exact wrongType_preserves _ _ _
  · exact isPort_preserves _ _
  · exact isPort_preserves _ _
  · exact .after_checks (checks_string _ _) fun _ => newPort_preserves _
  · exact newPort_preserves _
  · exact .after_checks (checks_ask _) fun _ => .after_checks (checks_ofPort _) fun _ =>
      Texts.newString_preserves _
  · exact wrongType_preserves _ _ _
  · exact .pure trivial
  · exact .pure trivial
  · exact .pure trivial
  · exact .throw _

end Ports

/-- Neither the value nor the call that a native procedure answers with has a reserved symbol. -/
def Reply.Unreserved : Reply → Prop
  | .value v => v.Unreserved
  | .call procedure args => procedure.Unreserved ∧ ∀ v ∈ args, v.Unreserved

namespace Control

theorem spreadCall_preserves {procedure : Value} (hprocedure : procedure.Unreserved)
    {args : List Value} (hargs : ∀ v ∈ args, v.Unreserved) :
    Preserves (spreadCall procedure args) Reply.Unreserved := by
  have hspread {spread : Value} : Preserves (do
      let items ← properList "apply" .spreadList spread
      return Reply.call procedure (args.dropLast ++ items)) Reply.Unreserved := by
    refine (properList_preserves _ _ _).bind fun items hitems => .pure ⟨hprocedure, fun v hv => ?_⟩
    obtain hv | hv := List.mem_append.1 hv
    · exact hargs v (List.mem_of_mem_dropLast hv)
    · exact hitems v hv
  have hempty : Preserves (return Reply.call procedure []) Reply.Unreserved :=
    .pure ⟨hprocedure, by simp⟩
  unfold spreadCall
  by_cases happlies : procedure.isProcedure = true
  · simp only [happlies, if_true]
    split
    · exact hempty
    · exact hspread
  · simp only [happlies]
    refine .after_checks (checks_wrongType _ _ _) fun _ => ?_
    split
    · exact hempty
    · exact hspread

theorem run_preserves (p : Control) {args : List Value} (hargs : ∀ v ∈ args, v.Unreserved) :
    Preserves (p.run args) Reply.Unreserved := by
  unfold run
  split
  · exact .pure trivial
  · obtain ⟨hprocedure, hargs⟩ := List.forall_mem_cons.1 hargs
    exact spreadCall_preserves hprocedure hargs
  · exact .after_checks (checks_ask _) fun _ => .throw _
  · exact .throw _

end Control

/-- No native procedure makes a reserved symbol. -/
theorem call_preserves (p : Native) {args : List Value} (hargs : ∀ v ∈ args, v.Unreserved) :
    Preserves (p.call args) Reply.Unreserved := by
  refine .after_checks (checks_checkArity _ _ _) fun _ => ?_
  cases p with
  | numeric p => exact (p.run_preserves args).bind fun _ hv => .pure hv
  | lists p => exact (p.run_preserves hargs).bind fun _ hv => .pure hv
  | texts p => exact (p.run_preserves args).bind fun _ hv => .pure hv
  | vectors p => exact (p.run_preserves hargs).bind fun _ hv => .pure hv
  | ports p => exact (p.run_preserves args).bind fun _ hv => .pure hv
  | control p => exact p.run_preserves hargs

end Native
end LittleScheme
