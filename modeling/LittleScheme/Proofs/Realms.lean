import LittleScheme.Proofs.Untouched

/-!
# What a program can get at

A running program can get at some of the objects of a store and at what these hold. The text of a
procedure that was not handed to the program is out of its reach, although the program may run it:
the pairs of such a text lead to no object but through a quotation, and no value leads to them.
Objects that are neither within reach nor text belong to someone else. A computation stays in its
realm when, whatever becomes of it, only objects within reach have changed and no others have come
within reach than those it has made itself.
-/
namespace LittleScheme

open Value (Related)

/-- The objects within reach, each taken to itself, and the pairs of text that is run but not handed
out. -/
structure Realm where
  shared : Renaming
  text : Ref → Prop

namespace Realm

/-- The realm with other objects within reach. -/
def withShared (w : Realm) (ρ : Renaming) : Realm := { w with shared := ρ }

/-- A value that the program may have. -/
def Shared (w : Realm) (v : Value) : Prop := Related w.shared v v

/-- A list in pairs of text. -/
def Text (w : Realm) (v : Value) : Prop := ∃ r, v = .pair r ∧ w.text r

/-- What may stand as a list of expressions. -/
def Code (w : Realm) (v : Value) : Prop := w.Shared v ∨ w.Text v

/-- If the pair begins a quotation, what is quoted may be handed out. -/
def Quotes (w : Realm) (s : Store) (r : Ref) : Prop :=
  s.car r = .keyword .quote → ∀ q, s.cdr r = .pair q → w.Shared (s.car q)

/-- What may stand as an expression. -/
def Expr (w : Realm) (s : Store) (v : Value) : Prop :=
  w.Shared v ∨ ∃ r, v = .pair r ∧ w.text r ∧ w.Quotes s r

/-- A pair of text begins a list of expressions that is text throughout. -/
structure Sealed (w : Realm) (s : Store) (r : Ref) : Prop where
  bound : r < s.pairs.size
  apart : ¬ w.shared .pair r r
  car : w.Expr s (s.car r)
  cdr : s.cdr r = .nil ∨ w.Text (s.cdr r)
  list : s.isList (.pair r) = true

/-- What is within reach leads to nothing else, but for the bodies of closures, which may be text. -/
structure Holds (w : Realm) (s : Store) : Prop where
  similar : Similar w.shared s s
  diagonal : ∀ ⦃k a b⦄, w.shared k a b → a = b
  text : ∀ ⦃r⦄, w.text r → w.Sealed s r
  body : ∀ ⦃a⦄, w.shared .closure a a → (s.closure a).body.isPair = true ∧ w.Code (s.closure a).body

section

variable {w : Realm} {s : Store} {v : Value}

theorem Expr.code (h : w.Expr s v) : w.Code v := h.imp_right fun ⟨r, hv, hr, _⟩ => ⟨r, hv, hr⟩

theorem Holds.expr_car (h : w.Holds s) {r : Ref} (hr : w.text r ∨ w.shared .pair r r) :
    w.Expr s (s.car r) := by
  rcases hr with hr | hr
  · exact (h.text hr).car
  · exact .inl (h.similar.car hr)

theorem Holds.code_cdr (h : w.Holds s) {r : Ref} (hr : w.text r ∨ w.shared .pair r r) :
    w.Code (s.cdr r) := by
  rcases hr with hr | hr
  · rcases (h.text hr).cdr with hnil | htext
    · rw [hnil]
      exact .inl .nil
    · exact .inr htext
  · exact .inl (h.similar.cdr hr)

theorem Code.cell {r : Ref} (h : w.Code (.pair r)) : w.text r ∨ w.shared .pair r r := by
  rcases h with hshared | ⟨q, hq, htext⟩
  · cases hshared with
    | pair hr => exact .inr hr
  · cases hq
    exact .inl htext

/-- Whatever shape a list of expressions has, its pairs are text or within reach. -/
theorem Holds.cellsWithin (h : w.Holds s) (n : Nat) (hv : w.Code v) :
    ∀ r ∈ s.cellsWithin n v, w.text r ∨ w.shared .pair r r := by
  induction n generalizing v with
  | zero => simp [Store.cellsWithin]
  | succ n ih =>
      cases v with
      | pair q =>
          intro r hr
          rcases List.mem_cons.1 hr with rfl | hr
          · exact hv.cell
          · exact ih (h.code_cdr hv.cell) r hr
      | _ => simp [Store.cellsWithin]

theorem Holds.elements_expr (h : w.Holds s) (hv : w.Code v) : ∀ x ∈ s.elements v, w.Expr s x := by
  intro x hx
  obtain ⟨r, hr, rfl⟩ := List.mem_map.1 hx
  exact h.expr_car (h.cellsWithin _ hv r hr)

theorem Holds.chain_text (h : w.Holds s) {cs : List Ref} {tail : Value} {r : Ref} (hr : w.text r)
    (hchain : s.Chain (.pair r) cs tail) : ∀ c ∈ cs, w.text c := by
  induction cs generalizing r with
  | nil => simp
  | cons c cs ih =>
      obtain ⟨⟨⟩, hrest⟩ := hchain
      intro q hq
      rcases List.mem_cons.1 hq with rfl | hq
      · exact hr
      · rcases (h.text hr).cdr with hnil | ⟨p, hp, htext⟩
        · rw [hnil] at hrest
          obtain ⟨rfl, -⟩ := (Store.chain_of_not_pair (by rfl)).1 hrest
          simp at hq
        · rw [hp] at hrest
          exact ih htext hrest q hq

theorem Holds.chain_shared (h : w.Holds s) {cs : List Ref} {tail : Value} (hv : w.Shared v)
    (hchain : s.Chain v cs tail) : ∀ c ∈ cs, w.shared .pair c c := by
  induction cs generalizing v with
  | nil => simp
  | cons c cs ih =>
      obtain ⟨rfl, hrest⟩ := hchain
      cases hv with
      | pair hc =>
          intro q hq
          rcases List.mem_cons.1 hq with rfl | hq
          · exact hc
          · exact ih (h.similar.cdr hc) hrest q hq

theorem Holds.cell_lt (h : w.Holds s) {r : Ref} (hr : w.text r ∨ w.shared .pair r r) :
    r < s.pairs.size := by
  rcases hr with hr | hr
  · exact (h.text hr).bound
  · exact (h.similar.bound hr).1

/-- The pairs of a form. They are all text, or all within reach. -/
structure Spine (w : Realm) (s : Store) (v : Value) (cs : List Ref) : Prop where
  list : s.ListAt v cs
  cells : (∀ r ∈ cs, w.text r) ∨ ∀ r ∈ cs, w.shared .pair r r

theorem Spine.cell {cs : List Ref} (h : w.Spine s v cs) {r : Ref} (hr : r ∈ cs) :
    w.text r ∨ w.shared .pair r r := h.cells.imp (· r hr) (· r hr)

theorem Spine.tail {r : Ref} {cs : List Ref} (h : w.Spine s v (r :: cs)) : w.Spine s (s.cdr r) cs where
  list := h.list.tail
  cells := h.cells.imp (fun h c hc => h c (List.mem_cons_of_mem _ hc))
    fun h c hc => h c (List.mem_cons_of_mem _ hc)

theorem Spine.code {cs : List Ref} (h : w.Spine s v cs) : w.Code v := by
  cases cs with
  | nil =>
      obtain ⟨rfl, -⟩ := h.list.1
      exact .inl .nil
  | cons r cs =>
      obtain ⟨rfl, -⟩ := h.list.1
      rcases h.cell (r := r) (by simp) with hr | hr
      · exact .inr ⟨r, rfl, hr⟩
      · exact .inl (.pair hr)

theorem Holds.spine (h : w.Holds s) (hv : w.Code v) (hl : s.isList v = true) :
    ∃ cs, w.Spine s v cs := by
  obtain ⟨cs, hchain⟩ := Store.isList_iff.1 hl
  have hcells : (∀ r ∈ cs, w.text r) ∨ ∀ r ∈ cs, w.shared .pair r r := by
    rcases hv with hshared | ⟨r, rfl, hr⟩
    · exact .inr (h.chain_shared hshared hchain)
    · exact .inl (h.chain_text hr hchain)
  exact ⟨cs, ⟨hchain, fun r hr => h.cell_lt (hcells.imp (· r hr) (· r hr))⟩, hcells⟩

theorem Holds.spine_pair (h : w.Holds s) {r : Ref} (hv : w.Code (.pair r))
    (hl : s.isList (.pair r) = true) : ∃ cs, w.Spine s (.pair r) (r :: cs) := by
  obtain ⟨cs, hspine⟩ := h.spine hv hl
  cases cs with
  | nil => exact absurd hspine.list.1.1 (by simp)
  | cons c cs =>
      obtain ⟨⟨⟩, -⟩ := hspine.list.1
      exact ⟨cs, hspine⟩

theorem Holds.quotes (h : w.Holds s) {r : Ref} (hv : w.Expr s (.pair r)) : w.Quotes s r := by
  rcases hv with hshared | ⟨q, hq, -, hquotes⟩
  · cases hshared with
    | pair hr =>
        intro _ q hq
        have hcdr := h.similar.cdr hr
        rw [hq] at hcdr
        cases hcdr with
        | pair hq => exact h.similar.car hq
  · cases hq
    exact hquotes

/-- An expression that stands for itself may be handed out. -/
theorem Holds.shared_of_settled (h : w.Holds s) (hv : w.Expr s v)
    (hneeds : Frame.needsEvaluation s v = false) : w.Shared v := by
  rcases hv with hshared | ⟨r, rfl, hr, -⟩
  · exact hshared
  · rw [Frame.needsEvaluation, (h.text hr).list] at hneeds
    contradiction

end

/-! ### Changes -/

/-- From one store to another only objects within reach have changed, and the pairs `W`. What has come
within reach is new, and what has become text is new or one of these pairs. -/
structure Becomes (W : Ref → Prop) (w : Realm) (s : Store) (w' : Realm) (s' : Store) : Prop where
  holds : w'.Holds s'
  gains : Gains w.shared s s w'.shared
  text : ∀ ⦃r⦄, w.text r → w'.text r ∧ s'.pair r = s.pair r
  newText : ∀ ⦃r⦄, w'.text r → w.text r ∨ s.pairs.size ≤ r ∨ W r
  count : ∀ k, s.count k ≤ s'.count k
  pair : ∀ ⦃r⦄, r < s.pairs.size → ¬ w.shared .pair r r → ¬ W r → s'.pair r = s.pair r
  scope : ∀ ⦃r⦄, r < s.scopes.size → ¬ w.shared .scope r r → s'.scope r = s.scope r
  closure : ∀ ⦃r⦄, r < s.closures.size → s'.closure r = s.closure r

section

variable {W W' : Ref → Prop} {w w' w'' : Realm} {s s' s'' : Store} {v : Value}

theorem Holds.refl (h : w.Holds s) : w.Becomes W s w s where
  holds := h
  gains := ⟨.refl _, fun _ _ _ hr => .inl hr⟩
  text _ hr := ⟨hr, rfl⟩
  newText _ hr := .inl hr
  count _ := Nat.le_refl _
  pair _ _ _ _ := rfl
  scope _ _ _ := rfl
  closure _ _ := rfl

theorem Becomes.trans (h : w.Becomes W s w' s') (h' : w'.Becomes W' s' w'' s'')
    (hW : ∀ r, W' r → W r ∨ s.pairs.size ≤ r) : w.Becomes W s w'' s'' where
  holds := h'.holds
  gains := h.gains.trans h'.gains h.count h.count
  text r hr := ⟨(h'.text (h.text hr).1).1, (h'.text (h.text hr).1).2.trans (h.text hr).2⟩
  newText r hr := by
    rcases h'.newText hr with hr | hr | hr
    · exact h.newText hr
    · exact .inr (.inl (Nat.le_trans (h.count .pair) hr))
    · exact .inr (hW r hr).symm
  count k := Nat.le_trans (h.count k) (h'.count k)
  pair r hr hshared hw := by
    rw [h'.pair (Nat.lt_of_lt_of_le hr (h.count .pair)) ?_ ?_, h.pair hr hshared hw]
    · intro hr'
      rcases h.gains.fresh hr' with hold | ⟨hnew, -⟩
      · exact hshared hold
      · exact Nat.not_lt.2 hnew hr
    · exact fun hr' => (hW r hr').elim hw fun hle => Nat.not_lt.2 hle hr
  scope r hr hshared := by
    rw [h'.scope (Nat.lt_of_lt_of_le hr (h.count .scope)) ?_, h.scope hr hshared]
    intro hr'
    rcases h.gains.fresh hr' with hold | ⟨hnew, -⟩
    · exact hshared hold
    · exact Nat.not_lt.2 hnew hr
  closure r hr := by
    rw [h'.closure (Nat.lt_of_lt_of_le hr (h.count .closure)), h.closure hr]

/-- Pairs that are new or within reach need not be named. -/
theorem Becomes.restrict (h : w.Becomes W s w' s')
    (hW : ∀ r, W r → W' r ∨ s.pairs.size ≤ r ∨ w.shared .pair r r) : w.Becomes W' s w' s' where
  holds := h.holds
  gains := h.gains
  text := h.text
  newText r hr := by
    rcases h.newText hr with hold | hnew | hwritten
    · exact .inl hold
    · exact .inr (.inl hnew)
    · rcases hW r hwritten with hwritten | hnew | hshared
      · exact .inr (.inr hwritten)
      · exact .inr (.inl hnew)
      · exact absurd (h.gains.le hshared) (h.holds.text hr).apart
  count := h.count
  pair r hr hshared hw := by
    refine h.pair hr hshared fun hwritten => ?_
    rcases hW r hwritten with hwritten | hnew | hshared'
    · exact hw hwritten
    · exact Nat.not_lt.2 hnew hr
    · exact hshared hshared'
  scope := h.scope
  closure := h.closure

theorem Becomes.mono {V : Ref → Prop} (h : w.Becomes W s w' s') (hW : ∀ r, W r → V r) :
    w.Becomes V s w' s' :=
  h.restrict fun r hr => .inl (hW r hr)

theorem Becomes.shared (h : w.Becomes W s w' s') (hv : w.Shared v) : w'.Shared v :=
  Related.mono h.gains.le hv

theorem Becomes.code (h : w.Becomes W s w' s') (hv : w.Code v) : w'.Code v :=
  hv.imp h.shared fun ⟨r, hv, hr⟩ => ⟨r, hv, (h.text hr).1⟩

/-- Text stays as it is. -/
theorem Expr.advance (hw : w.Holds s) (hle : w.shared.Le w'.shared)
    (htext : ∀ ⦃r⦄, w.text r → w'.text r ∧ s'.pair r = s.pair r) (hv : w.Expr s v) : w'.Expr s' v := by
  rcases hv with hshared | ⟨r, rfl, hr, hquotes⟩
  · exact .inl (Related.mono hle hshared)
  · refine .inr ⟨r, rfl, (htext hr).1, fun hquote q hq => ?_⟩
    rw [Store.car_eq_of_pair_eq (htext hr).2] at hquote
    rw [Store.cdr_eq_of_pair_eq (htext hr).2] at hq
    rcases (hw.text hr).cdr with hnil | ⟨p, hp, hpt⟩
    · rw [hq] at hnil
      contradiction
    · rw [hq] at hp
      cases hp
      rw [Store.car_eq_of_pair_eq (htext hpt).2]
      exact Related.mono hle (hquotes hquote q hq)

theorem Becomes.expr (h : w.Becomes W s w' s') (hw : w.Holds s) (hv : w.Expr s v) : w'.Expr s' v :=
  hv.advance hw h.gains.le h.text

theorem Becomes.spine (h : w.Becomes W s w' s') {cs : List Ref} (hs : w.Spine s v cs)
    (htext : ∀ r ∈ cs, w.text r) : w'.Spine s' v cs where
  list := hs.list.congr (fun r hr => Store.cdr_eq_of_pair_eq (h.text (htext r hr)).2) (h.count .pair)
  cells := .inl fun r hr => (h.text (htext r hr)).1

theorem Sealed.advance (hw : w.Holds s) {r : Ref} (hr : w.text r)
    (hgains : Gains w.shared s s w'.shared) (hsize : s.pairs.size ≤ s'.pairs.size)
    (htext : ∀ ⦃r⦄, w.text r → w'.text r ∧ s'.pair r = s.pair r) : w'.Sealed s' r := by
  have hsealed := hw.text hr
  have hsame := (htext hr).2
  refine ⟨Nat.lt_of_lt_of_le hsealed.bound hsize, fun hshared => ?_, ?_, ?_, ?_⟩
  · rcases hgains.fresh hshared with hold | ⟨hnew, -⟩
    · exact hsealed.apart hold
    · exact Nat.not_lt.2 hnew hsealed.bound
  · rw [Store.car_eq_of_pair_eq hsame]
    exact hsealed.car.advance hw hgains.le htext
  · rw [Store.cdr_eq_of_pair_eq hsame]
    exact hsealed.cdr.imp_right fun ⟨q, hq, hqt⟩ => ⟨q, hq, (htext hqt).1⟩
  · obtain ⟨cs, hchain⟩ := Store.isList_iff.1 hsealed.list
    have hcs := hw.chain_text hr hchain
    exact Store.isList_iff.2 ⟨cs, hchain.congr fun c hc =>
      Store.cdr_eq_of_pair_eq (htext (hcs c hc)).2⟩

/-- The realm after a change that leaves the text alone: new text begins lists of expressions, and
closures that have come within reach have a body that may be run. -/
theorem Holds.advance (hw : w.Holds s) (hsim : Similar w'.shared s' s')
    (hdiagonal : ∀ ⦃k a b⦄, w'.shared k a b → a = b) (hgains : Gains w.shared s s w'.shared)
    (hsize : s.pairs.size ≤ s'.pairs.size)
    (htext : ∀ ⦃r⦄, w.text r → w'.text r ∧ s'.pair r = s.pair r)
    (hclosure : ∀ ⦃a⦄, a < s.closures.size → s'.closure a = s.closure a)
    (hnew : ∀ ⦃r⦄, w'.text r → w.text r ∨ w'.Sealed s' r)
    (hbody : ∀ ⦃a⦄, w'.shared .closure a a → w.shared .closure a a ∨
      (s'.closure a).body.isPair = true ∧ w'.Code (s'.closure a).body) : w'.Holds s' where
  similar := hsim
  diagonal := hdiagonal
  text r hr := by
    rcases hnew hr with hold | hsealed
    · exact .advance hw hold hgains hsize htext
    · exact hsealed
  body a ha := by
    rcases hbody ha with hold | hnew
    · rw [hclosure (hw.similar.bound hold).1]
      obtain ⟨hpair, hcode⟩ := hw.body hold
      exact ⟨hpair, hcode.imp (Related.mono hgains.le) fun ⟨q, hq, hqt⟩ => ⟨q, hq, (htext hqt).1⟩⟩
    · exact hnew

/-- Objects within reach are made or changed by a computation that agrees with itself. -/
theorem Holds.later (hw : w.Holds s) {ρ' : Renaming} (hlater : Later w.shared s s ρ' s' s')
    (hsim : Similar ρ' s' s')
    (hscope : ∀ ⦃r⦄, r < s.scopes.size → ¬ w.shared .scope r r → s'.scope r = s.scope r) :
    w.Becomes W s (w.withShared ρ'.fixed) s' := by
  have hgains : Gains w.shared s s ρ'.fixed :=
    ⟨fun _ _ _ hr => ⟨hw.diagonal hr, hlater.le hr⟩, fun _ _ _ hr => hlater.fresh hr.2⟩
  have hclosure : ∀ ⦃a⦄, a < s.closures.size → s'.closure a = s.closure a := fun a _ => by
    rw [Store.closure, hlater.left.closures, Store.closure]
  have htext : ∀ ⦃r⦄, w.text r → w.text r ∧ s'.pair r = s.pair r :=
    fun r hr => ⟨hr, hlater.left.pair r (hw.text hr).bound⟩
  refine ⟨hw.advance hsim.fixed (fun _ _ _ hr => hr.1) hgains (hlater.left.count .pair) htext
    hclosure (fun _ hr => .inl hr) fun a ha => ?_, hgains, htext, fun _ hr => .inl hr,
    hlater.left.count, fun r hr _ _ => hlater.left.pair r hr, hscope, hclosure⟩
  rcases hlater.fresh ha.2 with hold | ⟨hnew, -⟩
  · exact .inl hold
  · have hlt := (hsim.bound ha.2).1
    simp only [Store.count, hlater.left.closures] at hnew hlt
    exact absurd hlt (Nat.not_lt.2 hnew)

/-- A closure comes within reach whose body may be run. -/
theorem Holds.addClosure (hw : w.Holds s) {ρ' : Renaming} {c : Closure}
    (hgains : Gains w.shared s s ρ') (hsim : Similar ρ' s' s') (hkeeps : s.Keeps s')
    (hclosures : s'.closures = s.closures.push c) (hpair : c.body.isPair = true)
    (hbody : w.Code c.body) : w.Becomes W s (w.withShared ρ'.fixed) s' := by
  have hgains' : Gains w.shared s s ρ'.fixed :=
    ⟨fun _ _ _ hr => ⟨hw.diagonal hr, hgains.le hr⟩, fun _ _ _ hr => hgains.fresh hr.2⟩
  have htext : ∀ ⦃r⦄, w.text r → w.text r ∧ s'.pair r = s.pair r :=
    fun r hr => ⟨hr, hkeeps.same .pair r (hw.text hr).bound⟩
  refine ⟨hw.advance hsim.fixed (fun _ _ _ hr => hr.1) hgains'
    (hkeeps.count .pair) htext (fun a ha => hkeeps.same .closure a ha) (fun _ hr => .inl hr)
    fun a ha => ?_, hgains', htext, fun _ hr => .inl hr, hkeeps.count,
    fun r hr _ _ => hkeeps.same .pair r hr, fun r hr _ => hkeeps.same .scope r hr,
    fun r hr => hkeeps.same .closure r hr⟩
  rcases hgains.fresh ha.2 with hold | ⟨hnew, -⟩
  · exact .inl hold
  · have hlt : a < s'.closures.size := (hsim.bound ha.2).1
    have hge : s.closures.size ≤ a := hnew
    rw [hclosures, Array.size_push] at hlt
    obtain rfl : a = s.closures.size := by lia
    have hc : s'.closure s.closures.size = c := by
      rw [Store.closure, hclosures]
      exact getD_push_self _ _ _
    rw [hc]
    exact .inr ⟨hpair, hbody.imp (Related.mono hgains'.le) fun h => h⟩

theorem Holds.newClosure (hw : w.Holds s) {c : Closure} (hscope : w.shared .scope c.scope c.scope)
    (hpair : c.body.isPair = true) (hbody : w.Code c.body) :
    ∃ w', w.Becomes W s w' (s.newClosure c).2 ∧ w'.Shared (s.newClosure c).1 := by
  obtain ⟨ρ', hgains, hsim, hrelated⟩ := hw.similar.newClosure (c := c) (d := c) ⟨rfl, rfl, rfl, hscope⟩
  exact ⟨_, hw.addClosure hgains hsim (s.keeps_newClosure c) rfl hpair hbody, hrelated.fixed⟩

theorem Holds.newLoop (hw : w.Holds s) {scope : Ref} (hscope : w.shared .scope scope scope)
    (name : String) (params : List String) {body : Value} (hpair : body.isPair = true)
    (hbody : w.Code body) :
    ∃ w', w.Becomes W s w' (s.newLoop scope name params none body).2 ∧
      w'.Shared (s.newLoop scope name params none body).1 := by
  obtain ⟨ρ', hgains, hsim, hrelated⟩ := hw.similar.newLoop hscope name params none body body
  exact ⟨_, hw.addClosure hgains hsim ((s.keeps_pushScope _).trans (Store.keeps_newClosure _ _)) rfl
    hpair hbody, hrelated.fixed⟩

/-- A pair within reach is changed. -/
theorem Holds.change (hw : w.Holds s) {r : Ref} (hr : w.shared .pair r r)
    (hsim : Similar w.shared s' s') (hcount : ∀ k, s'.count k = s.count k)
    (hsame : ∀ k q, ¬ (k = .pair ∧ q = r) → s.SameAt s' k q) : w.Becomes W s w s' := by
  have hgains : Gains w.shared s s w.shared := ⟨.refl _, fun _ _ _ hr => .inl hr⟩
  have hpair : ∀ ⦃q⦄, ¬ w.shared .pair q q → s'.pair q = s.pair q := fun q hq => by
    refine hsame .pair q ?_
    rintro ⟨-, rfl⟩
    exact hq hr
  have htext : ∀ ⦃r⦄, w.text r → w.text r ∧ s'.pair r = s.pair r :=
    fun q hq => ⟨hq, hpair (hw.text hq).apart⟩
  have hclosure : ∀ ⦃a⦄, a < s.closures.size → s'.closure a = s.closure a :=
    fun a _ => hsame .closure a (by simp)
  exact ⟨hw.advance hsim hw.diagonal hgains (hcount .pair).ge htext hclosure (fun _ hr => .inl hr)
    fun _ ha => .inl ha, hgains, htext, fun _ hr => .inl hr, fun k => (hcount k).ge,
    fun _ _ hq _ => hpair hq, fun q _ _ => hsame .scope q (by simp), hclosure⟩

theorem Holds.setCar (hw : w.Holds s) {r : Ref} (hr : w.shared .pair r r) (hv : w.Shared v) :
    w.Becomes W s w (s.setCar r v) :=
  hw.change hr (hw.similar.setCar hr hv) (s.count_setCar r v) fun _ _ hk => s.sameAt_setCar hk v

theorem Holds.setCdr (hw : w.Holds s) {r : Ref} (hr : w.shared .pair r r) (hv : w.Shared v) :
    w.Becomes W s w (s.setCdr r v) :=
  hw.change hr (hw.similar.setCdr hr hv) (s.count_setCdr r v) fun _ _ hk => s.sameAt_setCdr hk v

/-- New pairs and scopes are made, and nothing else happens. -/
theorem Holds.keeps (hw : w.Holds s) (hkeeps : s.Keeps s') : w.Becomes W s w s' := by
  have hgains : Gains w.shared s s w.shared := ⟨.refl _, fun _ _ _ hr => .inl hr⟩
  have htext : ∀ ⦃r⦄, w.text r → w.text r ∧ s'.pair r = s.pair r :=
    fun r hr => ⟨hr, hkeeps.same .pair r (hw.text hr).bound⟩
  have hsim : Similar w.shared s' s' :=
    hw.similar.congr (fun k a b hr => hkeeps.same k a (hw.similar.bound hr).1)
      (fun k a b hr => hkeeps.same k b (hw.similar.bound hr).2) hkeeps.count hkeeps.count rfl
  exact ⟨hw.advance hsim hw.diagonal hgains (hkeeps.count .pair) htext
    (fun a ha => hkeeps.same .closure a ha) (fun _ hr => .inl hr) fun _ ha => .inl ha, hgains, htext,
    fun _ hr => .inl hr, hkeeps.count, fun r hr _ _ => hkeeps.same .pair r hr,
    fun r hr _ => hkeeps.same .scope r hr, fun r hr => hkeeps.same .closure r hr⟩

end

end Realm
end LittleScheme
