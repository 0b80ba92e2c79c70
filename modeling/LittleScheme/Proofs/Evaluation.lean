import LittleScheme.Proofs.Estates
import LittleScheme.Proofs.Outcomes

/-!
# Evaluation of library code

What the evaluation of an expression of library code yields, by either strategy, told in one way for
both: in every store that may be taken for the given one it ends in a value in a store that may be
taken for one as described. The machine works on copies, so the statement is made for every copy of
the expression and every place where the value may be wanted.
-/
namespace LittleScheme

open Eval (Ends Fuelled untraced)

/-! ### Text -/

namespace Realm

variable {W : Ref → Prop} {w w' : Realm} {s s' : Store} {v : Value}

/-- An atom, or a list in pairs of text. -/
def Plain (w : Realm) (v : Value) : Prop := v.isPair = false ∨ w.Text v

theorem Holds.text_list (hw : w.Holds s) {r : Ref} (hr : w.text r) :
    ∃ cs, s.ListAt (.pair r) (r :: cs) ∧ ∀ c ∈ r :: cs, w.text c := by
  obtain ⟨cs, hspine⟩ := hw.spine_pair (.inr ⟨r, rfl, hr⟩) (hw.text hr).list
  exact ⟨cs, hspine.list, hw.chain_text hr hspine.list.1⟩

theorem Becomes.elements_text (h : w.Becomes W s w' s') (hw : w.Holds s) (hv : w.Text v) :
    s'.elements v = s.elements v := by
  obtain ⟨r, rfl, hr⟩ := hv
  obtain ⟨cs, hlist, htext⟩ := hw.text_list hr
  have hlist' := hlist.congr (fun c hc => Store.cdr_eq_of_pair_eq (h.text (htext c hc)).2) (h.count .pair)
  rw [hlist.elements_eq, hlist'.elements_eq]
  exact List.map_congr_left fun c hc => Store.car_eq_of_pair_eq (h.text (htext c hc)).2

theorem Becomes.text_value (h : w.Becomes W s w' s') (hv : w.Text v) : w'.Text v := by
  obtain ⟨r, rfl, hr⟩ := hv
  exact ⟨r, rfl, (h.text hr).1⟩

theorem Text.isPair (hv : w.Text v) : v.isPair = true := by
  obtain ⟨r, rfl, -⟩ := hv
  rfl

theorem Becomes.plain (h : w.Becomes W s w' s') (hv : w.Plain v) : w'.Plain v :=
  hv.imp_right h.text_value

theorem Holds.needsEvaluation_text (hw : w.Holds s) (hv : w.Text v) :
    Frame.needsEvaluation s v = true := by
  obtain ⟨r, rfl, hr⟩ := hv
  exact (hw.text hr).list

end Realm

namespace Estate

variable {W : Ref → Prop} {g g' : Estate} {s t t' : Store} {v x : Value} {C : List Ref}

theorem Holds.elements_calm (h : g.Holds s) (hcalm : Calm g.kept s t) (hv : g.realm.Text v) :
    t.elements v = s.elements v :=
  (h.advances (W := fun r => ¬ g.kept r) hcalm fun _ _ hr => hcalm.pair (not_not.1 hr)).becomes.elements_text
    h.realm hv

/-! ### Copies -/

/-- What a frame for an expression works on: an atom as it is, or a list of its own with the same
elements. -/
inductive Copy (g : Estate) (t : Store) (v : Value) : Value → List Ref → Prop
  | atom (hv : v.isPair = false) : Copy g t v v []
  | list {r : Ref} {cs : List Ref} (hv : g.realm.Text v) (hlist : t.ListAt (.pair r) (r :: cs))
      (hcars : (r :: cs).map t.car = t.elements v) (hfree : ∀ c ∈ r :: cs, ¬ g.kept c) :
      Copy g t v (.pair r) (r :: cs)

theorem Copy.lt (h : g.Copy t v x C) {c : Ref} (hc : c ∈ C) : c < t.pairs.size := by
  cases h with
  | atom => cases hc
  | list _ hlist => exact hlist.2 c hc

theorem Copy.free (h : g.Copy t v x C) {c : Ref} (hc : c ∈ C) : ¬ g.kept c := by
  cases h with
  | atom => cases hc
  | list _ _ _ hfree => exact hfree c hc

/-- A list of a frame's own stays as it is while others work. -/
theorem Advances.own_list (h : g.Advances W t g' t') (hg : g.Holds t) (hlist : t.ListAt v C)
    (hfree : ∀ c ∈ C, ¬ g.kept c) (hW : ∀ c ∈ C, ¬ W c) :
    t'.ListAt v C ∧ C.map t'.car = C.map t.car ∧ ∀ c ∈ C, ¬ g'.kept c := by
  have hpair : ∀ c ∈ C, t'.pair c = t.pair c := fun c hc =>
    h.pair_eq (hlist.2 c hc) (hg.not_shared (hfree c hc)) (hW c hc)
  exact ⟨hlist.congr (fun c hc => Store.cdr_eq_of_pair_eq (hpair c hc)) h.size_le,
    List.map_congr_left fun c hc => Store.car_eq_of_pair_eq (hpair c hc),
    fun c hc => h.not_kept (hlist.2 c hc) (hfree c hc)⟩

theorem Copy.advance (hcopy : g.Copy t v x C) (hg : g.Holds t) (h : g.Advances W t g' t')
    (hW : ∀ c ∈ C, ¬ W c) : g'.Copy t' v x C := by
  cases hcopy with
  | atom hv => exact .atom hv
  | list hv hlist hcars hfree =>
      obtain ⟨hlist', hcars', hfree'⟩ := h.own_list hg hlist hfree hW
      refine .list (h.becomes.text_value hv) hlist' ?_ hfree'
      rw [hcars', hcars, h.becomes.elements_text hg.realm hv]

theorem growsTo_copySpine (s : Store) (v : Value) : s.GrowsTo (s.copySpine v).2 := by
  unfold Store.copySpine
  split
  · split
    · exact .list s _
    · exact .refl s
  · exact .refl s

/-- The copy that a frame is made with. -/
theorem Holds.copySpine (hg : g.Holds t) (hv : g.realm.Plain v) :
    ∃ C, g.Copy (t.copySpine v).2 v (t.copySpine v).1 C ∧
      ∀ c ∈ C, t.pairs.size ≤ c ∧ c < (t.copySpine v).2.pairs.size := by
  rcases hv with hv | hv
  · have hcopy : t.copySpine v = (v, t) := by
      cases v with
      | pair => cases hv
      | _ => rfl
    rw [hcopy]
    exact ⟨[], .atom hv, nofun⟩
  · have hgrows := growsTo_copySpine t v
    have helements := (hg.advances_growsTo (W := fun _ => False) hgrows).becomes.elements_text hg.realm hv
    obtain ⟨r, rfl, hr⟩ := hv
    obtain ⟨cs, hlist, -⟩ := hg.realm.text_list hr
    have hcopy : t.copySpine (.pair r) = t.list (t.car r :: cs.map t.car) := by
      rw [Store.copySpine, hlist.elements?_eq]
      rfl
    have hnew := t.listAt_list (t.car r :: cs.map t.car)
    have hcars := t.map_car_list (t.car r :: cs.map t.car)
    rw [hcopy, hlist.elements_eq] at helements
    rw [hcopy]
    simp only [List.length_cons, Store.newCells] at hnew hcars
    obtain ⟨hhead, -⟩ := hnew.1
    rw [hhead] at hnew ⊢
    have hbound : ∀ c ∈ (t.pairs.size + (cs.map t.car).length) ::
        Store.newCells t.pairs.size (cs.map t.car).length, t.pairs.size ≤ c := fun c hc =>
      (Store.mem_newCells (k := (cs.map t.car).length + 1).1 hc).1
    exact ⟨_, .list ⟨r, rfl, hr⟩ hnew (hcars.trans helements.symm) fun c hc =>
      hg.not_kept (hbound c hc),
      fun c hc => ⟨hbound c hc, hnew.2 c hc⟩⟩

/-- A pair where a value may be wanted, which is not among those of the frame. -/
def Awaits (g : Estate) (t : Store) (d : Option Ref) (C : List Ref) : Prop :=
  ∀ c, d = some c → c < t.pairs.size ∧ ¬ g.kept c ∧ c ∉ C

theorem Awaits.advance {d : Option Ref} {C' : List Ref} (hd : g.Awaits t d C) (h : g.Advances W t g' t')
    (hC : ∀ c, c < t.pairs.size → c ∈ C' → c ∈ C) : g'.Awaits t' d C' := fun c hc =>
  ⟨Nat.lt_of_lt_of_le (hd c hc).1 h.size_le, h.not_kept (hd c hc).1 (hd c hc).2.1,
    fun hmem => (hd c hc).2.2 (hC c (hd c hc).1 hmem)⟩

end Estate

/-! ### What is yielded -/

/-- The value has come to where it is wanted. -/
def Machine.Lands (d : Option Ref) (t : Store) (u v : Value) (t' : Store) : Prop :=
  u = Evaluator.slot d v ∧ ∀ c, d = some c → t'.pair c = ⟨v, t.cdr c⟩

/-- What is to be shown of a run of a frame that works on the pairs `C`. -/
def Machine.Yields (d : Option Ref) (C : List Ref) (g : Estate) (t : Store)
    (Q : Estate → Value → Store → Prop) (u : Value) (t' : Store) : Prop :=
  ∃ v, Lands d t u v t' ∧ g.Comes (fun r => r ∈ C ∨ d = some r) t Q v t'

namespace Evaluator

/-- The value of an expression. -/
def Yields (e : Evaluator) (K : Exits) (g : Estate) (s : Store) (v : Value) (scope : Ref)
    (Q : Estate → Value → Store → Prop) : Prop :=
  g.Holds s → ∀ t, Calm g.kept s t →
    match e.strategy with
    | .recursive =>
        Does K (fun n => Direct.eval n v scope) t (g.Comes (fun _ => False) t Q)
    | .stack => ∀ x C d, g.Copy t v x C → g.Awaits t d C →
        Does K (fun n => Machine.run e.traceLimit n ⟨[.fresh scope d x], .void, []⟩) t
          (Machine.Yields d C g t Q)

/-- The value of a form with the given elements. -/
def YieldsForm (e : Evaluator) (K : Exits) (g : Estate) (s : Store) (vs : List Value) (scope : Ref)
    (Q : Estate → Value → Store → Prop) : Prop :=
  g.Holds s → ∀ t, Calm g.kept s t → ∀ r cs, t.ListAt (.pair r) (r :: cs) → (r :: cs).map t.car = vs →
    match e.strategy with
    | .recursive => (∀ c ∈ r :: cs, ¬ g.realm.shared .pair c c) →
        Does K (fun n => Direct.evalForm n r scope) t (g.Comes (fun _ => False) t Q)
    | .stack => (∀ c ∈ r :: cs, ¬ g.kept c) → ∀ d, g.Awaits t d (r :: cs) →
        Does K (fun n => Machine.run e.traceLimit n ⟨[.fresh scope d (.pair r)], .void, []⟩) t
          (Machine.Yields d (r :: cs) g t Q)

/-- The values of some expressions, one after the other. -/
def YieldsEach (e : Evaluator) (K : Exits) : Estate → Store → List Value → Ref →
    (Estate → List Value → Store → Prop) → Prop
  | g, s, [], _, Q => Q g [] s
  | g, s, v :: vs, scope, Q => e.Yields K g s v scope fun g' u s' =>
      YieldsEach e K g' s' vs scope fun g'' us s'' => Q g'' (u :: us) s''

/-- The value of a call. -/
def YieldsCall (e : Evaluator) (K : Exits) (g : Estate) (s : Store) (procedure : Value)
    (args : List Value) (Q : Estate → Value → Store → Prop) : Prop :=
  g.Holds s → ∀ t, Calm g.kept s t → ∀ d, g.Awaits t d [] →
    Does K (fun n => e.callTo n d procedure args) t fun v t' =>
      e.Landed d t v t' ∧ g.Comes (fun r => d = some r) t Q v t'

variable {e : Evaluator} {K : Exits} {g : Estate} {s : Store} {v : Value} {scope : Ref}
  {Q Q' : Estate → Value → Store → Prop}

/-- A list of text is evaluated as the form with its elements. -/
theorem YieldsForm.yields (hv : g.realm.Text v) (h : e.YieldsForm K g s (s.elements v) scope Q) :
    e.Yields K g s v scope Q := by
  intro hg t hcalm
  have helements := hg.elements_calm hcalm hv
  have hgt := hg.calm hcalm
  obtain ⟨strategy, limit⟩ := e
  cases strategy with
  | recursive =>
      obtain ⟨r, rfl, hr⟩ := hv
      obtain ⟨cs, hlist, htext⟩ := hgt.realm.text_list hr
      have hform := h hg t hcalm r cs hlist (by rw [← helements, hlist.elements_eq])
        fun c hc => (hgt.realm.text (htext c hc)).apart
      refine hform.of_iff fun _ => Eval.ends_congr 1 0 fun fuel _ => ?_
      rw [Direct.eval, Eval.run_ask_bind]
      simp only [hlist.isList, if_true]
  | stack =>
      intro x C d hcopy hd
      cases hcopy with
      | atom hatom =>
          obtain ⟨r, rfl, -⟩ := hv
          cases hatom
      | list _ hlist hcars hfree =>
          exact h hg t hcalm _ _ hlist (hcars.trans helements) hfree d hd

end Evaluator
end LittleScheme
