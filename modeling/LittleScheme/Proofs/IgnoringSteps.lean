import LittleScheme.Proofs.Ignoring
import LittleScheme.Proofs.Staying

/-!
# Steps that do not notice a pair

A pair that is held for a frame further down is neither shared nor owned, so a step of a frame further
up cannot get at it. With another value in the first part of that pair the step does the same. The
proof goes through the forms as that of guardedness does, which says where the pairs lie that the
parts of a step come across.
-/
namespace LittleScheme

open Value (Related)
open Eval (Ignores)

namespace Store

variable {s : Store} {c : Ref} {z : Value}

theorem isList_setCar (v : Value) : (s.setCar c z).isList v = s.isList v := by
  rw [Bool.eq_iff_iff, isList_iff, isList_iff]
  refine exists_congr fun cs => ⟨fun h => h.congr fun r _ => ?_, fun h => h.congr fun r _ => ?_⟩
  · exact (s.cdr_setCar c r z).symm
  · exact s.cdr_setCar c r z

theorem cellsWithin_setCar (n : Nat) (v : Value) :
    (s.setCar c z).cellsWithin n v = s.cellsWithin n v := by
  induction n generalizing v with
  | zero => cases v <;> rfl
  | succ n ih =>
      cases v with
      | pair r => rw [cellsWithin, cellsWithin, cdr_setCar, ih]
      | _ => rfl

theorem cells_setCar (v : Value) : (s.setCar c z).cells v = s.cells v := by
  rw [cells, size_setCar, cellsWithin_setCar, cells]

theorem elements_setCar {v : Value} (h : c ∉ s.cells v) :
    (s.setCar c z).elements v = s.elements v := by
  rw [elements, cells_setCar, elements]
  refine List.map_congr_left fun r hr => car_setCar_ne ?_ z
  rintro rfl
  exact h hr

theorem chainWithin_setCar (n : Nat) (r : Ref) :
    (s.setCar c z).chainWithin n r = s.chainWithin n r := by
  induction n generalizing r with
  | zero => rfl
  | succ n ih =>
      rw [chainWithin, chainWithin, show (s.setCar c z).scope r = s.scope r from rfl]
      cases (s.scope r).parent with
      | none => rfl
      | some parent => exact congrArg (r :: ·) (ih parent)

theorem find?_setCar (r : Ref) (name : String) : (s.setCar c z).find? r name = s.find? r name := by
  rw [find?, chain, chainWithin_setCar]
  rfl

theorem get?_setCar (r : Ref) (name : String) : (s.setCar c z).get? r name = s.get? r name := by
  rw [get?, chain, chainWithin_setCar]
  rfl

end Store

namespace Eval.Ignores

variable {α β : Type} {c : Ref} {z : Value} {s : Store} {x : Eval α} {f : α → Eval β}

theorem bind_ok {a : α} (hz : x.run (s.setCar c z) = .ok a (s.setCar c z)) (hx : x.run s = .ok a s)
    (hf : Ignores c z s (f a)) : Ignores c z s (x >>= f) :=
  of_run (run_bind_ok hz) (run_bind_ok hx) hf

theorem bind_error {e : Stop} (hz : x.run (s.setCar c z) = .error e (s.setCar c z))
    (hx : x.run s = .error e s) : Ignores c z s (x >>= f) := by
  rw [Ignores, run_bind_error hz, run_bind_error hx]
  rfl

/-- Both stores are only read, with the same result. -/
theorem parallel {Q : α → α → Prop} (h : Parallel (s.setCar c z) s x x Q)
    (hf : ∀ a b, Q a b → a = b ∧ Ignores c z s (f b)) : Ignores c z s (x >>= f) := by
  rcases h with ⟨a, b, hz, hx, hab⟩ | ⟨e, hz, hx⟩
  · obtain ⟨rfl, hfa⟩ := hf a b hab
    exact bind_ok hz hx hfa
  · exact bind_error hz hx

/-- What comes first is guarded. -/
theorem guarded {N : Nat} {W : Ref → Prop} {w : Ownership} {Q : Ownership → α → Store → Prop}
    (hx : Ignores c z s x) (hguarded : Guarded N W w s x Q)
    (hf : ∀ w' a s', w.Le w' → w'.Holds N s' → Q w' a s' → Ignores c z s' (f a)) :
    Ignores c z s (x >>= f) := by
  refine hx.bind fun a s' hrun => ?_
  rw [Guarded, hrun] at hguarded
  obtain ⟨w', hle, hw', -, hq⟩ := hguarded
  exact hf w' a s' hle hw' hq

/-- What comes first is guarded and only reads the store. -/
theorem guarded_reads {N : Nat} {W : Ref → Prop} {w : Ownership} {P : α → Prop} (hx : Ignores c z s x)
    (hguarded : Guarded N W w s x fun w' a s' => w' = w ∧ s' = s ∧ P a)
    (hf : ∀ a, P a → Ignores c z s (f a)) : Ignores c z s (x >>= f) := by
  refine hx.guarded hguarded fun w' a s' _ _ h => ?_
  obtain ⟨-, hs, ha⟩ := h
  subst hs
  exact hf a ha

end Eval.Ignores

namespace Ownership

variable {N : Nat} {w w' : Ownership} {s : Store} {c r : Ref} {rest : Value}

theorem Le.held_of (h : w.Le w') (hc : w.held c rest) : w'.held c rest := h.held ▸ hc

theorem Holds.hides (hw : w.Holds N s) (hc : w.held c rest) : Hides w.shared c s where
  similar := hw.similar
  diagonal := hw.diagonal
  bound := Nat.lt_of_lt_of_le (hw.held hc).1 hw.size
  apart := (hw.held hc).2.1

theorem Holds.ne_of_held (hw : w.Holds N s) (hc : w.held c rest) (hr : w.own r ∨ w.shared .pair r r) :
    r ≠ c := by
  rintro rfl
  obtain ⟨hlt, hapart, -⟩ := hw.held hc
  exact hr.elim (fun hown => Nat.not_lt.2 (hw.young hown) hlt) hapart

theorem Holds.car_setCar (hw : w.Holds N s) (hc : w.held c rest) (hr : w.own r ∨ w.shared .pair r r)
    (z : Value) : (s.setCar c z).car r = s.car r :=
  Store.car_setCar_ne (hw.ne_of_held hc hr) z

theorem Holds.elements_setCar (hw : w.Holds N s) (hc : w.held c rest) {v : Value} (hv : w.Code v)
    (z : Value) : (s.setCar c z).elements v = s.elements v :=
  Store.elements_setCar fun hmem => hw.ne_of_held hc (hw.cellsWithin _ (.inr hv) c hmem) rfl

end Ownership

/-! ### Copies -/

section

variable {ρ : Renaming} {c : Ref} {z : Value} {s : Store} {v : Value}

theorem Hides.elements?_eq (h : Hides ρ c s) (hv : Related ρ v v) (z : Value) :
    (s.setCar c z).elements? v = s.elements? v := by
  have hitems := (h.similar_setCar z).elements? hv
  generalize (s.setCar c z).elements? v = x, s.elements? v = y at hitems
  cases hitems with
  | none => rfl
  | some hvs => rw [eq_of_forall₂_related hvs h.diagonal]

theorem Hides.copySpine (h : Hides ρ c s) (hv : Related ρ v v) (z : Value) :
    (s.setCar c z).copySpine v = ((s.copySpine v).1, (s.copySpine v).2.setCar c z) := by
  cases v with
  | pair r =>
      rw [Store.copySpine, Store.copySpine, h.elements?_eq hv]
      cases s.elements? (.pair r) with
      | none => rfl
      | some items => exact Store.listWithTail_setCar h.bound items .nil
  | _ => rfl

theorem Listed.setCar {cs : List Ref} (hlist : Listed ρ s s v v cs cs)
    (hcs : ∀ r ∈ cs, r ≠ c) (z : Value) : Listed ρ (s.setCar c z) s v v cs cs where
  left := hlist.left.congr (fun r _ => s.cdr_setCar c r z) (s.size_setCar c z).ge
  right := hlist.right
  elements := by
    rw [List.forall₂_same]
    intro r hr
    rw [Store.car_setCar_ne (hcs r hr)]
    exact List.forall₂_same.1 hlist.elements r hr

/-- What is left of the same operands is the same. -/
theorem BodyOf.eq {t : Store} {cs : List Ref} {body body' : Value} (h : BodyOf ρ t s cs cs body body') :
    body = body' := by
  obtain ⟨as, bs, hne, has, hbs, hlist⟩ := h
  obtain rfl : as = bs := List.suffix_of_suffix_length_le has hbs hlist.length_eq.le |>.eq_of_length
    hlist.length_eq
  cases as with
  | nil => contradiction
  | cons a as => exact hlist.left.1.1.trans hlist.right.1.1.symm

end

namespace Frame

open Ownership

variable {N : Nat} {W : Ref → Prop} {w : Ownership} {s : Store} {f : Frame} {v rest z : Value} {c : Ref}

theorem new_ignores (hw : w.Holds N s) (hc : w.held c rest) (hv : w.Shared v) (scope : Ref)
    (d : Option Ref) : Ignores c z s (new v scope d) :=
  (Ignores.make ((hw.hides hc).copySpine hv z)).map _

theorem goOn_ignores (hw : w.Holds N s) (hc : w.held c rest) (f : Frame) (hv : w.Shared v) :
    Ignores c z s (goOn f v) :=
  (Ignores.make ((hw.hides hc).copySpine hv z)).map _

theorem await_ignores (hw : w.Holds N s) (hc : w.held c rest) (f : Frame) (hv : w.Shared v)
    (cell : Ref) : Ignores c z s (await f v cell) :=
  (new_ignores hw hc hv f.scope (some cell)).map _

theorem mapM_ignores {α : Type} {make : α → Eval Frame} {items : List α} (hw : w.Holds N s)
    (hguarded : ∀ a ∈ items, ∀ w' s', w.Le w' → w'.Holds N s' → Guarded N W w' s' (make a)
      fun _ _ _ => True)
    (hmake : ∀ a ∈ items, ∀ w' s', w.Le w' → w'.Holds N s' → Ignores c z s' (make a)) :
    Ignores c z s (items.mapM make) := by
  induction items generalizing w s with
  | nil => exact .pure _
  | cons a items ih =>
      rw [List.mapM_cons]
      refine (hmake a (by simp) w s (.refl w) hw).guarded (hguarded a (by simp) w s (.refl w) hw)
        fun w₁ g s₁ hle hw₁ _ => Ignores.map ?_ _
      exact ih hw₁ (fun b hb w' s' hle' => hguarded b (by simp [hb]) w' s' (hle.trans hle'))
        fun b hb w' s' hle' => hmake b (by simp [hb]) w' s' (hle.trans hle')

theorem ofBody_ignores (hw : w.Holds N s) (hc : w.held c rest) (hv : w.Code v) {scope : Ref}
    (hscope : w.shared .scope scope scope) (d : Option Ref) : Ignores c z s (ofBody v scope d) := by
  have hshared := hw.elements_shared hv
  refine .asks (hw.elements_setCar hc hv z) ?_
  refine mapM_ignores (W := fun _ => True) hw (fun x hx w' s' hle hw' => ?_) fun x hx w' s' hle hw' => ?_
  · exact (new_guarded hw' ((hshared x hx).mono hle) (hle.shared hscope)
      fun c _ => .inr trivial).mono fun _ _ _ _ => trivial
  · exact new_ignores hw' (hle.held_of hc) ((hshared x hx).mono hle) scope d

/-! ### Forms -/

section forms

variable {form : Ref} {cs : List Ref}

theorem Formed.cell_ne (h : Formed N W w s f form cs) (hc : w.held c rest) {r : Ref}
    (hr : r ∈ form :: cs) : r ≠ c := h.holds.ne_of_held hc (h.spine.cell hr)

theorem Formed.car_setCar (h : Formed N W w s f form cs) (hc : w.held c rest) {r : Ref}
    (hr : r ∈ form :: cs) (z : Value) : (s.setCar c z).car r = s.car r :=
  h.holds.car_setCar hc (h.spine.cell hr) z

theorem Formed.listed (h : Formed N W w s f form cs) (hc : w.held c rest) (z : Value) :
    Listed w.shared (s.setCar c z) s (s.cdr form) (s.cdr form) cs cs :=
  (h.operands.listed h.holds).setCar (fun _ hr => h.cell_ne hc (List.mem_cons_of_mem form hr)) z

/-- The operands do not fit the form, in both stores alike. -/
theorem Formed.misfit_ignores (h : Formed N W w s f form cs) (hc : w.held c rest) {α : Type}
    {x : Eval α} {k : Keyword}
    (hx : ∀ t, Listed w.shared t s (s.cdr form) (s.cdr form) cs cs →
      x.run t = Form.misfit α k (s.cdr form) t) : Ignores c z s x := by
  have hlist := h.listed hc z
  rw [Ignores, hx _ hlist, hx _ (h.operands.listed h.holds), Form.misfit, Form.misfit,
    hlist.operandsText_eq ((h.holds.hides hc).similar_setCar z)]
  rfl

theorem conditional_ignores (h : Formed N W w s f form cs) (hc : w.held c rest) :
    Ignores c z s (Form.conditional (s.cdr form)) := by
  have hlist := h.listed hc z
  by_cases hcs : cs.length = 2 ∨ cs.length = 3
  · obtain ⟨a, b, more, rfl⟩ := Form.exists_cons_cons (l := cs) (by omega)
    simp only [List.length_cons] at hcs
    have hcar (r : Ref) (hr : r ∈ b :: more) : (s.setCar c z).car r = s.car r :=
      h.car_setCar hc (by simp only [List.mem_cons] at hr ⊢; tauto) z
    rw [Ignores, Form.run_conditional hlist.left (by omega), Form.run_conditional hlist.right (by omega)]
    rw [hcar b (by simp)]
    cases more with
    | nil => rfl
    | cons d more => simp [Eval.onStore, hcar d (by simp)]
  · rw [not_or] at hcs
    exact h.misfit_ignores hc fun t ht => Form.run_conditional_misfit ht.left hcs.1 hcs.2

theorem stepConditional_ignores (h : Formed N W w s f form cs) (hc : w.held c rest) :
    Ignores c z s (stepConditional f (s.cdr form)) := by
  refine (conditional_ignores h hc).bind fun parts s' hparts => ?_
  obtain ⟨a, b, more, rfl, hrun⟩ := (Form.run_conditional_cases h.operands.list).resolve_left
    fun ⟨e, he⟩ => by rw [hparts] at he; cases he
  obtain ⟨rfl, rfl⟩ := EStateM.Result.ok.inj (hrun.symm.trans hparts)
  refine .asks (h.car_setCar hc (by simp) z) ?_
  have hgoOn (r : Ref) (hr : r ∈ a :: b :: more) : Ignores c z s (goOn f (s.car r)) :=
    goOn_ignores h.holds hc f (h.car hr)
  cases f.pushed with
  | false => exact await_ignores h.holds hc f (h.car (by simp)) a
  | true =>
      cases (s.car a).isTrue with
      | true => exact hgoOn b (by simp)
      | false =>
          cases more with
          | nil => exact .pure _
          | cons d more => exact hgoOn d (by simp)

theorem bindingName_ignores {α : Type} {k : String → Eval α} (hw : w.Holds N s) (hc : w.held c rest)
    (hv : w.Shared v) (hk : ∀ name, Ignores c z s (k name)) :
    Ignores c z s (Form.bindingName v >>= k) :=
  .parallel (Form.bindingName_parallel ((hw.hides hc).similar_setCar z) hv)
    fun _ b hab => ⟨hab.1, hk b⟩

theorem bind_ignores (scope : Ref) (name : String) (v : Value) : Ignores c z s (Eval.bind scope name v) :=
  (Ignores.update rfl).map _

theorem find_ignores (scope : Ref) (name : String) : Ignores c z s (Eval.find scope name) := by
  refine .asks (Store.find?_setCar scope name) ?_
  cases s.find? scope name with
  | none => exact .throw _
  | some r => exact .pure r

theorem assign_ignores (scope : Ref) (name : String) (v : Value) :
    Ignores c z s (Eval.assign scope name v) :=
  (find_ignores scope name).bind fun _ _ _ => bind_ignores _ _ _

theorem lookup_ignores (scope : Ref) (name : String) : Ignores c z s (Eval.lookup scope name) := by
  refine .asks (Store.get?_setCar scope name) ?_
  cases s.get? scope name with
  | none => exact .throw _
  | some v => exact .pure v

theorem assignment_ignores (h : Formed N W w s f form cs) (hc : w.held c rest) :
    Ignores c z s (Form.assignment (s.cdr form)) := by
  have hlist := h.listed hc z
  by_cases hcs : cs.length = 2
  · obtain ⟨a, b, rfl⟩ := List.length_eq_two.1 hcs
    have hcar := h.car_setCar hc (r := a) (by simp) z
    refine .of_run (y := do return (← Form.bindingName (s.car a), b)) ?_ ?_ ?_
    · rw [Form.run_assignment hlist.left, hcar]
    · rw [Form.run_assignment hlist.right]
    · exact bindingName_ignores h.holds hc (h.car (by simp)) fun _ => .pure _
  · exact h.misfit_ignores hc fun t ht => Form.run_assignment_misfit ht.left hcs

theorem stepAssignment_ignores (h : Formed N W w s f form cs) (hc : w.held c rest) :
    Ignores c z s (stepAssignment f (s.cdr form)) := by
  refine (assignment_ignores h hc).bind fun target s' htarget => ?_
  obtain ⟨name, a, b, rfl, hrun⟩ := (Form.run_assignment_cases h.operands.list).resolve_left
    fun ⟨e, he⟩ => by rw [htarget] at he; cases he
  obtain ⟨rfl, rfl⟩ := EStateM.Result.ok.inj (hrun.symm.trans htarget)
  refine .asks (h.car_setCar hc (by simp) z) ?_
  cases f.pushed with
  | false => exact await_ignores h.holds hc f (h.car (by simp)) b
  | true => exact (assign_ignores _ _ _).map _

/-! ### Closures -/

theorem closing_ignores (hw : w.Holds N s) (hc : w.held c rest) {spec : Value} (hspec : w.Shared spec)
    (name : Option String) (body : Value) (scope : Ref) :
    Ignores c z s (Form.closing name spec body scope) :=
  .parallel (Form.parameters_parallel ((hw.hides hc).similar_setCar z) hspec)
    fun _ _ hab => ⟨hab, .make rfl⟩

theorem lambda_ignores (h : Formed N W w s f form cs) (hc : w.held c rest) (scope : Ref) :
    Ignores c z s (Form.lambda (s.cdr form) scope) := by
  have hlist := h.listed hc z
  by_cases hcs : cs.length < 2
  · exact h.misfit_ignores hc fun t ht => Form.run_lambda_misfit ht.left hcs scope
  · obtain ⟨a, b, more, rfl⟩ := Form.exists_cons_cons hcs
    refine .of_run (y := Form.closing none (s.car a) (s.cdr a) scope) ?_ ?_ ?_
    · rw [Form.run_lambda hlist.left, h.car_setCar hc (by simp), Store.cdr_setCar]
    · rw [Form.run_lambda hlist.right]
    · exact closing_ignores h.holds hc (h.car (by simp)) _ _ _

theorem definition_ignores (h : Formed N W w s f form cs) (hc : w.held c rest) (scope : Ref) :
    Ignores c z s (Form.definition (s.cdr form) scope) := by
  have hlist := h.listed hc z
  by_cases hpair : ∃ a b more, cs = a :: b :: more ∧ (s.car a).isPair = true
  · obtain ⟨a, b, more, rfl, hpair⟩ := hpair
    have hshared : w.Shared (s.car a) := h.car (by simp)
    have hcar := h.car_setCar hc (r := a) (by simp) z
    generalize hx : s.car a = x at hshared hcar hpair
    cases hshared with
    | @pair target _ hr =>
        refine .of_run (y := do
          let name ← Form.bindingName (s.car target)
          let closure ← Form.closing (some name) (s.cdr target) (s.cdr a) scope
          return .procedure name closure) ?_ ?_ ?_
        · rw [Form.run_definition_procedure hlist.left hcar, h.holds.car_setCar hc (.inr hr),
            Store.cdr_setCar, Store.cdr_setCar]
        · rw [Form.run_definition_procedure hlist.right hx]
        · refine bindingName_ignores h.holds hc (h.holds.similar.car hr) fun name => ?_
          exact (closing_ignores h.holds hc (h.holds.similar.cdr hr) _ _ _).map _
    | _ => contradiction
  · by_cases htwo : cs.length = 2
    · obtain ⟨a, b, rfl⟩ := List.length_eq_two.1 htwo
      have hnot : (s.car a).isPair = false := by
        by_contra hcar
        exact hpair ⟨a, b, [], rfl, by simpa using hcar⟩
      have hcar := h.car_setCar hc (r := a) (by simp) z
      refine .of_run (y := do return .variable (← Form.bindingName (s.car a)) b) ?_ ?_ ?_
      · rw [Form.run_definition_variable hlist.left (by rwa [hcar]), hcar]
      · rw [Form.run_definition_variable hlist.right hnot]
      · exact bindingName_ignores h.holds hc (h.car (by simp)) fun _ => .pure _
    · refine h.misfit_ignores hc fun t ht => Form.run_definition_misfit ht.left htwo ?_ scope
      rintro a b more rfl
      rw [ht.head.isPair_eq]
      by_contra hcar
      exact hpair ⟨a, b, more, rfl, by simpa using hcar⟩

theorem stepDefinition_ignores (h : Formed N W w s f form cs) (hc : w.held c rest) :
    Ignores c z s (stepDefinition f (s.cdr form)) := by
  refine (definition_ignores h hc f.scope).bind fun d s' hd => ?_
  rcases Form.definition_defines h.holds.similar (h.operands.listed h.holds) h.owned.scope with
    ⟨name, a, b, _, _, rfl, -, -, hrun, -⟩ | ⟨name, -, _, -, p, -, -, hrun, -⟩ | ⟨e, hrun, -⟩
  · obtain ⟨rfl, rfl⟩ := EStateM.Result.ok.inj (hrun.symm.trans hd)
    refine .asks (h.car_setCar hc (by simp) z) ?_
    cases f.pushed with
    | false => exact await_ignores h.holds hc f (h.car (by simp)) b
    | true => exact (bind_ignores _ _ _).map _
  · obtain ⟨rfl, rfl⟩ := EStateM.Result.ok.inj (hrun.symm.trans hd)
    exact (bind_ignores _ _ _).map _
  · rw [hrun] at hd
    cases hd

theorem quotation_ignores (h : Formed N W w s f form cs) (hc : w.held c rest) :
    Ignores c z s (Form.quotation (s.cdr form)) := by
  have hlist := h.listed hc z
  by_cases hone : cs.length = 1
  · obtain ⟨a, rfl⟩ := List.length_eq_one_iff.1 hone
    rw [Ignores, Form.run_quotation hlist.left, Form.run_quotation hlist.right,
      h.car_setCar hc (by simp)]
    rfl
  · exact h.misfit_ignores hc fun t ht => Form.run_quotation_misfit ht.left hone

theorem letBindings_ignores {α : Type} {k : List (Value × Value) → Eval α} (hw : w.Holds N s)
    (hc : w.held c rest) {items : List Value} (hitems : ∀ v ∈ items, w.Shared v)
    (hk : ∀ bindings, (∀ b ∈ bindings, w.Shared b.1 ∧ w.Shared b.2) → Ignores c z s (k bindings)) :
    Ignores c z s (items.mapM Form.letBinding >>= k) := by
  have hall : List.Forall₂ (fun v v' => Parallel (s.setCar c z) s (Form.letBinding v)
      (Form.letBinding v') fun a b => Related w.shared a.1 b.1 ∧ Related w.shared a.2 b.2) items items :=
    List.forall₂_same.2 fun v hv =>
      (Form.letBinding_parallel ((hw.hides hc).similar_setCar z) (hitems v hv)).mono
        fun _ _ hab => ⟨hab.1, hab.2.1⟩
  refine .parallel (.mapM hall) fun as bs hab => ?_
  obtain rfl : as = bs := List.forall₂_eq_eq_eq ▸ hab.imp fun _ _ hxy =>
    Prod.ext (hxy.1.eq_of_diagonal hw.diagonal) (hxy.2.eq_of_diagonal hw.diagonal)
  exact ⟨rfl, hk as (List.forall₂_same.1 hab)⟩

theorem letNames_ignores {α : Type} {k : List String → Eval α} (hw : w.Holds N s) (hc : w.held c rest)
    {bindings : List (Value × Value)} (hbindings : ∀ b ∈ bindings, w.Shared b.1 ∧ w.Shared b.2)
    (hk : ∀ params, Ignores c z s (k params)) :
    Ignores c z s (bindings.foldlM (fun params b => Form.addParameter params b.1) [] >>= k) :=
  .parallel (Form.letNames_parallel ((hw.hides hc).similar_setCar z)
    (List.forall₂_same.2 hbindings) []) fun _ b hab => ⟨hab, hk b⟩

theorem let_ignores (h : Formed N W w s f form cs) (hc : w.held c rest) (scope : Ref) :
    Ignores c z s (Form.letApplication (s.cdr form) scope) := by
  have hhides := h.holds.hides hc
  have hlist := h.listed hc z
  refine .parallel (Form.letParts_parallel (hhides.similar_setCar z) hlist) fun parts parts' hparts => ?_
  obtain ⟨hname, hbindings, -, hbody⟩ := hparts
  have hdiagonal := hbindings.eq_of_diagonal h.holds.diagonal
  refine ⟨by rw [Form.LetParts.mk.injEq]; exact ⟨hname, hdiagonal, hbody.eq⟩, ?_⟩
  rw [hdiagonal] at hbindings
  rw [hbody.eq] at hbody
  refine .asks (hhides.elements?_eq hbindings z) ?_
  have hitems := h.holds.similar.elements? hbindings
  cases hel : s.elements? parts'.bindings with
  | none => exact .asks (hlist.operandsText_eq (hhides.similar_setCar z)) (.throw _)
  | some items =>
      rw [hel] at hitems
      have hshared : ∀ v ∈ items, w.Shared v := fun v hv =>
        List.forall₂_same.1 (Option.rel_some_some.1 hitems) v hv
      refine letBindings_ignores h.holds hc hshared fun bindings hbindings =>
        .bind_ok hbody.run_checkBody.1 hbody.run_checkBody.2 ?_
      refine letNames_ignores h.holds hc hbindings fun params => ?_
      have happlied (closure : Value) {t : Store} (ht : t.pairs = s.pairs) :
          Ignores c z t (Eval.make fun s => s.listWithTail (closure :: bindings.map Prod.snd) .nil) :=
        .make (Store.listWithTail_setCar (ht ▸ hhides.bound) _ _)
      cases parts'.name with
      | some name =>
          refine Ignores.bind (.make rfl) fun closure t hrun => happlied closure ?_
          cases hrun
          rfl
      | none =>
          refine Ignores.bind (.make rfl) fun closure t hrun => happlied closure ?_
          cases hrun
          rfl

/-! ### Choices -/

theorem needsEvaluation_setCar (v : Value) :
    needsEvaluation (s.setCar c z) v = needsEvaluation s v := by
  cases v with
  | pair r => exact Store.isList_setCar _
  | _ => rfl

theorem settledValue_ignores (arrived : Bool) (v : Value) (scope : Ref) :
    Ignores c z s (settledValue arrived v scope) := by
  cases arrived with
  | true => exact .pure _
  | false =>
      have hself : Ignores c z s (do
          if ← Eval.ask fun s => needsEvaluation s v then return none else return some v) := by
        refine .asks (needsEvaluation_setCar v) ?_
        split <;> exact .pure _
      cases v with
      | symbol name => exact (lookup_ignores scope name).map some
      | _ => exact hself

theorem settledTest_ignores (arrived : Bool) (test : Value) (scope : Ref) :
    Ignores c z s (settledTest arrived test scope) := by
  unfold settledTest
  split
  · exact .pure _
  · exact settledValue_ignores _ _ _

theorem drop_ignores {α : Type} {k : Unit → Eval α} {cell : Ref}
    (hk : Ignores c z (s.setCdr form (s.cdr cell)) (k ())) :
    Ignores c z s (Eval.update (fun s => s.setCdr form (s.cdr cell)) >>= k) := by
  refine Ignores.bind (.update ?_) fun _ s' hrun => ?_
  · rw [Store.cdr_setCar, Store.setCdr_setCar]
  · cases hrun
    exact hk

theorem stepLogical_ignores (wanted arrived : Bool) (h : Formed N W w s f form cs)
    (hc : w.held c rest) : Ignores c z s (stepLogical f form wanted arrived cs) := by
  induction cs generalizing s arrived with
  | nil => exact .pure _
  | cons cell more ih =>
      have hcell : w.Shared (s.car cell) := h.car (by simp)
      refine .asks (h.car_setCar hc (by simp) z) ?_
      split
      · exact goOn_ignores h.holds hc f hcell
      · refine (settledValue_ignores _ _ _).guarded_reads
          (settledValue_guarded (W := W) h.holds hcell h.owned.scope arrived) fun x _ => ?_
        cases x with
        | none => exact await_ignores h.holds hc f hcell cell
        | some v =>
            dsimp only
            split
            · exact .pure _
            · exact drop_ignores (ih false h.drop.1)

theorem clause_ignores (hw : w.Holds N s) (hc : w.held c rest) (hv : w.Shared v) :
    Ignores c z s (Form.clause v) := by
  have hmalformed : Ignores c z s (do Eval.malformed (.notClause (← Eval.written v)) : Eval Ref) :=
    .asks (((hw.hides hc).similar_setCar z).written hv) (.throw _)
  cases v with
  | pair r =>
      refine .asks (Store.isList_setCar _) ?_
      split
      · exact .pure _
      · exact hmalformed
  | _ => exact hmalformed

theorem sequence_ignores (hw : w.Holds N s) (hc : w.held c rest) (hv : w.Shared v) :
    Ignores c z s (Form.sequence v) := by
  have hwrapped : Ignores c z s (Eval.make fun s => s.cons (.keyword .begin) v) :=
    .make (Store.listWithTail_setCar (hw.hides hc).bound [.keyword .begin] v)
  cases v with
  | pair r =>
      refine .asks (s.cdr_setCar c r z) ?_
      split
      · cases hv with
        | pair hr => exact .ask (hw.car_setCar hc (.inr hr) z)
      · exact hwrapped
  | _ => exact hwrapped

theorem stepCond_ignores (arrived : Bool) (h : Formed N W w s f form cs) (hc : w.held c rest) :
    Ignores c z s (stepCond f form arrived cs) := by
  induction cs generalizing s arrived with
  | nil => exact .pure _
  | cons cell more ih =>
      have hcell : w.Shared (s.car cell) := h.car (by simp)
      refine .asks (h.car_setCar hc (by simp) z) ?_
      refine (clause_ignores h.holds hc hcell).guarded_reads (clause_guarded (W := W) h.holds hcell)
        fun clause hclause => ?_
      have htest : w.Shared (s.car clause) := h.holds.similar.car hclause
      have hbody : w.Shared (s.cdr clause) := h.holds.similar.cdr hclause
      refine .asks (h.holds.car_setCar hc (.inr hclause) z) (.asks (s.cdr_setCar c clause z) ?_)
      refine (settledTest_ignores _ _ _).guarded_reads
        (settledTest_guarded (W := W) h.holds htest h.owned.scope arrived) fun x _ => ?_
      cases x with
      | none =>
          refine Ignores.guarded (.make ?_) (head_guarded (W := W) h.holds htest hbody)
            fun w' head s' hle hw' hhead => ?_
          · rw [Store.pushPair_setCar (h.holds.hides hc).bound]
            exact congrArg (·, _) (s.size_setCar c z)
          · refine Ignores.bind (.update (Store.setCar_comm (h.cell_ne hc (by simp)) _))
              fun _ s'' hrun => ?_
            cases hrun
            exact await_ignores (hw'.setCar cell hhead.2) (hle.held_of hc) f (htest.mono hle) head
      | some v =>
          dsimp only
          split
          · split
            · exact .pure _
            · exact (sequence_ignores h.holds hc hbody).guarded (sequence_guarded (W := W) h.holds hbody)
                fun w' x s' hle hw' hx => goOn_ignores hw' (hle.held_of hc) f hx
          · exact drop_ignores (ih false h.drop.1)

/-! ### Applications -/

theorem enterCall_ignores (hw : w.Holds N s) (hc : w.held c rest) (r : Ref) (args : List Value) :
    Ignores c z s (Eval.enterCall r args) := by
  refine .asks rfl ?_
  unfold Eval.checkArity
  split
  · exact .make (Store.enterCall_setCar (hw.hides hc).bound r args)
  · exact .throw _

theorem stepCall_ignores (h : Formed N W w s f form cs) (hc : w.held c rest) :
    Ignores c z s (stepCall f form) := by
  have hargs : ∀ v ∈ s.elements (s.cdr form), w.Shared v := by
    rw [h.operands.list.elements_eq]
    intro v hv
    obtain ⟨r, hr, rfl⟩ := List.mem_map.1 hv
    exact h.car hr
  have hoperator : w.Shared (s.car form) := h.holds.cell_car (h.spine.cell (by simp))
  refine .asks ?_ (.asks (h.car_setCar hc (by simp) z) ?_)
  · rw [Store.cdr_setCar]
    refine Store.elements_setCar fun hmem => ?_
    rw [h.operands.list.cells_eq] at hmem
    exact h.cell_ne hc (List.mem_cons_of_mem form hmem) rfl
  · generalize s.car form = operator at hoperator
    have hwritten := ((h.holds.hides hc).similar_setCar z).written hoperator
    cases hoperator with
    | native p =>
        refine (p.call_ignores (h.holds.hides hc) hargs).bind fun reply s' _ => ?_
        cases reply <;> exact .pure _
    | @closure a _ ha =>
        refine (enterCall_ignores h.holds hc a _).guarded (W := W)
          (Q := fun w' scope _ => w'.shared .scope scope scope)
          (.agree h.holds (Eval.enterCall_agree ha (List.forall₂_same.2 hargs)) ?_) ?_
        · exact fun ρ' scope s' hscope => ⟨rfl, hscope⟩
        · intro w' scope s' hle hw' hscope
          exact .asks rfl ((ofBody_ignores hw' (hle.held_of hc) (hw'.body (hle.shared ha)) hscope
            f.destination).map _)
    | _ => exact .asks hwritten (.throw _)

theorem stepApplication_ignores (h : Formed N W w s f form cs) (hexpr : f.expr = .pair form)
    (hc : w.held c rest) : Ignores c z s (stepApplication f form) := by
  have hcells : ∀ r ∈ pendingCells s f, r ∈ form :: cs := by
    intro r hr
    unfold pendingCells at hr
    split at hr
    · simp at hr
    · rw [hexpr, h.spine.list.cells_eq] at hr
      exact List.mem_of_mem_filter hr
  have hpending : pendingCells (s.setCar c z) f = pendingCells s f := by
    unfold pendingCells
    split
    · rfl
    · rw [Store.cells_setCar, hexpr, h.spine.list.cells_eq]
      refine List.filter_congr fun r hr => ?_
      rw [h.car_setCar hc hr, needsEvaluation_setCar]
  refine .asks hpending ?_
  split
  · exact stepCall_ignores h hc
  · refine (mapM_ignores (W := W) h.holds (fun r hr w' s' hle hw' => ?_) fun r hr w' s' hle hw' => ?_).map _
    · have hcell := (h.spine.cell (hcells r hr)).imp (hle.own ·) (hle.shared ·)
      exact (forCell_guarded hw' (hle.shared h.owned.scope) (hw'.cell_car hcell)
        (h.write r (hcells r hr))).mono fun _ _ _ _ => trivial
    · have hcell := (h.spine.cell (hcells r hr)).imp (hle.own ·) (hle.shared ·)
      exact .asks (hw'.car_setCar (hle.held_of hc) hcell z)
        (new_ignores hw' (hle.held_of hc) (hw'.cell_car hcell) _ _)

theorem stepHead_ignores (h : Formed N W w s f form cs) (hexpr : f.expr = .pair form)
    (hc : w.held c rest) (head : Value) : Ignores c z s (stepHead f form (s.cdr form) head) := by
  have hcells := h.operands.list.cells_eq
  unfold stepHead
  split
  · exact (quotation_ignores h hc).map _
  · exact stepConditional_ignores h hc
  · exact stepDefinition_ignores h hc
  · exact stepAssignment_ignores h hc
  · exact (lambda_ignores h hc _).map _
  · exact (let_ignores h hc _).map _
  · refine .asks (Store.cells_setCar _) ?_
    rw [hcells]
    exact stepCond_ignores _ h hc
  · refine .asks (Store.cells_setCar _) ?_
    rw [hcells]
    exact stepLogical_ignores true _ h hc
  · refine .asks (Store.cells_setCar _) ?_
    rw [hcells]
    exact stepLogical_ignores false _ h hc
  · split
    · exact .pure _
    · rename_i hnil
      refine (ofBody_ignores h.holds hc ?_ h.owned.scope f.destination).map _
      cases cs with
      | nil =>
          rw [h.operands.list.1.1] at hnil
          exact absurd rfl hnil
      | cons r cs => exact h.operands.code_of_suffix (by simp) (List.suffix_refl _) h.operands.list
  · exact .throw _
  · exact stepApplication_ignores h hexpr hc

/-- A step of a frame does not notice a pair that is held for a frame further down. -/
theorem step_ignores (hw : w.Holds N s) (hf : f.Owned N W w) (hc : w.held c rest)
    (hlist : s.isList f.expr = true → ¬ w.Owned f.expr → ∀ r ∈ s.cells f.expr, W r) :
    Ignores c z s f.step := by
  by_cases hpair : ∃ form, f.expr = .pair form
  · obtain ⟨form, hexpr⟩ := hpair
    have hlist' : (s.setCar c z).isList f.expr = s.isList f.expr := Store.isList_setCar _
    cases hl : s.isList f.expr with
    | false =>
        refine .of_run (y := pure (.value f.expr)) (run_step_pair hexpr ?_) (run_step_pair hexpr hl)
          (.pure _)
        rw [hlist', hl]
    | true =>
        obtain ⟨cs, hspine, hcells⟩ := hw.spine hf.expr hl
        rw [hexpr] at hspine
        cases cs with
        | nil => exact absurd hspine.list.1.1 (by simp)
        | cons r cs =>
            obtain ⟨⟨⟩, -⟩ := hspine.list.1
            have hformed : Formed N W w s f form cs := by
              refine ⟨hw, hf, hspine, fun r hr => ?_⟩
              by_cases hown : w.Owned f.expr
              · exact .inl (hw.young (hcells hown r hr))
              · refine .inr (hlist hl hown r ?_)
                rwa [hexpr, hspine.list.cells_eq]
            refine .of_run (run_step_list hexpr (hlist'.trans hl)) (run_step_list hexpr hl) ?_
            exact .asks (s.cdr_setCar c form z) (.asks (hformed.car_setCar hc (by simp) z)
              (stepHead_ignores hformed hexpr hc (s.car form)))
  · unfold step
    split
    · exact (lookup_ignores _ _).map _
    · exact .throw _
    · rename_i r hr
      exact absurd ⟨r, hr⟩ hpair
    · exact .pure _

end forms
end Frame
end LittleScheme
