import LittleScheme.Proofs.Arguments
import LittleScheme.Proofs.Forms

/-!
# Forms with related operands

A form may be held in pairs of its own, so two forms are compared by their elements: both are proper
lists and the elements are related one by one. Such forms are written alike and have the same fault,
if any; otherwise their parts correspond.
-/
namespace LittleScheme

open Value (Related)

/-! ### Reading on both sides -/

/-- Both computations read their stores and return corresponding results, or both stop for the same
reason. -/
def Parallel {α β : Type} (s t : Store) (x : Eval α) (y : Eval β) (Q : α → β → Prop) : Prop :=
  (∃ a b, x.run s = .ok a s ∧ y.run t = .ok b t ∧ Q a b) ∨
    ∃ e, x.run s = .error (.error e) s ∧ y.run t = .error (.error e) t

namespace Parallel

variable {α β γ δ : Type} {s t : Store} {Q : α → β → Prop} {R : γ → δ → Prop}

theorem pure {a : α} {b : β} (h : Q a b) : Parallel s t (Pure.pure a) (Pure.pure b) Q :=
  .inl ⟨a, b, rfl, rfl, h⟩

theorem raise (e : Error) : Parallel s t (Eval.raise e : Eval α) (Eval.raise e : Eval β) Q :=
  .inr ⟨e, rfl, rfl⟩

theorem ask {f : Store → α} {g : Store → β} (h : Q (f s) (g t)) :
    Parallel s t (Eval.ask f) (Eval.ask g) Q := .inl ⟨f s, g t, rfl, rfl, h⟩

theorem bind {x : Eval α} {y : Eval β} {f : α → Eval γ} {g : β → Eval δ} (hx : Parallel s t x y Q)
    (hf : ∀ a b, Q a b → Parallel s t (f a) (g b) R) : Parallel s t (x >>= f) (y >>= g) R := by
  rcases hx with ⟨a, b, ha, hb, hab⟩ | ⟨e, hxe, hye⟩
  · rw [Parallel, Eval.run_bind_ok ha, Eval.run_bind_ok hb]
    exact hf a b hab
  · exact .inr ⟨e, Eval.run_bind_error hxe, Eval.run_bind_error hye⟩

theorem mono {Q' : α → β → Prop} {x : Eval α} {y : Eval β} (hx : Parallel s t x y Q)
    (h : ∀ a b, Q a b → Q' a b) : Parallel s t x y Q' := by
  rcases hx with ⟨a, b, ha, hb, hab⟩ | hfail
  · exact .inl ⟨a, b, ha, hb, h a b hab⟩
  · exact .inr hfail

theorem mapM {f : α → Eval γ} {g : β → Eval δ} {as : List α} {bs : List β}
    (h : List.Forall₂ (fun a b => Parallel s t (f a) (g b) R) as bs) :
    Parallel s t (as.mapM f) (bs.mapM g) (List.Forall₂ R) := by
  induction h with
  | nil => exact pure .nil
  | cons hab _ ih =>
      rw [List.mapM_cons, List.mapM_cons]
      exact hab.bind fun c d hcd => ih.bind fun cs ds hcds => pure (.cons hcd hcds)

end Parallel

/-! ### Lists with related elements -/

/-- Two proper lists, with the pairs that hold them, whose elements are related. -/
structure Listed (ρ : Renaming) (s t : Store) (v w : Value) (cs ds : List Ref) : Prop where
  left : s.ListAt v cs
  right : t.ListAt w ds
  elements : List.Forall₂ (fun c d => Related ρ (s.car c) (t.car d)) cs ds

namespace Listed

variable {ρ : Renaming} {s t : Store} {v w : Value} {c d : Ref} {cs ds : List Ref}

theorem length_eq (h : Listed ρ s t v w cs ds) : cs.length = ds.length := h.elements.length_eq

theorem head (h : Listed ρ s t v w (c :: cs) (d :: ds)) : Related ρ (s.car c) (t.car d) := by
  cases h.elements with
  | cons hcd _ => exact hcd

theorem tail (h : Listed ρ s t v w (c :: cs) (d :: ds)) :
    Listed ρ s t (s.cdr c) (t.cdr d) cs ds := by
  refine ⟨h.left.tail, h.right.tail, ?_⟩
  cases h.elements with
  | cons _ hrest => exact hrest

theorem values (h : Listed ρ s t v w cs ds) :
    List.Forall₂ (Related ρ) (cs.map s.car) (ds.map t.car) := by
  rw [List.forall₂_map_left_iff, List.forall₂_map_right_iff]
  exact h.elements

theorem isPair_eq (h : Listed ρ s t v w cs ds) : v.isPair = w.isPair := by
  obtain ⟨⟨hv, -⟩, ⟨hw, -⟩, helements⟩ := h
  cases helements with
  | nil =>
      obtain ⟨rfl, -⟩ := hv
      obtain ⟨rfl, -⟩ := hw
      rfl
  | cons _ _ =>
      obtain ⟨rfl, -⟩ := hv
      obtain ⟨rfl, -⟩ := hw
      rfl

end Listed

theorem Similar.listed {ρ : Renaming} {s t : Store} {v w : Value} (h : Similar ρ s t)
    (hv : Related ρ v w) (hl : s.isList v = true) :
    ∃ cs ds, Listed ρ s t v w cs ds ∧ List.Forall₂ (ρ .pair) cs ds := by
  obtain ⟨cs, ds, hc, hd, hcells⟩ := h.listAt hv hl
  exact ⟨cs, ds, ⟨hc, hd, hcells.imp fun _ _ hr => h.car hr⟩, hcells⟩

namespace Store.ListAt

variable {s : Store} {v : Value} {cs : List Ref}

theorem parts_eq (h : s.ListAt v cs) : s.parts v = cs.map s.car := by
  cases cs with
  | nil =>
      obtain ⟨rfl, -⟩ := h.1
      rfl
  | cons r cs =>
      obtain ⟨rfl, -⟩ := h.1
      simp [parts, spine_chain h.1, Ending.ofTail, Value.isNil]

theorem textWithin_eq (h : s.ListAt v cs) (style : Text.Style) (n : Nat) :
    s.textWithin style (n + 1) v =
      "(" ++ Text.spaced ((cs.map s.car).map (s.textWithin style n)) ++ ")" := by
  cases cs with
  | nil =>
      obtain ⟨rfl, -⟩ := h.1
      rfl
  | cons r cs =>
      obtain ⟨rfl, -⟩ := h.1
      simp [textWithin, spine_chain h.1, Ending.ofTail, Value.isNil]

end Store.ListAt

namespace Listed

variable {ρ : Renaming} {s t : Store} {v w : Value} {cs ds : List Ref}

theorem text_eq (h : Listed ρ s t v w cs ds) (hs : Similar ρ s t) (style : Text.Style) :
    s.text style v = t.text style w := by
  refine Store.text_eq_of_within (fun n => ?_) fun n => ?_
  · cases n with
    | zero => rfl
    | succ n =>
        rw [Store.nestedWithin, Store.nestedWithin, h.left.parts_eq, h.right.parts_eq]
        exact Similar.all_eq h.values fun _ _ hv => hs.nestedWithin n hv
  · cases n with
    | zero => rfl
    | succ n =>
        rw [h.left.textWithin_eq, h.right.textWithin_eq,
          Similar.map_eq h.values fun _ _ hv => hs.textWithin style n hv]

theorem written_eq (h : Listed ρ s t v w cs ds) (hs : Similar ρ s t) : s.written v = t.written w :=
  h.text_eq hs .write

theorem operandsText_eq (h : Listed ρ s t v w cs ds) (hs : Similar ρ s t) :
    Form.operandsText s v = Form.operandsText t w := by
  unfold Form.operandsText
  rw [h.written_eq hs, h.isPair_eq]

end Listed

/-! ### Taking forms apart -/

namespace Form

section shapes

variable {s : Store} {v : Value} {cs : List Ref}

/-- What comes of operands that do not fit the form. -/
def misfit (α : Type) (form : Keyword) (operands : Value) (s : Store) : EStateM.Result Stop Store α :=
  .error (.error (.malformed (.malformedForm form (operandsText s operands)))) s

theorem run_malformed {α : Type} (form : Keyword) (operands : Value) (s : Store) :
    (malformed form operands : Eval α).run s = misfit α form operands s := rfl

theorem run_operandCells (h : s.ListAt v cs) (form : Keyword) (low : Nat) (high : Option Nat) :
    (operandCells form v low high).run s =
      if low ≤ cs.length ∧ high.all (fun high => cs.length ≤ high) = true then .ok cs s
      else misfit _ form v s := by
  rw [operandCells, Eval.run_ask_bind]
  simp only [h.isList, if_true, Eval.run_ask_bind, h.cells_eq]
  split
  · rfl
  · rfl

theorem run_quotation {c : Ref} (h : s.ListAt v [c]) : (quotation v).run s = .ok (s.car c) s := by
  rw [quotation, Eval.run_bind, run_operandCells h]
  rfl

theorem run_quotation_misfit (h : s.ListAt v cs) (hcs : cs.length ≠ 1) :
    (quotation v).run s = misfit _ .quote v s := by
  rw [quotation, Eval.run_bind, run_operandCells h, if_neg]
  · rfl
  · simp only [Option.all_some, decide_eq_true_eq]
    omega

theorem run_conditional {a b : Ref} (h : s.ListAt v (a :: b :: cs)) (hcs : cs.length ≤ 1) :
    (conditional v).run s = .ok ⟨a, s.car b, cs.head?.map s.car⟩ s := by
  rw [conditional, Eval.run_bind, run_operandCells h]
  rcases cs with _ | ⟨c, _ | ⟨c', cs⟩⟩
  · rfl
  · rfl
  · simp at hcs

theorem run_conditional_misfit (h : s.ListAt v cs) (htwo : cs.length ≠ 2) (hthree : cs.length ≠ 3) :
    (conditional v).run s = misfit _ .ifThen v s := by
  rw [conditional, Eval.run_bind, run_operandCells h, if_neg]
  · rfl
  · simp only [Option.all_some, decide_eq_true_eq]
    omega

theorem run_assignment {a b : Ref} (h : s.ListAt v [a, b]) :
    (assignment v).run s = (do return (← bindingName (s.car a), b) : Eval (String × Ref)).run s := by
  rw [assignment, Eval.run_bind, run_operandCells h]
  rfl

theorem run_assignment_misfit (h : s.ListAt v cs) (hcs : cs.length ≠ 2) :
    (assignment v).run s = misfit _ .set v s := by
  rw [assignment, Eval.run_bind, run_operandCells h, if_neg]
  · rfl
  · simp only [Option.all_some, decide_eq_true_eq]
    omega

theorem run_checkBody {c : Ref} (h : s.ListAt v (c :: cs)) : (checkBody v).run s = .ok () s := by
  have hlist := h.isList
  obtain ⟨rfl, -⟩ := h.1
  rw [checkBody, Eval.run_ask_bind]
  simp [Value.isNil, hlist]

/-- A closure in the making, whose body has been checked. -/
def closing (name : Option String) (spec body : Value) (scope : Ref) : Eval Value := do
  let (params, rest) ← parameters spec
  Eval.make fun s => s.newClosure { name, params, rest, body, scope }

theorem run_makeClosure {c : Ref} (h : s.ListAt v (c :: cs)) (name : Option String) (spec : Value)
    (scope : Ref) : (makeClosure name spec v scope).run s = (closing name spec v scope).run s := by
  rw [makeClosure, Eval.run_bind_ok (run_checkBody h)]
  rfl

theorem run_lambda {a b : Ref} (h : s.ListAt v (a :: b :: cs)) (scope : Ref) :
    (lambda v scope).run s = (closing none (s.car a) (s.cdr a) scope).run s := by
  rw [lambda, Eval.run_bind, run_operandCells h]
  simp only [List.length_cons, Nat.le_add_left, Option.all_none, and_self, if_true]
  exact run_makeClosure h.tail none (s.car a) scope

theorem run_lambda_misfit (h : s.ListAt v cs) (hcs : cs.length < 2) (scope : Ref) :
    (lambda v scope).run s = misfit _ .lambda v s := by
  rw [lambda, Eval.run_bind, run_operandCells h, if_neg]
  · rfl
  · omega

theorem run_definition_procedure {a b target : Ref} (h : s.ListAt v (a :: b :: cs))
    (htarget : s.car a = .pair target) (scope : Ref) :
    (definition v scope).run s = (do
      let name ← bindingName (s.car target)
      let closure ← closing (some name) (s.cdr target) (s.cdr a) scope
      return .procedure name closure : Eval Definition).run s := by
  rw [definition, Eval.run_bind, run_operandCells h]
  simp only [List.length_cons, Nat.le_add_left, Option.all_none, and_self, if_true,
    Eval.run_ask_bind, htarget]
  -- Reading the name does not change the store, so the body is still a list.
  rcases readOnly_bindingName (s.car target) s with ⟨name, hname⟩ | ⟨e, he⟩
  · rw [Eval.run_bind_ok hname, Eval.run_bind_ok hname]
    simp only [Eval.run_ask_bind]
    rw [Eval.run_bind, Eval.run_bind, run_makeClosure h.tail]
  · rw [Eval.run_bind_error he, Eval.run_bind_error he]

theorem run_definition_variable {a b : Ref} (h : s.ListAt v [a, b])
    (htarget : (s.car a).isPair = false) (scope : Ref) :
    (definition v scope).run s =
      (do return .variable (← bindingName (s.car a)) b : Eval Definition).run s := by
  rw [definition, Eval.run_bind, run_operandCells h]
  simp only [List.length_cons, Nat.le_add_left, Option.all_none, and_self, if_true,
    Eval.run_ask_bind]
  generalize s.car a = target at htarget
  cases target with
  | pair => contradiction
  | _ => rfl

theorem run_definition_misfit (h : s.ListAt v cs) (hcs : cs.length ≠ 2)
    (htarget : ∀ a b more, cs = a :: b :: more → (s.car a).isPair = false) (scope : Ref) :
    (definition v scope).run s = misfit _ .define v s := by
  rw [definition, Eval.run_bind, run_operandCells h]
  rcases cs with _ | ⟨a, _ | ⟨b, _ | ⟨c, cs⟩⟩⟩
  · rfl
  · rfl
  · simp at hcs
  · simp only [List.length_cons, Nat.le_add_left, Option.all_none, and_self, if_true,
      Eval.run_ask_bind]
    have htarget := htarget a b _ rfl
    generalize s.car a = target at htarget
    cases target with
    | pair => contradiction
    | _ => rfl

/-- The parts of a `let` whose operands are enough in number. -/
def partsOf (s : Store) (a b : Ref) (more : List Ref) : Value → Except SyntaxFault LetParts
  | .symbol name =>
      if more.isEmpty then .ok ⟨none, .symbol name, s.cdr a⟩
      else .ok ⟨some name, s.car b, s.cdr b⟩
  | .keyword k => .error (.boundKeyword k)
  | bindings => .ok ⟨none, bindings, s.cdr a⟩

theorem run_letParts {a b : Ref} (h : s.ListAt v (a :: b :: cs)) :
    (letParts v).run s = (match partsOf s a b cs (s.car a) with
      | .ok parts => pure parts
      | .error fault => Eval.malformed fault : Eval LetParts).run s := by
  rw [letParts, Eval.run_bind, run_operandCells h]
  simp only [List.length_cons, Nat.le_add_left, Option.all_none, and_self, if_true,
    Eval.run_ask_bind]
  generalize s.car a = first
  cases first with
  | symbol name => cases cs <;> rfl
  | _ => rfl

theorem run_letParts_misfit (h : s.ListAt v cs) (hcs : cs.length < 2) :
    (letParts v).run s = misfit _ .letIn v s := by
  rw [letParts, Eval.run_bind, run_operandCells h, if_neg]
  · rfl
  · omega

end shapes

/-! ### Parameters -/

section parameters

variable {ρ : Renaming} {s t : Store} {v w : Value}

theorem bindingName_parallel (hs : Similar ρ s t) (hv : Related ρ v w) :
    Parallel s t (bindingName v) (bindingName w)
      fun a b => a = b ∧ v = .symbol a ∧ w = .symbol b := by
  have hv' := hv
  cases hv with
  | symbol name => exact .pure ⟨rfl, rfl, rfl⟩
  | keyword k => exact .raise _
  | _ =>
      refine .bind (Q := Eq) (.ask (hs.written hv')) fun a b hab => ?_
      subst hab
      exact .raise _

theorem addParameter_parallel (hs : Similar ρ s t) (hv : Related ρ v w) (params : List String) :
    Parallel s t (addParameter params v) (addParameter params w) fun a b => a = b ∧
      ∃ name, a = params ++ [name] ∧ name ∉ params ∧ v = .symbol name ∧ w = .symbol name := by
  refine (bindingName_parallel hs hv).bind fun name name' hname => ?_
  obtain ⟨rfl, hvname, hwname⟩ := hname
  by_cases hmem : params.contains name = true
  · simp only [hmem, if_true]
    exact .raise _
  · simp only [hmem, Bool.false_eq_true, if_false]
    exact .pure ⟨rfl, name, rfl, by simpa using hmem, hvname, hwname⟩

/-- Pairs whose elements are different parameters, as in the part of a list that has been read. -/
structure Visited (s : Store) (params : List String) (seen : List Ref) : Prop where
  nodup : seen.Nodup
  bound : ∀ r ∈ seen, r < s.pairs.size
  named : ∀ r ∈ seen, ∃ name ∈ params, s.car r = .symbol name

theorem Visited.length_le {params : List String} {seen : List Ref} (h : Visited s params seen) :
    seen.length ≤ s.pairs.size := Store.length_le_of_nodup h.nodup h.bound

theorem Visited.add {params : List String} {seen : List Ref} {r : Ref} {name : String}
    (h : Visited s params seen) (hr : r < s.pairs.size) (hcar : s.car r = .symbol name)
    (hname : name ∉ params) : Visited s (params ++ [name]) (r :: seen) where
  nodup := by
    refine List.nodup_cons.2 ⟨fun hmem => ?_, h.nodup⟩
    obtain ⟨name', hname', hcar'⟩ := h.named r hmem
    rw [hcar] at hcar'
    cases hcar'
    exact hname hname'
  bound q hq := by
    rcases List.mem_cons.1 hq with rfl | hq
    · exact hr
    · exact h.bound q hq
  named q hq := by
    rcases List.mem_cons.1 hq with rfl | hq
    · exact ⟨name, by simp, hcar⟩
    · obtain ⟨name', hname', hcar'⟩ := h.named q hq
      exact ⟨name', List.mem_append_left _ hname', hcar'⟩

/-- In a circular list a parameter comes twice before the bound is used up, so the bound does not
matter. -/
theorem parametersWithin_parallel (hs : Similar ρ s t) {m n : Nat} {params : List String}
    {seen seen' : List Ref} (hseen : Visited s params seen) (hseen' : Visited t params seen')
    (hm : s.pairs.size < m + seen.length) (hn : t.pairs.size < n + seen'.length)
    (hv : Related ρ v w) :
    Parallel s t (parametersWithin m params v) (parametersWithin n params w) Eq := by
  induction m generalizing n params seen seen' v w with
  | zero =>
      have hle := hseen.length_le
      omega
  | succ m ih =>
      obtain ⟨n, rfl⟩ : ∃ k, n = k + 1 := by
        have hle := hseen'.length_le
        exact ⟨n - 1, by omega⟩
      have hv' := hv
      cases hv with
      | nil => exact .pure rfl
      | @pair a b hr =>
          refine .bind (Q := fun x y => x = s.car a ∧ y = t.car b) (.ask ⟨rfl, rfl⟩)
            fun x y hxy => ?_
          obtain ⟨rfl, rfl⟩ := hxy
          refine (addParameter_parallel hs (hs.car hr) params).bind fun ps qs hps => ?_
          obtain ⟨rfl, name, rfl, hname, hleft, hright⟩ := hps
          refine .bind (Q := Related ρ) (.ask (hs.cdr hr)) fun x y hxy => ?_
          exact ih (hseen.add (hs.bound hr).1 hleft hname) (hseen'.add (hs.bound hr).2 hright hname)
            (by rw [List.length_cons]; omega) (by rw [List.length_cons]; omega) hxy
      | _ =>
          refine (bindingName_parallel hs hv').bind fun name name' hname => ?_
          obtain ⟨rfl, -⟩ := hname
          exact .pure rfl

theorem parameters_parallel (hs : Similar ρ s t) (hv : Related ρ v w) :
    Parallel s t (parameters v) (parameters w) Eq := by
  rw [Parallel, parameters, parameters, Eval.run_ask_bind, Eval.run_ask_bind]
  have hleft : Visited s [] [] := ⟨.nil, by simp, by simp⟩
  have hright : Visited t [] [] := ⟨.nil, by simp, by simp⟩
  exact parametersWithin_parallel hs hleft hright (by simp) (by simp) hv

end parameters

/-! ### Related parts -/

section

variable {ρ : Renaming} {s t : Store} {v w : Value} {cs ds : List Ref}

theorem misfit_eq {α : Type} (form : Keyword) (h : Listed ρ s t v w cs ds) (hs : Similar ρ s t) :
    ∃ e, misfit α form v s = .error (.error e) s ∧ misfit α form w t = .error (.error e) t :=
  ⟨_, rfl, by rw [misfit, h.operandsText_eq hs]⟩

theorem quotation_parallel (hs : Similar ρ s t) (h : Listed ρ s t v w cs ds) :
    Parallel s t (quotation v) (quotation w) (Related ρ) := by
  have hlength := h.length_eq
  by_cases hcs : cs.length = 1
  · obtain ⟨c, rfl⟩ := List.length_eq_one_iff.1 hcs
    obtain ⟨d, rfl⟩ := List.length_eq_one_iff.1 (hlength ▸ hcs)
    exact .inl ⟨_, _, run_quotation h.left, run_quotation h.right, h.head⟩
  · obtain ⟨e, hl, hr⟩ := misfit_eq (α := Value) .quote h hs
    rw [Parallel, run_quotation_misfit h.left hcs, run_quotation_misfit h.right (hlength ▸ hcs)]
    exact .inr ⟨e, hl, hr⟩

end

end Form
end LittleScheme
