import LittleScheme.Proofs.Cells
import LittleScheme.Proofs.Computation
import Mathlib.Data.List.Forall2
import Mathlib.Data.Option.Basic

/-!
# Stores up to a renaming

Two stores are similar along a renaming when the objects it relates have the same contents, up to the
renaming again. A renaming relates each object to at most one other; objects that it does not
mention are free to differ. As objects are made on both sides the renaming grows, but only by objects
that are new on both sides.
-/
namespace LittleScheme

/-- The kinds of objects. -/
inductive Kind where
  | string
  | pair
  | vector
  | bytes
  | closure
  | port
  | scope
  deriving DecidableEq

/-- The number of objects of a kind. -/
def Store.count (s : Store) : Kind → Nat
  | .string => s.strings.size
  | .pair => s.pairs.size
  | .vector => s.vectors.size
  | .bytes => s.bytes.size
  | .closure => s.closures.size
  | .port => s.ports.size
  | .scope => s.scopes.size

/-- Objects are only added, none of them a closure, and no pair is changed. -/
structure Store.Grows (s s' : Store) : Prop where
  count : ∀ k, s.count k ≤ s'.count k
  pair : ∀ r < s.pairs.size, s'.pair r = s.pair r
  closures : s'.closures = s.closures

theorem Store.Grows.refl (s : Store) : s.Grows s := ⟨fun _ => Nat.le_refl _, fun _ _ => rfl, rfl⟩

theorem Store.Grows.trans {s s' s'' : Store} (h : s.Grows s') (h' : s'.Grows s'') : s.Grows s'' where
  count k := Nat.le_trans (h.count k) (h'.count k)
  pair r hr := (h'.pair r (Nat.lt_of_lt_of_le hr (h.count .pair))).trans (h.pair r hr)
  closures := h'.closures.trans h.closures

/-- Which object of one store corresponds to which object of another. -/
abbrev Renaming := Kind → Ref → Ref → Prop

namespace Renaming

/-- One renaming goes on with another. -/
def Le (ρ ρ' : Renaming) : Prop := ∀ ⦃k a b⦄, ρ k a b → ρ' k a b

theorem Le.refl (ρ : Renaming) : ρ.Le ρ := fun _ _ _ h => h

theorem Le.trans {ρ ρ' ρ'' : Renaming} (h : ρ.Le ρ') (h' : ρ'.Le ρ'') : ρ.Le ρ'' :=
  fun _ _ _ hr => h' (h hr)

/-- A renaming with one more pair of objects. -/
def add (ρ : Renaming) (k : Kind) (a b : Ref) : Renaming :=
  fun k' a' b' => ρ k' a' b' ∨ (k' = k ∧ a' = a ∧ b' = b)

theorem le_add (ρ : Renaming) (k : Kind) (a b : Ref) : ρ.Le (ρ.add k a b) :=
  fun _ _ _ h => .inl h

theorem add_functional (ρ : Renaming) {k : Kind} {a b : Ref} (hnew : ∀ b, ¬ ρ k a b)
    (h : ∀ ⦃k a b b'⦄, ρ k a b → ρ k a b' → b = b') :
    ∀ ⦃k' a' b' b''⦄, ρ.add k a b k' a' b' → ρ.add k a b k' a' b'' → b' = b'' := by
  rintro k' a' b' b'' (hr | ⟨rfl, rfl, rfl⟩) (hr' | ⟨hk, ha, hb⟩)
  · exact h hr hr'
  · subst hk ha
    exact absurd hr (hnew _)
  · exact absurd hr' (hnew _)
  · exact hb.symm

theorem add_injective (ρ : Renaming) {k : Kind} {a b : Ref} (hnew : ∀ a, ¬ ρ k a b)
    (h : ∀ ⦃k a a' b⦄, ρ k a b → ρ k a' b → a = a') :
    ∀ ⦃k' a' a'' b'⦄, ρ.add k a b k' a' b' → ρ.add k a b k' a'' b' → a' = a'' := by
  rintro k' a' a'' b' (hr | ⟨rfl, rfl, rfl⟩) (hr' | ⟨hk, ha, hb⟩)
  · exact h hr hr'
  · subst hk hb
    exact absurd hr (hnew _)
  · exact absurd hr' (hnew _)
  · exact ha.symm

end Renaming

theorem optionRel_imp {α β : Type} {R S : α → β → Prop} {a : Option α} {b : Option β}
    (h : Option.Rel R a b) (hRS : ∀ a b, R a b → S a b) : Option.Rel S a b := by
  cases h with
  | some h => exact .some (hRS _ _ h)
  | none => exact .none

theorem optionRel_flip {α β : Type} {R : α → β → Prop} {S : β → α → Prop} {a : Option α}
    {b : Option β} (h : Option.Rel R a b) (hRS : ∀ a b, R a b → S b a) : Option.Rel S b a := by
  cases h with
  | some h => exact .some (hRS _ _ h)
  | none => exact .none

/-- Values that are the same up to a renaming. -/
inductive Value.Related (ρ : Renaming) : Value → Value → Prop
  | nil : Related ρ .nil .nil
  | bool (b : Bool) : Related ρ (.bool b) (.bool b)
  | number (n : Number) : Related ρ (.number n) (.number n)
  | char (c : Char) : Related ρ (.char c) (.char c)
  | string {a b : Ref} (h : ρ .string a b) : Related ρ (.string a) (.string b)
  | symbol (name : String) : Related ρ (.symbol name) (.symbol name)
  | keyword (k : Keyword) : Related ρ (.keyword k) (.keyword k)
  | pair {a b : Ref} (h : ρ .pair a b) : Related ρ (.pair a) (.pair b)
  | vector {a b : Ref} (h : ρ .vector a b) : Related ρ (.vector a) (.vector b)
  | bytes {a b : Ref} (h : ρ .bytes a b) : Related ρ (.bytes a) (.bytes b)
  | native (p : Native) : Related ρ (.native p) (.native p)
  | closure {a b : Ref} (h : ρ .closure a b) : Related ρ (.closure a) (.closure b)
  | port {a b : Ref} (h : ρ .port a b) : Related ρ (.port a) (.port b)
  | eof : Related ρ .eof .eof
  | void : Related ρ .void .void

namespace Value.Related

variable {ρ ρ' : Renaming} {v w : Value}

theorem mono (hle : ρ.Le ρ') (h : Related ρ v w) : Related ρ' v w := by
  cases h with
  | string h => exact .string (hle h)
  | pair h => exact .pair (hle h)
  | vector h => exact .vector (hle h)
  | bytes h => exact .bytes (hle h)
  | closure h => exact .closure (hle h)
  | port h => exact .port (hle h)
  | _ => constructor

theorem isTrue_eq (h : Related ρ v w) : v.isTrue = w.isTrue := by cases h <;> rfl

theorem isNil_eq (h : Related ρ v w) : v.isNil = w.isNil := by cases h <;> rfl

theorem isPair_eq (h : Related ρ v w) : v.isPair = w.isPair := by cases h <;> rfl

theorem isProcedure_eq (h : Related ρ v w) : v.isProcedure = w.isProcedure := by cases h <;> rfl

theorem typeName_eq (h : Related ρ v w) : v.typeName = w.typeName := by cases h <;> rfl

end Value.Related

open Value (Related)

/-- Scopes that bind the same names to related values. -/
structure Scope.Related (ρ : Renaming) (c d : Scope) : Prop where
  bindings : ∀ name : String, Option.Rel (Value.Related ρ) c.bindings[name]? d.bindings[name]?
  parent : Option.Rel (ρ .scope) c.parent d.parent
  loop : Option.Rel (fun a b => a.1 = b.1 ∧ ρ .closure a.2 b.2) c.loop d.loop
  caller : Option.Rel (ρ .closure) c.caller d.caller

theorem Scope.Related.mono {ρ ρ' : Renaming} {c d : Scope} (hle : ρ.Le ρ')
    (h : Scope.Related ρ c d) : Scope.Related ρ' c d where
  bindings name := optionRel_imp (h.bindings name) fun _ _ hv => hv.mono hle
  parent := optionRel_imp h.parent fun _ _ hp => hle hp
  loop := optionRel_imp h.loop fun _ _ hp => ⟨hp.1, hle hp.2⟩
  caller := optionRel_imp h.caller fun _ _ hp => hle hp

/-- Closures that differ at most in their bodies. -/
structure Closure.Related (ρ : Renaming) (c d : Closure) : Prop where
  name : c.name = d.name
  params : c.params = d.params
  rest : c.rest = d.rest
  scope : ρ .scope c.scope d.scope

theorem Closure.Related.mono {ρ ρ' : Renaming} {c d : Closure} (hle : ρ.Le ρ')
    (h : Closure.Related ρ c d) : Closure.Related ρ' c d :=
  ⟨h.name, h.params, h.rest, hle h.scope⟩

/-- An object of one store and one of another have the same contents up to a renaming. A scope is
younger than the one around it. -/
def Alike (ρ : Renaming) (s t : Store) : Kind → Ref → Ref → Prop
  | .string, a, b => s.string a = t.string b
  | .pair, a, b => Related ρ (s.car a) (t.car b) ∧ Related ρ (s.cdr a) (t.cdr b)
  | .vector, a, b => List.Forall₂ (Related ρ) (s.vector a).toList (t.vector b).toList
  | .bytes, a, b => s.bytevector a = t.bytevector b
  | .closure, a, b => Closure.Related ρ (s.closure a) (t.closure b)
  | .port, a, b => s.port a = t.port b
  | .scope, a, b => Scope.Related ρ (s.scope a) (t.scope b) ∧
      (∀ p, (s.scope a).parent = some p → p < a) ∧ ∀ p, (t.scope b).parent = some p → p < b

/-- The objects that a renaming relates have the same contents up to the renaming. -/
structure Similar (ρ : Renaming) (s t : Store) : Prop where
  bound : ∀ ⦃k a b⦄, ρ k a b → a < s.count k ∧ b < t.count k
  functional : ∀ ⦃k a b b'⦄, ρ k a b → ρ k a b' → b = b'
  injective : ∀ ⦃k a a' b⦄, ρ k a b → ρ k a' b → a = a'
  alike : ∀ ⦃k a b⦄, ρ k a b → Alike ρ s t k a b
  stdout : ρ .port Store.stdout Store.stdout
  stdin : ρ .port Store.stdin Store.stdin
  console : s.console = t.console

namespace Similar

variable {ρ : Renaming} {s t : Store} {a b : Ref}

theorem string (h : Similar ρ s t) (hr : ρ .string a b) : s.string a = t.string b := h.alike hr

theorem car (h : Similar ρ s t) (hr : ρ .pair a b) : Related ρ (s.car a) (t.car b) := (h.alike hr).1

theorem cdr (h : Similar ρ s t) (hr : ρ .pair a b) : Related ρ (s.cdr a) (t.cdr b) := (h.alike hr).2

theorem vector (h : Similar ρ s t) (hr : ρ .vector a b) :
    List.Forall₂ (Related ρ) (s.vector a).toList (t.vector b).toList := h.alike hr

theorem bytes (h : Similar ρ s t) (hr : ρ .bytes a b) : s.bytevector a = t.bytevector b :=
  h.alike hr

theorem closure (h : Similar ρ s t) (hr : ρ .closure a b) :
    Closure.Related ρ (s.closure a) (t.closure b) := h.alike hr

theorem port (h : Similar ρ s t) (hr : ρ .port a b) : s.port a = t.port b := h.alike hr

theorem scope (h : Similar ρ s t) (hr : ρ .scope a b) : Scope.Related ρ (s.scope a) (t.scope b) :=
  (h.alike hr).1

theorem left_parent (h : Similar ρ s t) (hr : ρ .scope a b) {p : Ref}
    (hp : (s.scope a).parent = some p) : p < a := (h.alike hr).2.1 p hp

theorem right_parent (h : Similar ρ s t) (hr : ρ .scope a b) {p : Ref}
    (hp : (t.scope b).parent = some p) : p < b := (h.alike hr).2.2 p hp

end Similar

/-- A renaming goes on with another, and what it has gained is new in both stores. -/
structure Gains (ρ : Renaming) (s t : Store) (ρ' : Renaming) : Prop where
  le : ρ.Le ρ'
  fresh : ∀ ⦃k a b⦄, ρ' k a b → ρ k a b ∨ (s.count k ≤ a ∧ t.count k ≤ b)

theorem Gains.trans {ρ ρ' ρ'' : Renaming} {s t s' t' : Store} (h : Gains ρ s t ρ')
    (h' : Gains ρ' s' t' ρ'') (hs : ∀ k, s.count k ≤ s'.count k)
    (ht : ∀ k, t.count k ≤ t'.count k) : Gains ρ s t ρ'' where
  le := h.le.trans h'.le
  fresh k a b hr := by
    rcases h'.fresh hr with hr | ⟨ha, hb⟩
    · exact h.fresh hr
    · exact .inr ⟨Nat.le_trans (hs k) ha, Nat.le_trans (ht k) hb⟩

/-- Both stores have grown, and what the renaming has gained is new in both. -/
structure Later (ρ : Renaming) (s t : Store) (ρ' : Renaming) (s' t' : Store) : Prop
    extends Gains ρ s t ρ' where
  left : s.Grows s'
  right : t.Grows t'

namespace Later

variable {ρ ρ' ρ'' : Renaming} {s t s' t' s'' t'' : Store}

/-- Stores that have grown, with the same renaming. -/
theorem same (hs : s.Grows s') (ht : t.Grows t') : Later ρ s t ρ s' t' :=
  ⟨⟨.refl ρ, fun _ _ _ h => .inl h⟩, hs, ht⟩

theorem refl (ρ : Renaming) (s t : Store) : Later ρ s t ρ s t := same (.refl s) (.refl t)

theorem trans (h : Later ρ s t ρ' s' t') (h' : Later ρ' s' t' ρ'' s'' t'') :
    Later ρ s t ρ'' s'' t'' :=
  ⟨h.toGains.trans h'.toGains h.left.count h.right.count, h.left.trans h'.left,
    h.right.trans h'.right⟩

end Later

/-! ### Related computations -/

/-- Two outcomes agree: related results or the same reason to stop, in similar stores. -/
def Agreeing {α β : Type} (ρ : Renaming) (s t : Store) (Q : Renaming → α → β → Prop) :
    EStateM.Result Stop Store α → EStateM.Result Stop Store β → Prop
  | .ok a s', .ok b t' => ∃ ρ', Later ρ s t ρ' s' t' ∧ Similar ρ' s' t' ∧ Q ρ' a b
  | .error e s', .error e' t' => e = e' ∧ ∃ ρ', Later ρ s t ρ' s' t' ∧ Similar ρ' s' t'
  | _, _ => False

/-- Two computations agree from all similar stores. -/
def Agree {α β : Type} (ρ : Renaming) (x : Eval α) (y : Eval β) (Q : Renaming → α → β → Prop) :
    Prop := ∀ s t, Similar ρ s t → Agreeing ρ s t Q (x.run s) (y.run t)

namespace Agree

variable {α β γ δ : Type} {ρ : Renaming} {Q : Renaming → α → β → Prop}
  {R : Renaming → γ → δ → Prop}

theorem pure {a : α} {b : β} (h : Q ρ a b) : Agree ρ (Pure.pure a) (Pure.pure b) Q :=
  fun s t hs => ⟨ρ, .refl ρ s t, hs, h⟩

theorem throw (e : Stop) : Agree ρ (MonadExcept.throw e : Eval α) (MonadExcept.throw e : Eval β) Q :=
  fun s t hs => ⟨rfl, ρ, .refl ρ s t, hs⟩

theorem raise (e : Error) : Agree ρ (Eval.raise e : Eval α) (Eval.raise e : Eval β) Q := throw _

theorem ask {f : Store → α} {g : Store → β} (h : ∀ s t, Similar ρ s t → Q ρ (f s) (g t)) :
    Agree ρ (Eval.ask f) (Eval.ask g) Q :=
  fun s t hs => ⟨ρ, .refl ρ s t, hs, h s t hs⟩

theorem bind {x : Eval α} {y : Eval β} {f : α → Eval γ} {g : β → Eval δ} (hx : Agree ρ x y Q)
    (hf : ∀ ρ' a b, ρ.Le ρ' → Q ρ' a b → Agree ρ' (f a) (g b) R) :
    Agree ρ (x >>= f) (y >>= g) R := by
  intro s t hs
  have hxy := hx s t hs
  cases hxs : x.run s with
  | ok a s' =>
      cases hyt : y.run t with
      | ok b t' =>
          rw [hxs, hyt] at hxy
          obtain ⟨ρ', hlater, hs', hq⟩ := hxy
          rw [Eval.run_bind_ok hxs, Eval.run_bind_ok hyt]
          have hfg := hf ρ' a b hlater.le hq s' t' hs'
          cases hfs : (f a).run s' with
          | ok c s'' =>
              cases hgt : (g b).run t' with
              | ok d t'' =>
                  rw [hfs, hgt] at hfg
                  obtain ⟨ρ'', hlater', hs'', hr⟩ := hfg
                  exact ⟨ρ'', hlater.trans hlater', hs'', hr⟩
              | error e t'' => rw [hfs, hgt] at hfg; exact hfg.elim
          | error e s'' =>
              cases hgt : (g b).run t' with
              | ok d t'' => rw [hfs, hgt] at hfg; exact hfg.elim
              | error e' t'' =>
                  rw [hfs, hgt] at hfg
                  obtain ⟨rfl, ρ'', hlater', hs''⟩ := hfg
                  exact ⟨rfl, ρ'', hlater.trans hlater', hs''⟩
      | error e t' => rw [hxs, hyt] at hxy; exact hxy.elim
  | error e s' =>
      cases hyt : y.run t with
      | ok b t' => rw [hxs, hyt] at hxy; exact hxy.elim
      | error e' t' =>
          rw [hxs, hyt] at hxy
          rw [Eval.run_bind_error hxs, Eval.run_bind_error hyt]
          exact hxy

theorem mono {Q' : Renaming → α → β → Prop} {x : Eval α} {y : Eval β} (hx : Agree ρ x y Q)
    (h : ∀ ρ' a b, ρ.Le ρ' → Q ρ' a b → Q' ρ' a b) : Agree ρ x y Q' := by
  intro s t hs
  have hxy := hx s t hs
  cases hxs : x.run s <;> cases hyt : y.run t <;> rw [hxs, hyt] at hxy
  · obtain ⟨ρ', hlater, hs', hq⟩ := hxy
    exact ⟨ρ', hlater, hs', h _ _ _ hlater.le hq⟩
  · exact hxy.elim
  · exact hxy.elim
  · exact hxy

/-- Elements one after the other, each of which agrees at any later time. -/
theorem mapM {f : α → Eval γ} {g : β → Eval δ} {as : List α} {bs : List β}
    (hR : ∀ ⦃ρ₁ ρ₂ c d⦄, ρ₁.Le ρ₂ → R ρ₁ c d → R ρ₂ c d)
    (h : List.Forall₂ (fun a b => ∀ ρ', ρ.Le ρ' → Agree ρ' (f a) (g b) R) as bs)
    {ρ' : Renaming} (hle : ρ.Le ρ') :
    Agree ρ' (as.mapM f) (bs.mapM g) fun ρ'' => List.Forall₂ (R ρ'') := by
  induction h generalizing ρ' with
  | nil => exact pure .nil
  | cons hab _ ih =>
      rw [List.mapM_cons, List.mapM_cons]
      refine bind (hab ρ' hle) fun ρ₁ c d hle₁ hcd => ?_
      refine bind (ih (hle.trans hle₁)) fun ρ₂ cs ds hle₂ hcds => ?_
      exact pure (.cons (hR hle₂ hcd) hcds)

end Agree
end LittleScheme
