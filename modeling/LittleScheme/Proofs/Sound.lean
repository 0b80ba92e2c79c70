import LittleScheme.Proofs.Similarity

/-!
# Stores without dangling references

In a sound store every reference leads to an object of the store. Such a store is similar to itself
along the renaming that takes each object to itself, and the objects that take part in a renaming of
a store to itself can be looked at as a set that is closed under following references.
-/
namespace LittleScheme

open Value (Related)

/-- The value refers to an object of the store, if to any. -/
def Value.Within (s : Store) : Value → Prop
  | .string r => r < s.strings.size
  | .pair r => r < s.pairs.size
  | .vector r => r < s.vectors.size
  | .bytes r => r < s.bytes.size
  | .closure r => r < s.closures.size
  | .port r => r < s.ports.size
  | _ => True

instance (s : Store) : DecidablePred (Value.Within s)
  | .string r => inferInstanceAs (Decidable (r < s.strings.size))
  | .pair r => inferInstanceAs (Decidable (r < s.pairs.size))
  | .vector r => inferInstanceAs (Decidable (r < s.vectors.size))
  | .bytes r => inferInstanceAs (Decidable (r < s.bytes.size))
  | .closure r => inferInstanceAs (Decidable (r < s.closures.size))
  | .port r => inferInstanceAs (Decidable (r < s.ports.size))
  | .nil | .bool _ | .number _ | .char _ | .symbol _ | .keyword _ | .native _ | .eof | .void =>
      .isTrue trivial

/-- Every object refers to objects of the store only, and the standard ports are there. A scope is
made after the one around it. -/
structure Store.Sound (s : Store) : Prop where
  pair : ∀ r < s.pairs.size, (s.car r).Within s ∧ (s.cdr r).Within s
  vector : ∀ r < s.vectors.size, ∀ v ∈ (s.vector r).toList, v.Within s
  closure : ∀ r < s.closures.size, (s.closure r).body.Within s ∧ (s.closure r).scope < s.scopes.size
  binding : ∀ r < s.scopes.size, ∀ (name : String) (v : Value),
    (s.scope r).bindings[name]? = some v → v.Within s
  parent : ∀ r < s.scopes.size, ∀ p, (s.scope r).parent = some p → p < r
  loop : ∀ r < s.scopes.size, ∀ name c, (s.scope r).loop = some (name, c) → c < s.closures.size
  caller : ∀ r < s.scopes.size, ∀ c, (s.scope r).caller = some c → c < s.closures.size
  ports : 2 ≤ s.ports.size

namespace Renaming

/-- Every object of a store is taken to itself. -/
def identity (s : Store) : Renaming := fun k a b => a = b ∧ a < s.count k

/-- The objects that are taken to themselves. -/
def fixed (ρ : Renaming) : Renaming := fun k a b => a = b ∧ ρ k a b

end Renaming

theorem Value.Within.related {s : Store} {v : Value} (h : v.Within s) :
    Related (.identity s) v v := by
  cases v with
  | string r => exact .string ⟨rfl, h⟩
  | pair r => exact .pair ⟨rfl, h⟩
  | vector r => exact .vector ⟨rfl, h⟩
  | bytes r => exact .bytes ⟨rfl, h⟩
  | closure r => exact .closure ⟨rfl, h⟩
  | port r => exact .port ⟨rfl, h⟩
  | _ => constructor

theorem optionRel_refl {α : Type} {R : α → α → Prop} {x : Option α} (h : ∀ a, x = some a → R a a) :
    Option.Rel R x x := by
  cases x with
  | none => exact .none
  | some a => exact .some (h a rfl)

/-- A sound store is similar to itself. -/
theorem Store.Sound.similar {s : Store} (h : s.Sound) : Similar (.identity s) s s where
  bound _ _ _ hr := ⟨hr.2, hr.1 ▸ hr.2⟩
  functional := by
    rintro k a b b' ⟨rfl, -⟩ ⟨rfl, -⟩
    rfl
  injective := by
    rintro k a a' b ⟨rfl, -⟩ ⟨rfl, -⟩
    rfl
  alike := by
    rintro k a b ⟨rfl, hr⟩
    cases k with
    | string | bytes | port => rfl
    | pair => exact ⟨(h.pair a hr).1.related, (h.pair a hr).2.related⟩
    | vector => exact List.forall₂_same.2 fun v hv => (h.vector a hr v hv).related
    | closure => exact ⟨rfl, rfl, rfl, rfl, (h.closure a hr).2⟩
    | scope =>
        refine ⟨⟨fun name => optionRel_refl fun v hv => ?_, optionRel_refl fun p hp => ?_,
          optionRel_refl fun x hx => ?_, optionRel_refl fun c hc => ?_⟩, h.parent a hr, h.parent a hr⟩
        · exact (h.binding a hr name v hv).related
        · exact ⟨rfl, Nat.lt_trans (h.parent a hr p hp) hr⟩
        · exact ⟨rfl, rfl, h.loop a hr x.1 x.2 hx⟩
        · exact ⟨rfl, h.caller a hr c hc⟩
  stdout := ⟨rfl, Nat.lt_of_lt_of_le Nat.zero_lt_two h.ports⟩
  stdin := ⟨rfl, Nat.lt_of_lt_of_le Nat.one_lt_two h.ports⟩
  console := rfl

theorem Value.Related.fixed {ρ : Renaming} {v : Value} (h : Related ρ v v) : Related ρ.fixed v v := by
  cases h with
  | string hr => exact .string ⟨rfl, hr⟩
  | pair hr => exact .pair ⟨rfl, hr⟩
  | vector hr => exact .vector ⟨rfl, hr⟩
  | bytes hr => exact .bytes ⟨rfl, hr⟩
  | closure hr => exact .closure ⟨rfl, hr⟩
  | port hr => exact .port ⟨rfl, hr⟩
  | _ => constructor

theorem optionRel_fixed {α : Type} {R S : α → α → Prop} {x : Option α} (h : Option.Rel R x x)
    (hRS : ∀ a, R a a → S a a) : Option.Rel S x x := by
  cases x with
  | none => exact .none
  | some a =>
      cases h with
      | some h => exact .some (hRS a h)

/-- Of a renaming of a store to itself only the objects that stay where they are have to be kept. -/
theorem Similar.fixed {ρ : Renaming} {s : Store} (h : Similar ρ s s) : Similar ρ.fixed s s where
  bound _ _ _ hr := h.bound hr.2
  functional := by
    rintro k a b b' ⟨rfl, -⟩ ⟨rfl, -⟩
    rfl
  injective := by
    rintro k a a' b ⟨rfl, -⟩ ⟨rfl, -⟩
    rfl
  alike := by
    rintro k a b ⟨rfl, hr⟩
    have halike := h.alike hr
    cases k with
    | string | bytes | port => rfl
    | pair => exact ⟨halike.1.fixed, halike.2.fixed⟩
    | vector =>
        refine List.forall₂_same.2 fun v hv => ?_
        exact (List.forall₂_same.1 halike v hv).fixed
    | closure => exact ⟨rfl, rfl, rfl, rfl, halike.scope⟩
    | scope =>
        obtain ⟨hc, hparents⟩ := halike
        exact ⟨⟨fun name => optionRel_fixed (hc.bindings name) fun _ hv => hv.fixed,
          optionRel_fixed hc.parent fun _ hp => ⟨rfl, hp⟩,
          optionRel_fixed hc.loop fun _ hp => ⟨rfl, rfl, hp.2⟩,
          optionRel_fixed hc.caller fun _ hp => ⟨rfl, hp⟩⟩, hparents⟩
  stdout := ⟨rfl, h.stdout⟩
  stdin := ⟨rfl, h.stdin⟩
  console := rfl

end LittleScheme
