import LittleScheme.Store.Chain
import Mathlib.Data.Finset.Card
import Mathlib.Data.List.Nodup

/-!
# Finite chains of pairs

`Chain s v cs tail` says that the chain from `v` runs through the pairs `cs` and ends in `tail`. The
bounded walks of the store are exact on such chains: a proper list is a chain that ends in the empty
list, and no chain is longer than the bounds.
-/
namespace LittleScheme.Store

/-- The chain from a value runs through the given pairs and ends in a value that is no pair. -/
def Chain (s : Store) : Value → List Ref → Value → Prop
  | v, [], tail => v = tail ∧ tail.isPair = false
  | v, r :: cs, tail => v = .pair r ∧ s.Chain (s.cdr r) cs tail

theorem chain_nil {s : Store} {v tail : Value} :
    s.Chain v [] tail ↔ v = tail ∧ tail.isPair = false := Iff.rfl

theorem chain_cons {s : Store} {v tail : Value} {r : Ref} {cs : List Ref} :
    s.Chain v (r :: cs) tail ↔ v = .pair r ∧ s.Chain (s.cdr r) cs tail := Iff.rfl

theorem Chain.isPair_tail {s : Store} {v tail : Value} {cs : List Ref} (h : s.Chain v cs tail) :
    tail.isPair = false := by
  induction cs generalizing v with
  | nil => exact h.2
  | cons r cs ih => exact ih h.2

theorem chain_of_not_pair {s : Store} {v tail : Value} {cs : List Ref} (hv : v.isPair = false) :
    s.Chain v cs tail ↔ cs = [] ∧ v = tail := by
  cases cs with
  | nil => exact ⟨fun h => ⟨rfl, h.1⟩, fun h => ⟨h.2, h.2 ▸ hv⟩⟩
  | cons r cs =>
      refine ⟨fun h => ?_, fun h => absurd h.1 nofun⟩
      rw [h.1] at hv
      cases hv

/-- A value has at most one chain. -/
theorem Chain.unique {s : Store} {v t₁ t₂ : Value} {cs ds : List Ref} (hc : s.Chain v cs t₁)
    (hd : s.Chain v ds t₂) : cs = ds ∧ t₁ = t₂ := by
  induction cs generalizing v ds with
  | nil =>
      obtain ⟨rfl, hp⟩ := hc
      cases ds with
      | nil => exact ⟨rfl, hd.1⟩
      | cons r ds => simp [hd.1, Value.isPair] at hp
  | cons r cs ih =>
      obtain ⟨rfl, hc⟩ := hc
      cases ds with
      | nil =>
          obtain ⟨rfl, hp⟩ := hd
          simp [Value.isPair] at hp
      | cons q ds =>
          obtain ⟨he, hd⟩ := hd
          cases he
          obtain ⟨rfl, rfl⟩ := ih hc hd
          exact ⟨rfl, rfl⟩

/-- The chain from a pair that lies on another chain. -/
theorem Chain.drop {s : Store} {v tail : Value} {as bs : List Ref} {r : Ref}
    (h : s.Chain v (as ++ r :: bs) tail) : s.Chain (.pair r) (r :: bs) tail := by
  induction as generalizing v with
  | nil => exact ⟨rfl, h.2⟩
  | cons a as ih => exact ih h.2

/-- No pair comes twice on a chain that ends. -/
theorem Chain.nodup {s : Store} {v tail : Value} {cs : List Ref} (h : s.Chain v cs tail) :
    cs.Nodup := by
  induction cs generalizing v with
  | nil => exact List.nodup_nil
  | cons r cs ih =>
      refine List.nodup_cons.2 ⟨fun hmem => ?_, ih h.2⟩
      obtain ⟨as, bs, rfl⟩ := List.append_of_mem hmem
      have hwhole : s.Chain (.pair r) (r :: (as ++ r :: bs)) tail := ⟨rfl, h.2⟩
      have hlen := congrArg List.length (h.2.drop.unique hwhole).1
      simp only [List.length_cons, List.length_append] at hlen
      omega

theorem cdr_of_size_le {s : Store} {r : Ref} (h : s.pairs.size ≤ r) : s.cdr r = .nil := by
  simp [cdr, pair, Array.getD, Nat.not_lt.2 h]

theorem car_of_size_le {s : Store} {r : Ref} (h : s.pairs.size ≤ r) : s.car r = .nil := by
  simp [car, pair, Array.getD, Nat.not_lt.2 h]

/-- A pair that does not end its chain is in the store. -/
theorem lt_size_of_cdr {s : Store} {r q : Ref} (h : s.cdr r = .pair q) : r < s.pairs.size := by
  by_contra hr
  rw [cdr_of_size_le (Nat.not_lt.1 hr)] at h
  cases h

theorem length_le_of_nodup {cs : List Ref} {n : Nat} (hd : cs.Nodup) (h : ∀ r ∈ cs, r < n) :
    cs.length ≤ n := by
  have hsub : cs.toFinset ⊆ Finset.range n := by
    intro r hr
    exact Finset.mem_range.2 (h r (List.mem_toFinset.1 hr))
  have hcard := Finset.card_le_card hsub
  rwa [List.toFinset_card_of_nodup hd, Finset.card_range] at hcard

/-- All pairs of a chain but the last are in the store. -/
theorem Chain.dropLast_lt {s : Store} {v tail : Value} {cs : List Ref} (h : s.Chain v cs tail) :
    ∀ r ∈ cs.dropLast, r < s.pairs.size := by
  induction cs generalizing v with
  | nil => simp
  | cons r cs ih =>
      cases cs with
      | nil => simp
      | cons q cs =>
          rw [List.dropLast_cons_cons]
          exact List.forall_mem_cons.2 ⟨lt_size_of_cdr h.2.1, ih h.2⟩

theorem Chain.length_le {s : Store} {v tail : Value} {cs : List Ref} (h : s.Chain v cs tail) :
    cs.length ≤ s.pairs.size + 1 := by
  have hle := length_le_of_nodup (h.nodup.sublist (List.dropLast_sublist cs)) h.dropLast_lt
  rw [List.length_dropLast] at hle
  omega

/-! ### Proper lists -/

/-- The shape of a chain with the given tail. -/
def Shape.ofTail (tail : Value) : Shape := if tail.isNil then .proper else .dotted

theorem chase_chain {s : Store} {n : Nat} {fast slow tail : Value} {bs cs : List Ref}
    (hf : s.Chain fast bs tail) (hs : s.Chain slow cs tail) (hle : bs.length ≤ cs.length)
    (hn : bs.length < 2 * n) : s.chase n fast slow = some (Shape.ofTail tail) := by
  induction n generalizing fast slow bs cs with
  | zero => omega
  | succ n ih =>
      cases bs with
      | nil =>
          obtain ⟨rfl, hp⟩ := hf
          cases fast <;> first | rfl | simp [Value.isPair] at hp
      | cons a bs =>
          obtain ⟨rfl, hf⟩ := hf
          cases bs with
          | nil =>
              obtain ⟨ha, hp⟩ := hf
              simp only [chase, ha]
              cases tail <;> first | rfl | simp [Value.isPair] at hp
          | cons b bs =>
              cases cs with
              | nil => simp at hle
              | cons c cs =>
                  obtain ⟨ha, hf⟩ := hf
                  obtain ⟨rfl, hs⟩ := hs
                  simp only [List.length_cons] at hle hn
                  -- The first cursor is now nearer to the end than the second: they are apart.
                  have hne : samePair (s.cdr b) (s.cdr c) = false := by
                    rw [Bool.eq_false_iff]
                    intro hsame
                    have heq : s.cdr b = s.cdr c := by
                      cases hb : s.cdr b <;> cases hc : s.cdr c <;> simp_all [samePair]
                    have hlen := congrArg List.length ((heq ▸ hf).unique hs).1
                    omega
                  simp only [chase, ha, hne, Bool.false_eq_true, if_false]
                  exact ih hf hs (by omega) (by omega)

theorem chain_of_chase {s : Store} {n : Nat} {fast slow : Value}
    (h : s.chase n fast slow = some .proper) : ∃ cs, s.Chain fast cs .nil := by
  induction n generalizing fast slow with
  | zero => simp [chase] at h
  | succ n ih =>
      unfold chase at h
      split at h
      · exact ⟨[], rfl, rfl⟩
      · rename_i r
        split at h
        · rename_i hr
          exact ⟨[r], rfl, hr, rfl⟩
        · rename_i q hq
          split at h
          · simp only at h
            split at h
            · simp at h
            · obtain ⟨cs, hcs⟩ := ih h
              exact ⟨r :: q :: cs, rfl, hq, hcs⟩
          · simp at h
        · simp at h
      · simp at h

/-- The proper lists are the chains that end in the empty list. -/
theorem isList_iff {s : Store} {v : Value} : s.isList v = true ↔ ∃ cs, s.Chain v cs .nil := by
  rw [isList, shape?, beq_iff_eq]
  constructor
  · exact chain_of_chase
  · rintro ⟨cs, h⟩
    have hlen := h.length_le
    exact chase_chain h h (Nat.le_refl _) (by omega)

theorem isList_nil (s : Store) : s.isList .nil = true := isList_iff.2 ⟨[], rfl, rfl⟩

theorem isList_eq_false {s : Store} {v tail : Value} {cs : List Ref} (h : s.Chain v cs tail)
    (ht : tail ≠ .nil) : s.isList v = false := by
  rw [Bool.eq_false_iff]
  intro hl
  obtain ⟨ds, hd⟩ := isList_iff.1 hl
  exact ht (h.unique hd).2

/-! ### Cells and elements -/

theorem cellsWithin_eq {s : Store} {n : Nat} {v tail : Value} {cs : List Ref}
    (h : s.Chain v cs tail) (hn : cs.length ≤ n) : s.cellsWithin n v = cs := by
  induction n generalizing v cs with
  | zero =>
      obtain rfl : cs = [] := List.length_eq_zero_iff.1 (Nat.le_zero.1 hn)
      rfl
  | succ n ih =>
      cases cs with
      | nil =>
          obtain ⟨rfl, hp⟩ := h
          cases v <;> first | rfl | simp [Value.isPair] at hp
      | cons r cs =>
          obtain ⟨rfl, h⟩ := h
          rw [cellsWithin, ih h (by simpa using hn)]

/-- The chain of a proper list whose pairs are all in the store. -/
def ListAt (s : Store) (v : Value) (cs : List Ref) : Prop :=
  s.Chain v cs .nil ∧ ∀ r ∈ cs, r < s.pairs.size

theorem ListAt.isList {s : Store} {v : Value} {cs : List Ref} (h : s.ListAt v cs) :
    s.isList v = true := isList_iff.2 ⟨cs, h.1⟩

theorem ListAt.cells_eq {s : Store} {v : Value} {cs : List Ref} (h : s.ListAt v cs) :
    s.cells v = cs := cellsWithin_eq h.1 (length_le_of_nodup h.1.nodup h.2)

theorem ListAt.elements_eq {s : Store} {v : Value} {cs : List Ref} (h : s.ListAt v cs) :
    s.elements v = cs.map s.car := by rw [elements, h.cells_eq]

theorem ListAt.elements?_eq {s : Store} {v : Value} {cs : List Ref} (h : s.ListAt v cs) :
    s.elements? v = some (cs.map s.car) := by
  rw [elements?, if_pos h.isList, h.elements_eq]

theorem listAt_nil (s : Store) : s.ListAt .nil [] := ⟨⟨rfl, rfl⟩, by simp⟩

theorem ListAt.tail {s : Store} {v : Value} {r : Ref} {cs : List Ref} (h : s.ListAt v (r :: cs)) :
    s.ListAt (s.cdr r) cs := ⟨h.1.2, fun q hq => h.2 q (by simp [hq])⟩

theorem elements?_of_not_isList {s : Store} {v : Value} (h : s.isList v = false) :
    s.elements? v = none := by simp [elements?, h]

end LittleScheme.Store
