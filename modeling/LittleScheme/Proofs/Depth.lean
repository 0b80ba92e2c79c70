import LittleScheme.Proofs.Spine
import LittleScheme.Store.Printer
import Mathlib.Data.Fintype.Card
import Mathlib.Logic.Relation

/-!
# How deep values are nested

A value that is nested to any finite depth is nested at most as deep as there are pairs and vectors:
along a path of ever less nested parts no object comes twice. So the bound on the depth decides
whether a value contains itself, and the text of one that does not is independent of the bound.
-/
namespace LittleScheme

/-- Let `within n x` become true at some `n` and stay true. If everything that needs two steps or
more has a key below `N` that tells how many it needs, and leads to something that needs one step
less, then nothing needs more than `N + 1` steps. -/
theorem within_bound {α : Type} (within : Nat → α → Prop) (key : α → Nat) (N : Nat)
    (hmono : ∀ n x, within n x → within (n + 1) x)
    (hdown : ∀ n x, within (n + 2) x → ¬ within (n + 1) x → ∃ y, within (n + 1) y ∧ ¬ within n y)
    (hkey : ∀ n x, within (n + 2) x → ¬ within (n + 1) x → key x < N)
    (hinj : ∀ m n x y, within (m + 2) x → ¬ within (m + 1) x → within (n + 2) y →
      ¬ within (n + 1) y → key x = key y → m = n)
    {n : Nat} {x : α} (h : within n x) : within (N + 1) x := by
  have hmono' : ∀ m n x, m ≤ n → within m x → within n x := by
    intro m n x hle hm
    induction hle with
    | refl => exact hm
    | step _ ih => exact hmono _ _ ih
  by_contra hnot
  -- Something needs exactly `k + 1` steps, for every `k` up to `N + 1`.
  have hexact : ∃ m, N + 1 ≤ m ∧ within (m + 1) x ∧ ¬ within m x := by
    by_contra hno
    have hall : ∀ k, ¬ within (N + 1 + k) x := by
      intro k
      induction k with
      | zero => exact hnot
      | succ k ih => exact fun hk => hno ⟨N + 1 + k, by omega, hk, ih⟩
    exact hall n (hmono' n _ x (by omega) h)
  obtain ⟨m, hm, hx⟩ := hexact
  have hlevel : ∀ j, j ≤ m → ∃ y, within (m - j + 1) y ∧ ¬ within (m - j) y := by
    intro j hj
    induction j with
    | zero => exact ⟨x, hx⟩
    | succ j ih =>
        obtain ⟨y, hy, hny⟩ := ih (by omega)
        rw [show m - j = m - (j + 1) + 1 by omega] at hy hny
        exact hdown _ y hy hny
  have hlevel' : ∀ k : Fin (N + 1), ∃ y, within (k.val + 2) y ∧ ¬ within (k.val + 1) y := by
    intro k
    obtain ⟨y, hy⟩ := hlevel (m - (k.val + 1)) (by omega)
    rw [show m - (m - (k.val + 1)) = k.val + 1 by omega] at hy
    exact ⟨y, hy⟩
  choose y hy using hlevel'
  obtain ⟨a, -, b, -, hne, heq⟩ := Finset.exists_ne_map_eq_of_card_lt_of_maps_to
    (s := (Finset.univ : Finset (Fin (N + 1)))) (t := Finset.range N) (f := fun k => key (y k))
    (by simp) (fun k _ => Finset.mem_coe.2 (Finset.mem_range.2 (hkey _ _ (hy k).1 (hy k).2)))
  exact hne (Fin.ext (hinj _ _ _ _ (hy a).1 (hy a).2 (hy b).1 (hy b).2 heq))

namespace Store

/-- A number for every object that can be nested in others. References to nothing share one. -/
def nestingKey (s : Store) : Value → Nat
  | .pair r => if r < s.pairs.size then r else s.pairs.size + s.vectors.size
  | .vector r => if r < s.vectors.size then s.pairs.size + r else s.pairs.size + s.vectors.size
  | _ => s.pairs.size + s.vectors.size

theorem parts_of_size_le {s : Store} {r : Ref} (h : s.pairs.size ≤ r) :
    s.parts (.pair r) = [.nil] := by
  have hchain : s.Chain (.pair r) [r] .nil := ⟨rfl, cdr_of_size_le h, rfl⟩
  simp [parts, spine_chain hchain, car_of_size_le h, Ending.ofTail, Value.isNil]

theorem parts_vector_of_size_le {s : Store} {r : Ref} (h : s.vectors.size ≤ r) :
    s.parts (.vector r) = [] := by
  simp [parts, vector, Array.getD, Nat.not_lt.2 h]

/-- Objects with parts and the same key have the same parts. -/
theorem parts_eq_of_key {s : Store} {x y : Value} (hx : s.parts x ≠ []) (hy : s.parts y ≠ [])
    (h : s.nestingKey x = s.nestingKey y) : s.parts x = s.parts y := by
  cases x with
  | pair r =>
      cases y with
      | pair q =>
          simp only [nestingKey] at h
          split at h <;> split at h
          · rw [h]
          · lia
          · lia
          · rw [parts_of_size_le (by lia), parts_of_size_le (by lia)]
      | vector q =>
          have hq : q < s.vectors.size := by
            by_contra hq
            exact hy (parts_vector_of_size_le (Nat.not_lt.1 hq))
          simp only [nestingKey, if_pos hq] at h
          split at h <;> lia
      | _ => exact absurd rfl hy
  | vector r =>
      have hr : r < s.vectors.size := by
        by_contra hr
        exact hx (parts_vector_of_size_le (Nat.not_lt.1 hr))
      cases y with
      | pair q =>
          simp only [nestingKey, if_pos hr] at h
          split at h <;> lia
      | vector q =>
          have hq : q < s.vectors.size := by
            by_contra hq
            exact hy (parts_vector_of_size_le (Nat.not_lt.1 hq))
          simp only [nestingKey, if_pos hr, if_pos hq] at h
          rw [show r = q by lia]
      | _ => exact absurd rfl hy
  | _ => exact absurd rfl hx

theorem nestingKey_lt (s : Store) (v : Value) :
    s.nestingKey v < s.pairs.size + s.vectors.size + 1 := by
  cases v <;> simp only [nestingKey] <;> (try split) <;> lia

/-! ### Nesting -/

theorem nestedWithin_succ {s : Store} {n : Nat} {v : Value} :
    s.nestedWithin (n + 1) v = true ↔ ∀ p ∈ s.parts v, s.nestedWithin n p = true := by
  rw [nestedWithin, List.all_eq_true]

theorem nestedWithin_mono {s : Store} {n m : Nat} {v : Value} (hle : n ≤ m)
    (h : s.nestedWithin n v = true) : s.nestedWithin m v = true := by
  induction n generalizing m v with
  | zero => simp [nestedWithin] at h
  | succ n ih =>
      obtain ⟨m, rfl⟩ : ∃ k, m = k + 1 := ⟨m - 1, by omega⟩
      rw [nestedWithin_succ] at h ⊢
      exact fun p hp => ih (by omega) (h p hp)

theorem parts_ne_nil_of_deep {s : Store} {n : Nat} {v : Value}
    (h : ¬ s.nestedWithin (n + 1) v = true) : s.parts v ≠ [] := by
  intro hnil
  exact h (nestedWithin_succ.2 (by simp [hnil]))

/-- The bound on the depth suffices for every value that is nested to a finite depth. -/
theorem nestedWithin_limit {s : Store} {n : Nat} {v : Value} (h : s.nestedWithin n v = true) :
    s.nestedWithin s.depthLimit v = true := by
  refine within_bound (fun n v => s.nestedWithin n v = true) s.nestingKey
    (s.pairs.size + s.vectors.size + 1) ?_ ?_ ?_ ?_ h
  · exact fun n x hx => nestedWithin_mono (Nat.le_succ n) hx
  · intro n x hx hnx
    rw [nestedWithin_succ] at hx hnx
    push Not at hnx
    obtain ⟨y, hy, hny⟩ := hnx
    exact ⟨y, hx y hy, hny⟩
  · exact fun n x _ _ => nestingKey_lt s x
  · intro m n x y hx hnx hy hny hkey
    have hparts := parts_eq_of_key (parts_ne_nil_of_deep hnx) (parts_ne_nil_of_deep hny) hkey
    have hsame : ∀ k, s.nestedWithin k x = s.nestedWithin k y := by
      intro k
      cases k with
      | zero => rfl
      | succ k => rw [nestedWithin, nestedWithin, hparts]
    rw [hsame] at hx hnx
    have h₁ : ¬ m < n := fun hlt => hny (nestedWithin_mono (by omega) hx)
    have h₂ : ¬ n < m := fun hlt => hnx (nestedWithin_mono (by omega) hy)
    omega

/-! ### Mentions -/

theorem mentionsWithin_succ {s : Store} {target : Value} {n : Nat} {v : Value} :
    s.mentionsWithin target (n + 1) v = true ↔
      v.same target = true ∨ ∃ p ∈ s.parts v, s.mentionsWithin target n p = true := by
  rw [mentionsWithin, Bool.or_eq_true, List.any_eq_true]

theorem mentionsWithin_mono {s : Store} {target : Value} {n m : Nat} {v : Value} (hle : n ≤ m)
    (h : s.mentionsWithin target n v = true) : s.mentionsWithin target m v = true := by
  induction n generalizing m v with
  | zero => simp [mentionsWithin] at h
  | succ n ih =>
      obtain ⟨m, rfl⟩ : ∃ k, m = k + 1 := ⟨m - 1, by omega⟩
      rw [mentionsWithin_succ] at h ⊢
      refine h.imp_right ?_
      rintro ⟨p, hp, hm⟩
      exact ⟨p, hp, ih (by omega) hm⟩

/-- The bound on the depth suffices to come across every object there is to come across. -/
theorem mentionsWithin_limit {s : Store} {target : Value} {n : Nat} {v : Value}
    (h : s.mentionsWithin target n v = true) :
    s.mentionsWithin target s.depthLimit v = true := by
  have hdeep : ∀ n x, s.mentionsWithin target (n + 2) x = true →
      ¬ s.mentionsWithin target (n + 1) x = true →
      x.same target = false ∧ ∃ p ∈ s.parts x, s.mentionsWithin target (n + 1) p = true ∧
        ¬ s.mentionsWithin target n p = true := by
    intro n x hx hnx
    rw [mentionsWithin_succ] at hx hnx
    push Not at hnx
    obtain ⟨p, hp, hm⟩ := hx.resolve_left hnx.1
    exact ⟨by simpa using hnx.1, p, hp, hm, hnx.2 p hp⟩
  refine within_bound (fun n v => s.mentionsWithin target n v = true)
    s.nestingKey (s.pairs.size + s.vectors.size + 1) ?_ ?_ ?_ ?_ h
  · exact fun n x hx => mentionsWithin_mono (Nat.le_succ n) hx
  · intro n x hx hnx
    obtain ⟨-, p, -, hp⟩ := hdeep n x hx hnx
    exact ⟨p, hp⟩
  · exact fun n x _ _ => nestingKey_lt s x
  · intro m n x y hx hnx hy hny hkey
    obtain ⟨hxs, p, hp, -⟩ := hdeep m x hx hnx
    obtain ⟨hys, q, hq, -⟩ := hdeep n y hy hny
    have hparts := parts_eq_of_key (List.ne_nil_of_mem hp) (List.ne_nil_of_mem hq) hkey
    have hsame : ∀ k, s.mentionsWithin target k x = s.mentionsWithin target k y := by
      intro k
      cases k with
      | zero => rfl
      | succ k => rw [mentionsWithin, mentionsWithin, hparts, hxs, hys]
    rw [hsame] at hx hnx
    have h₁ : ¬ m < n := fun hlt => hny (mentionsWithin_mono (by omega) hx)
    have h₂ : ¬ n < m := fun hlt => hnx (mentionsWithin_mono (by omega) hy)
    omega

/-- Going from a value to its parts, and to theirs, comes to another value. -/
def Reaches (s : Store) : Value → Value → Prop := Relation.ReflTransGen fun v p => p ∈ s.parts v

/-- Writing a value comes across the objects that it reaches. -/
theorem mentions_iff {s : Store} {target v : Value}
    (htarget : ∀ w : Value, w.same target = true ↔ w = target) :
    s.mentions target v = true ↔ s.Reaches v target := by
  constructor
  · suffices hwithin : ∀ n, s.mentionsWithin target n v = true → s.Reaches v target from hwithin _
    intro n
    induction n generalizing v with
    | zero => simp [mentionsWithin]
    | succ n ih =>
        rw [mentionsWithin_succ]
        rintro (hsame | ⟨p, hp, hm⟩)
        · rw [(htarget v).1 hsame]
          exact .refl
        · exact .head hp (ih hm)
  · intro hreach
    obtain ⟨n, hn⟩ : ∃ n, s.mentionsWithin target n v = true := by
      induction hreach using Relation.ReflTransGen.head_induction_on with
      | refl => exact ⟨1, mentionsWithin_succ.2 (.inl ((htarget target).2 rfl))⟩
      | head hp _ ih =>
          obtain ⟨n, hn⟩ := ih
          exact ⟨n + 1, mentionsWithin_succ.2 (.inr ⟨_, hp, hn⟩)⟩
    exact mentionsWithin_limit hn

/-! ### Texts -/

/-- The text of a value that is nested at most so deep does not depend on the bound. -/
theorem textWithin_eq {s : Store} {style : Text.Style} {n m : Nat} {v : Value}
    (h : s.nestedWithin n v = true) (hle : n ≤ m) :
    s.textWithin style m v = s.textWithin style n v := by
  induction n generalizing m v with
  | zero => simp [nestedWithin] at h
  | succ n ih =>
      obtain ⟨m, rfl⟩ : ∃ k, m = k + 1 := ⟨m - 1, by omega⟩
      rw [nestedWithin_succ] at h
      have hparts : ∀ p ∈ s.parts v, s.textWithin style m p = s.textWithin style n p :=
        fun p hp => ih (h p hp) (by omega)
      cases v with
      | pair r =>
          cases hr : s.spine r with
          | mk items ending =>
              cases ending with
              | dotted tail =>
                  simp only [parts, hr, List.mem_append, List.mem_singleton] at hparts
                  simp only [textWithin, hr, hparts tail (.inr rfl)]
                  rw [List.map_congr_left fun p hp => hparts p (.inl hp)]
              | _ =>
                  simp only [parts, hr] at hparts
                  simp only [textWithin, hr]
                  rw [List.map_congr_left hparts]
      | vector r =>
          simp only [parts] at hparts
          simp only [textWithin]
          rw [List.map_congr_left hparts]
      | _ => rfl

/-- A bound that suffices gives the text of a value. -/
theorem text_eq {s : Store} {style : Text.Style} {n : Nat} {v : Value}
    (h : s.nestedWithin n v = true) : s.text style v = s.textWithin style n v := by
  rw [text, if_pos (nestedWithin_limit h)]
  rcases Nat.le_total n s.depthLimit with hle | hle
  · exact textWithin_eq h hle
  · exact (textWithin_eq (nestedWithin_limit h) hle).symm

end Store
end LittleScheme
