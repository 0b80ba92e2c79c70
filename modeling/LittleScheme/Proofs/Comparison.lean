import LittleScheme.Proofs.Views
import LittleScheme.Store.Equality

/-!
# Comparisons end

A comparison that succeeds within any number of steps succeeds within as many as there are pairs of
objects: along a path of ever shorter comparisons no two objects are compared twice. So the answer
does not depend on the bound, and similar stores give the same answer.
-/
namespace LittleScheme
namespace Store

/-- Two vectors of the same length, element by element. -/
theorem equalWithin_vector {s : Store} {n : Nat} {a b : Ref} :
    s.equalWithin (n + 1) (.vector a) (.vector b) = true ↔
      (s.vector a).toList.length = (s.vector b).toList.length ∧
        ∀ p ∈ (s.vector a).toList.zip (s.vector b).toList, s.equalWithin n p.1 p.2 = true := by
  simp [equalWithin]

theorem equalWithin_pair {s : Store} {n : Nat} {a b : Ref} :
    s.equalWithin (n + 1) (.pair a) (.pair b) = true ↔
      a = b ∨ (s.equalWithin n (s.car a) (s.car b) = true ∧
        s.equalWithin n (s.cdr a) (s.cdr b) = true) := by
  simp [equalWithin]

theorem equalWithin_mono {s : Store} {n m : Nat} {v w : Value} (hle : n ≤ m)
    (h : s.equalWithin n v w = true) : s.equalWithin m v w = true := by
  induction n generalizing m v w with
  | zero => simp [equalWithin] at h
  | succ n ih =>
      obtain ⟨m, rfl⟩ : ∃ k, m = k + 1 := ⟨m - 1, by omega⟩
      have hnm : n ≤ m := by omega
      cases v with
      | pair a =>
          cases w with
          | pair b =>
              rw [equalWithin_pair] at h ⊢
              exact h.imp_right fun ⟨hcar, hcdr⟩ => ⟨ih hnm hcar, ih hnm hcdr⟩
          | _ => exact h
      | vector a =>
          cases w with
          | vector b =>
              rw [equalWithin_vector] at h ⊢
              exact ⟨h.1, fun p hp => ih hnm (h.2 p hp)⟩
          | _ => exact h
      | _ => cases w <;> exact h

/-- A comparison that takes more than one step is one of two pairs or of two vectors, and some part
takes one step less. -/
theorem equalWithin_deep {s : Store} {n : Nat} {v w : Value}
    (h : s.equalWithin (n + 2) v w = true) (hn : ¬ s.equalWithin (n + 1) v w = true) :
    (∃ a b, v = .pair a ∧ w = .pair b ∧ a ≠ b ∨
      v = .vector a ∧ w = .vector b ∧ a < s.vectors.size ∧ b < s.vectors.size) ∧
    ∃ v' w', s.equalWithin (n + 1) v' w' = true ∧ ¬ s.equalWithin n v' w' = true := by
  cases v with
  | pair a =>
      cases w with
      | pair b =>
          rw [equalWithin_pair] at h hn
          push Not at hn
          obtain ⟨hne, hn⟩ := hn
          obtain ⟨hcar, hcdr⟩ := h.resolve_left hne
          refine ⟨⟨a, b, .inl ⟨rfl, rfl, hne⟩⟩, ?_⟩
          by_cases hc : s.equalWithin n (s.car a) (s.car b) = true
          · exact ⟨_, _, hcdr, hn hc⟩
          · exact ⟨_, _, hcar, hc⟩
      | _ => exact absurd h hn
  | vector a =>
      cases w with
      | vector b =>
          rw [equalWithin_vector] at h hn
          push Not at hn
          obtain ⟨p, hp, hnp⟩ := hn h.1
          have hmem := List.of_mem_zip hp
          have hlt : ∀ {r : Ref} {x : Value}, x ∈ (s.vector r).toList → r < s.vectors.size := by
            intro r x hx
            by_contra hr
            simp [vector, Array.getD, hr] at hx
          exact ⟨⟨a, b, .inr ⟨rfl, rfl, hlt hmem.1, hlt hmem.2⟩⟩, p.1, p.2, h.2 p hp, hnp⟩
      | _ => exact absurd h hn
  | _ => cases w <;> exact absurd h hn

/-- A number for the two objects of a comparison. -/
def comparisonKey (s : Store) (p : Value × Value) : Nat :=
  (s.pairs.size + s.vectors.size + 1) * s.nestingKey p.1 + s.nestingKey p.2

theorem comparisonKey_lt (s : Store) (p : Value × Value) :
    s.comparisonKey p <
      (s.pairs.size + s.vectors.size + 1) * (s.pairs.size + s.vectors.size + 1) :=
  calc s.comparisonKey p
      < (s.pairs.size + s.vectors.size + 1) * (s.nestingKey p.1 + 1) := by
        rw [Nat.mul_succ]
        exact Nat.add_lt_add_left (nestingKey_lt s p.2) _
    _ ≤ _ := Nat.mul_le_mul_left _ (nestingKey_lt s p.1)

theorem nestingKey_eq_of_comparisonKey {s : Store} {p q : Value × Value}
    (h : s.comparisonKey p = s.comparisonKey q) :
    s.nestingKey p.1 = s.nestingKey q.1 ∧ s.nestingKey p.2 = s.nestingKey q.2 := by
  have hp := nestingKey_lt s p.2
  have hq := nestingKey_lt s q.2
  have hdiv := congrArg (· / (s.pairs.size + s.vectors.size + 1)) h
  have hmod := congrArg (· % (s.pairs.size + s.vectors.size + 1)) h
  simp only [comparisonKey, Nat.mul_add_div (Nat.succ_pos _), Nat.div_eq_of_lt hp,
    Nat.div_eq_of_lt hq, Nat.add_zero] at hdiv
  simp only [comparisonKey, Nat.mul_add_mod, Nat.mod_eq_of_lt hp, Nat.mod_eq_of_lt hq] at hmod
  exact ⟨hdiv, hmod⟩

theorem pair_eq_of_nestingKey {s : Store} {a b : Ref}
    (h : s.nestingKey (.pair a) = s.nestingKey (.pair b)) : s.pair a = s.pair b := by
  simp only [nestingKey] at h
  split at h <;> split at h
  · rw [h]
  · lia
  · lia
  · rename_i ha hb
    simp [pair, Array.getD, ha, hb]

/-- Deep comparisons with the same key go the same way. -/
theorem equalWithin_eq_of_key {s : Store} {m n : Nat} {p q : Value × Value}
    (hp : s.equalWithin (m + 2) p.1 p.2 = true) (hnp : ¬ s.equalWithin (m + 1) p.1 p.2 = true)
    (hq : s.equalWithin (n + 2) q.1 q.2 = true) (hnq : ¬ s.equalWithin (n + 1) q.1 q.2 = true)
    (hkey : s.comparisonKey p = s.comparisonKey q) (k : Nat) :
    s.equalWithin k p.1 p.2 = s.equalWithin k q.1 q.2 := by
  obtain ⟨h₁, h₂⟩ := nestingKey_eq_of_comparisonKey hkey
  obtain ⟨⟨a, b, hab⟩, -⟩ := equalWithin_deep hp hnp
  obtain ⟨⟨c, d, hcd⟩, -⟩ := equalWithin_deep hq hnq
  cases k with
  | zero => rfl
  | succ k =>
      rcases hab with ⟨ha, hb, hne⟩ | ⟨ha, hb, hla, hlb⟩ <;>
      rcases hcd with ⟨hc, hd, hne'⟩ | ⟨hc, hd, hlc, hld⟩ <;>
      rw [ha, hc] at h₁ <;> rw [hb, hd] at h₂ <;> rw [ha, hb, hc, hd]
      · have h₃ := pair_eq_of_nestingKey h₁
        have h₄ := pair_eq_of_nestingKey h₂
        rw [Bool.eq_iff_iff, equalWithin_pair, equalWithin_pair, car, car, cdr, cdr, h₃, h₄]
        simp [hne, hne', car, cdr]
      · simp only [nestingKey, if_pos hlc] at h₁
        split at h₁ <;> lia
      · simp only [nestingKey, if_pos hla] at h₁
        split at h₁ <;> lia
      · simp only [nestingKey, if_pos hla, if_pos hlc] at h₁
        simp only [nestingKey, if_pos hlb, if_pos hld] at h₂
        rw [show a = c by lia, show b = d by lia]

/-- The bound on a comparison suffices for every comparison that succeeds. -/
theorem equalWithin_limit {s : Store} {n : Nat} {v w : Value}
    (h : s.equalWithin n v w = true) : s.equalWithin s.comparisonLimit v w = true := by
  refine within_bound (fun n p => s.equalWithin n p.1 p.2 = true) s.comparisonKey
    ((s.pairs.size + s.vectors.size + 1) * (s.pairs.size + s.vectors.size + 1)) ?_ ?_ ?_ ?_
    (x := (v, w)) h
  · exact fun n p hp => equalWithin_mono (Nat.le_succ n) hp
  · intro n p hp hnp
    obtain ⟨-, v', w', h', hn'⟩ := equalWithin_deep hp hnp
    exact ⟨(v', w'), h', hn'⟩
  · exact fun n p _ _ => comparisonKey_lt s p
  · intro m n p q hp hnp hq hnq hkey
    have hsame := equalWithin_eq_of_key hp hnp hq hnq hkey
    rw [hsame] at hp hnp
    have h₁ : ¬ m < n := fun hlt => hnq (equalWithin_mono (by omega) hp)
    have h₂ : ¬ n < m := fun hlt => hnp (equalWithin_mono (by omega) hq)
    omega

end Store

namespace Similar

open Value (Related)

variable {ρ : Renaming} {s t : Store}

theorem equalWithin (h : Similar ρ s t) (n : Nat) {v v' w w' : Value} (hv : Related ρ v w)
    (hv' : Related ρ v' w') : s.equalWithin n v v' = t.equalWithin n w w' := by
  induction n generalizing v v' w w' with
  | zero => rfl
  | succ n ih =>
      cases hv with
      | pair hr =>
          cases hv' with
          | pair hr' =>
              simp only [Store.equalWithin, h.beq_eq hr hr', ih (h.car hr) (h.car hr'),
                ih (h.cdr hr) (h.cdr hr')]
          | _ => rfl
      | vector hr =>
          cases hv' with
          | vector hr' =>
              have hitems := h.vector hr
              have hitems' := h.vector hr'
              simp only [Store.equalWithin, hitems.length_eq, hitems'.length_eq]
              congr 1
              exact all_eq (forall₂_zip hitems hitems') fun _ _ hp => ih hp.1 hp.2
          | _ => rfl
      | string hr =>
          cases hv' with
          | string hr' => simp only [Store.equalWithin, h.string hr, h.string hr']
          | _ => rfl
      | bytes hr =>
          cases hv' with
          | bytes hr' => simp only [Store.equalWithin, h.bytes hr, h.bytes hr']
          | _ => rfl
      | closure hr | port hr =>
          cases hv' <;> first | rfl | exact h.beq_eq ‹_› ‹_›
      | number x => cases x <;> cases hv' <;> rfl
      | _ => cases hv' <;> rfl

theorem equal (h : Similar ρ s t) {v v' w w' : Value} (hv : Related ρ v w)
    (hv' : Related ρ v' w') : s.equal v v' = t.equal w w' := by
  rw [Bool.eq_iff_iff, Store.equal, Store.equal]
  constructor
  · intro he
    rw [h.equalWithin _ hv hv'] at he
    exact Store.equalWithin_limit he
  · intro he
    rw [← h.equalWithin _ hv hv'] at he
    exact Store.equalWithin_limit he

end Similar
end LittleScheme
