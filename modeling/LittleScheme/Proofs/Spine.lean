import LittleScheme.Proofs.Chain

/-!
# Spines

What is written of a chain. A chain that ends is written whole. On a circular chain the cursor that
follows at half speed is met within two rounds, so the bound of `spine` is never what ends it.
-/
namespace LittleScheme.Store

/-- How a chain with the given tail is written to its end. -/
def Ending.ofTail (tail : Value) : Ending := if tail.isNil then .proper else .dotted tail

/-! ### Chains that end -/

theorem spineWithin_chain {s : Store} {n : Nat} {rest tail : Value} {behind : Ref}
    {advance : Bool} {cs ds : List Ref} (h : s.Chain rest cs tail)
    (hb : s.Chain (.pair behind) ds tail) (hlt : cs.length < ds.length) (hn : cs.length < n) :
    s.spineWithin n rest behind advance = (cs.map s.car, Ending.ofTail tail) := by
  induction n generalizing rest behind advance cs ds with
  | zero => omega
  | succ n ih =>
      cases cs with
      | nil =>
          obtain ⟨rfl, hp⟩ := h
          cases rest <;> first | rfl | simp [Value.isPair] at hp
      | cons r cs =>
          obtain ⟨rfl, h⟩ := h
          cases ds with
          | nil => simp at hlt
          | cons b ds =>
              obtain ⟨he, hb⟩ := hb
              cases he
              simp only [List.length_cons] at hlt hn
              have hne : (r == behind) = false := by
                rw [beq_eq_false_iff_ne]
                rintro rfl
                have := congrArg List.length (h.unique hb).1
                omega
              cases ds with
              | nil => simp at hlt
              | cons q ds =>
                  have hq : s.cdr behind = .pair q := hb.1
                  simp only [spineWithin, hne, Bool.false_eq_true, if_false, trail, hq]
                  simp only [List.length_cons] at hlt
                  cases advance
                  · have hb' : s.Chain (.pair behind) (behind :: q :: ds) tail := ⟨rfl, hb⟩
                    simp only [Bool.false_eq_true, if_false]
                    rw [ih h hb' (by simp only [List.length_cons]; omega) (by omega)]
                    rfl
                  · have hb' : s.Chain (.pair q) (q :: ds) tail := ⟨rfl, hb.2⟩
                    simp only [if_true]
                    rw [ih h hb' (by simp only [List.length_cons]; omega) (by omega)]
                    rfl

/-- A chain that ends is written to its end. -/
theorem spine_chain {s : Store} {r : Ref} {cs : List Ref} {tail : Value}
    (h : s.Chain (.pair r) (r :: cs) tail) :
    s.spine r = (s.car r :: cs.map s.car, Ending.ofTail tail) := by
  have hlen := h.length_le
  simp only [List.length_cons] at hlen
  rw [spine, spineWithin_chain h.2 h (by simp) (by omega)]

/-! ### The bound -/

/-- The walk of `spineWithin` comes to an end within the bound. -/
def SpineEnds (s : Store) : Nat → Value → Ref → Bool → Prop
  | 0, _, _, _ => False
  | n + 1, .pair r, behind, advance =>
      r = behind ∨ s.SpineEnds n (s.cdr r) (s.trail behind advance) (!advance)
  | _ + 1, _, _, _ => True

theorem spineWithin_of_ends {s : Store} {n m : Nat} {rest : Value} {behind : Ref} {advance : Bool}
    (h : s.SpineEnds n rest behind advance) (hle : n ≤ m) :
    s.spineWithin m rest behind advance = s.spineWithin n rest behind advance := by
  induction n generalizing m rest behind advance with
  | zero => exact h.elim
  | succ n ih =>
      obtain ⟨m, rfl⟩ : ∃ k, m = k + 1 := ⟨m - 1, by omega⟩
      cases rest with
      | pair r =>
          rw [spineWithin, spineWithin]
          by_cases hr : r = behind
          · simp [hr]
          · have h' := h.resolve_left hr
            simp only [beq_iff_eq, hr, if_false]
            rw [ih h' (by omega)]
      | _ => rfl

theorem spineEnds_chain {s : Store} {n : Nat} {rest tail : Value} {behind : Ref} {advance : Bool}
    {cs : List Ref} (h : s.Chain rest cs tail) (hn : cs.length < n) :
    s.SpineEnds n rest behind advance := by
  induction n generalizing rest behind advance cs with
  | zero => omega
  | succ n ih =>
      cases cs with
      | nil =>
          obtain ⟨rfl, hp⟩ := h
          cases rest <;> trivial
      | cons r cs =>
          obtain ⟨rfl, h⟩ := h
          exact .inr (ih h (by simpa using hn))

/-- The value after some steps along a chain. -/
def follow (s : Store) : Nat → Value → Value
  | n + 1, .pair r => s.follow n (s.cdr r)
  | _, v => v

theorem chain_or_follow (s : Store) (n : Nat) (v : Value) :
    (∃ cs tail, s.Chain v cs tail) ∨ ∃ r, s.follow n v = .pair r := by
  induction n generalizing v with
  | zero =>
      cases v with
      | pair r => exact .inr ⟨r, rfl⟩
      | _ => exact .inl ⟨[], _, rfl, rfl⟩
  | succ n ih =>
      cases v with
      | pair r =>
          refine (ih (s.cdr r)).imp ?_ id
          rintro ⟨cs, tail, h⟩
          exact ⟨r :: cs, tail, rfl, h⟩
      | _ => exact .inl ⟨[], _, rfl, rfl⟩

theorem follow_succ {s : Store} {n : Nat} {v : Value} {r : Ref} (h : s.follow n v = .pair r) :
    s.follow (n + 1) v = s.cdr r := by
  induction n generalizing v with
  | zero =>
      rw [show v = .pair r from h]
      rfl
  | succ n ih =>
      cases v with
      | pair q => exact ih h
      | _ => cases h

section Circle

variable {s : Store} {c : Nat → Ref} (hc : ∀ i, s.cdr (c i) = .pair (c (i + 1)))
include hc

/-- The cursor that follows moves at every other step. -/
theorem circle_trail (k : Nat) : s.trail (c (k / 2)) (k % 2 == 1) = c ((k + 1) / 2) := by
  rcases Nat.mod_two_eq_zero_or_one k with hpar | hpar
  · have hhalf : (k + 1) / 2 = k / 2 := by omega
    simp [hpar, hhalf, trail]
  · have hhalf : (k + 1) / 2 = k / 2 + 1 := by omega
    simp [hpar, hhalf, trail, hc (k / 2)]

omit hc in
theorem not_odd (k : Nat) : (!(k % 2 == 1)) = ((k + 1) % 2 == 1) := by
  rcases Nat.mod_two_eq_zero_or_one k with hpar | hpar
  · simp [hpar, show (k + 1) % 2 = 1 by omega]
  · simp [hpar, show (k + 1) % 2 = 0 by omega]

theorem circle_meets {k m n : Nat} (hk : k ≤ m) (hm : m < k + n) (hmeet : c (m + 1) = c (m / 2)) :
    s.SpineEnds n (.pair (c (k + 1))) (c (k / 2)) (k % 2 == 1) := by
  induction n generalizing k with
  | zero => omega
  | succ n ih =>
      by_cases hkm : k = m
      · subst hkm
        exact .inl hmeet
      · refine .inr ?_
        rw [hc (k + 1), circle_trail hc, not_odd]
        exact ih (k := k + 1) (by omega) (by omega)

theorem circle_period {i j : Nat} (hij : c i = c j) (t : Nat) : c (i + t) = c (j + t) := by
  induction t with
  | zero => exact hij
  | succ t ih =>
      have h : Value.pair (c (i + t + 1)) = Value.pair (c (j + t + 1)) := by
        rw [← hc, ← hc, ih]
      exact Value.pair.inj h

theorem circle_rounds {i d : Nat} (hd : c i = c (i + d)) (q t : Nat) :
    c (i + t) = c (i + t + d * q) := by
  induction q with
  | zero => simp
  | succ q ih =>
      rw [ih]
      have h := circle_period hc hd (t + d * q)
      rw [show i + t + d * q = i + (t + d * q) by omega, h]
      congr 1
      rw [Nat.mul_succ]
      omega

/-- Some number of steps, no more than there are pairs, is a whole number of rounds and leads into the
circle. -/
theorem exists_rounds : ∃ m, 0 < m ∧ m ≤ s.pairs.size ∧ ∀ j, m ≤ j + 1 → c j = c (j + m) := by
  have hlt : ∀ i, c i < s.pairs.size := fun i => lt_size_of_cdr (hc i)
  obtain ⟨i, hi, j, hj, hne, heq⟩ := Finset.exists_ne_map_eq_of_card_lt_of_maps_to
    (s := Finset.range (s.pairs.size + 1)) (t := Finset.range s.pairs.size) (f := c)
    (by simp) (fun i _ => Finset.mem_coe.2 (Finset.mem_range.2 (hlt i)))
  rw [Finset.mem_range] at hi hj
  -- Some pair comes again after `d` steps, for the first time within the bound.
  obtain ⟨i, d, hd, hle, hround⟩ : ∃ i d, 0 < d ∧ i + d ≤ s.pairs.size ∧ c i = c (i + d) := by
    rcases Nat.lt_or_gt_of_ne hne with h | h
    · exact ⟨i, j - i, by omega, by omega, by rw [show i + (j - i) = j by omega]; exact heq⟩
    · exact ⟨j, i - j, by omega, by omega, by rw [show j + (i - j) = i by omega]; exact heq.symm⟩
  have hmul : d * (i / d + 1) = d * (i / d) + d := Nat.mul_succ d (i / d)
  have hdiv := Nat.div_add_mod i d
  have hmod := Nat.mod_lt i hd
  refine ⟨d * (i / d + 1), by omega, by omega, fun j hj => ?_⟩
  have h := circle_rounds hc hround (i / d + 1) (j - i)
  rwa [show i + (j - i) = j by omega] at h

/-- The two cursors meet before the first has gone round twice. -/
theorem circle_spineEnds : s.SpineEnds (2 * s.pairs.size + 2) (.pair (c 1)) (c 0) false := by
  obtain ⟨m, hm, hle, hround⟩ := exists_rounds hc
  have hmeet : c (2 * (m - 1) + 1) = c (2 * (m - 1) / 2) := by
    rw [show 2 * (m - 1) / 2 = m - 1 by omega, hround (m - 1) (by omega)]
    congr 1
    omega
  exact circle_meets hc (k := 0) (m := 2 * (m - 1)) (by omega) (by omega) hmeet

end Circle

/-- A chain ends or goes on for ever. -/
theorem chain_or_circle (s : Store) (v : Value) :
    (∃ cs tail, s.Chain v cs tail) ∨
      ∃ c : Nat → Ref, (∀ i, s.follow i v = .pair (c i)) ∧ ∀ i, s.cdr (c i) = .pair (c (i + 1)) := by
  by_cases hfin : ∃ cs tail, s.Chain v cs tail
  · exact .inl hfin
  · have hpair : ∀ n, ∃ q, s.follow n v = .pair q := fun n =>
      (chain_or_follow s n v).resolve_left hfin
    choose c hc using hpair
    refine .inr ⟨c, hc, fun i => ?_⟩
    rw [← hc (i + 1), follow_succ (hc i)]

/-- The bound of `spine` suffices, for chains of all kinds. -/
theorem spine_ends (s : Store) (r : Ref) :
    s.SpineEnds (2 * s.pairs.size + 2) (s.cdr r) r false := by
  rcases chain_or_circle s (.pair r) with ⟨cs, tail, h⟩ | ⟨c, hc, hstep⟩
  · cases cs with
    | nil =>
        obtain ⟨rfl, hp⟩ := h
        simp [Value.isPair] at hp
    | cons q cs =>
        obtain ⟨he, h⟩ := h
        cases he
        have hlen := h.length_le
        exact spineEnds_chain h (by omega)
  · obtain rfl : r = c 0 := Value.pair.inj (hc 0)
    rw [hstep 0]
    exact circle_spineEnds hstep

theorem spine_eq {s : Store} {n : Nat} (hn : 2 * s.pairs.size + 2 ≤ n) (r : Ref) :
    s.spine r = (s.car r :: (s.spineWithin n (s.cdr r) r false).1,
      (s.spineWithin n (s.cdr r) r false).2) := by
  rw [spineWithin_of_ends (spine_ends s r) hn]
  rfl

end LittleScheme.Store
