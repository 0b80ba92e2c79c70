import LittleScheme.Proofs.Spine

/-!
# The shape of a chain

A chain ends in the empty list, ends in another value, or goes round. The walk with two cursors tells
the three apart on every store: the first cursor runs into the end if there is one, and otherwise the
cursors meet after a whole number of rounds. The second cursor stays behind the first, where there are
pairs only.
-/
namespace LittleScheme.Store

/-! ### Steps along a chain -/

theorem follow_add (s : Store) (m n : Nat) (v : Value) :
    s.follow (m + n) v = s.follow n (s.follow m v) := by
  induction m generalizing v with
  | zero => simp [follow]
  | succ m ih =>
      rw [Nat.add_right_comm]
      cases v with
      | pair r => exact ih (s.cdr r)
      | _ => cases n <;> rfl

theorem follow_of_not_pair {s : Store} {v : Value} (h : v.isPair = false) (n : Nat) :
    s.follow n v = v := by
  cases n with
  | zero => rfl
  | succ n => cases v <;> first | rfl | simp [Value.isPair] at h

/-- Up to a pair of a chain there are pairs only. -/
theorem isPair_follow_of_le {s : Store} {m n : Nat} {v : Value} (hle : m ≤ n)
    (h : (s.follow n v).isPair = true) : (s.follow m v).isPair = true := by
  by_contra hm
  rw [Bool.not_eq_true] at hm
  obtain ⟨k, rfl⟩ := Nat.exists_eq_add_of_le hle
  rw [follow_add, follow_of_not_pair hm, hm] at h
  cases h

theorem Chain.follow_length {s : Store} {v tail : Value} {cs : List Ref} (h : s.Chain v cs tail) :
    s.follow cs.length v = tail := by
  induction cs generalizing v with
  | nil => exact h.1
  | cons r cs ih =>
      obtain ⟨rfl, h⟩ := h
      exact ih h

/-- The chains that end are those on which some number of steps leads to a value that is no pair. -/
theorem exists_chain_iff {s : Store} {v tail : Value} :
    (∃ cs, s.Chain v cs tail) ↔ tail.isPair = false ∧ ∃ n, s.follow n v = tail := by
  constructor
  · rintro ⟨cs, h⟩
    exact ⟨h.isPair_tail, cs.length, h.follow_length⟩
  · rintro ⟨ht, n, h⟩
    induction n generalizing v with
    | zero => exact ⟨[], h, ht⟩
    | succ n ih =>
        cases v with
        | pair r =>
            obtain ⟨cs, hcs⟩ := ih h
            exact ⟨r :: cs, rfl, hcs⟩
        | _ => exact ⟨[], h, ht⟩

/-- A chain on which a pair comes again goes on for ever. -/
theorem isPair_follow_of_again {s : Store} {v : Value} {k d : Nat} {r : Ref} (hd : 0 < d)
    (hk : s.follow k v = .pair r) (hagain : s.follow (k + d) v = .pair r) (n : Nat) :
    (s.follow n v).isPair = true := by
  have hround : ∀ i, s.follow (k + d * i) v = .pair r := by
    intro i
    induction i with
    | zero => exact hk
    | succ i ih =>
        calc s.follow (k + d * (i + 1)) v
            = s.follow d (s.follow (k + d * i) v) := by
              rw [Nat.mul_succ, ← Nat.add_assoc, follow_add]
          _ = s.follow (k + d) v := by rw [ih, ← hk, ← follow_add]
          _ = .pair r := hagain
  have hle : n ≤ k + d * n := by
    have := Nat.le_mul_of_pos_left n hd
    omega
  exact isPair_follow_of_le hle (by rw [hround]; rfl)

/-! ### The walk with two cursors -/

/-- The cursors of `chase` after some rounds of its walk from a value, at which it has neither come to
the end of the chain nor found the cursors on one pair. -/
inductive Cursors (s : Store) (v : Value) : Nat → Value → Value → Prop
  | start : Cursors s v 0 v v
  | round {n : Nat} {r q p : Ref} (h : Cursors s v n (.pair r) (.pair p)) (hr : s.cdr r = .pair q)
      (hapart : samePair (s.cdr q) (s.cdr p) = false) : Cursors s v (n + 1) (s.cdr q) (s.cdr p)

namespace Cursors

variable {s : Store} {v fast slow : Value} {n : Nat}

/-- The walk goes on from its cursors. -/
theorem chase_eq (h : s.Cursors v n fast slow) (m : Nat) :
    s.chase (n + m) v v = s.chase m fast slow := by
  induction h generalizing m with
  | start => rw [Nat.zero_add]
  | round h hr hapart ih =>
      rw [Nat.add_assoc, Nat.add_comm 1 m, ih]
      simp only [chase, hr, hapart, Bool.false_eq_true, if_false]

theorem eq_follow (h : s.Cursors v n fast slow) :
    fast = s.follow (2 * n) v ∧ slow = s.follow n v := by
  induction h with
  | start => exact ⟨rfl, rfl⟩
  | @round n r q p h hr _ ih =>
      obtain ⟨hfast, hslow⟩ := ih
      constructor
      · rw [Nat.mul_succ, follow_add, ← hfast, follow, hr]
        rfl
      · exact (follow_succ hslow.symm).symm

/-- The second cursor is where the first has passed. -/
theorem isPair_slow (h : s.Cursors v n fast slow) (hfast : fast.isPair = true) :
    slow.isPair = true := by
  obtain ⟨rfl, rfl⟩ := h.eq_follow
  exact isPair_follow_of_le (by omega) hfast

end Cursors

/-- The cursors meet at the latest when a whole number of rounds lies between them. -/
theorem chase_circle {s : Store} {c : Nat → Ref} (hc : ∀ i, s.cdr (c i) = .pair (c (i + 1)))
    {k m n : Nat} (hk : k < m) (hm : m ≤ k + n) (hmeet : c (2 * m) = c m) :
    s.chase n (.pair (c (2 * k))) (.pair (c k)) = some .circular := by
  induction n generalizing k with
  | zero => omega
  | succ n ih =>
      simp only [chase, hc]
      by_cases hsame : c (2 * k + 1 + 1) = c (k + 1)
      · simp [samePair, hsame]
      · have hne : k + 1 ≠ m := by
          rintro rfl
          exact hsame hmeet
        simp only [samePair, beq_iff_eq, hsame, if_false]
        exact ih (k := k + 1) (by omega) (by omega)

/-- The bound of `shape?` suffices for a chain of each kind. -/
theorem chase_eq_some {s : Store} {v : Value} {n : Nat} (hn : s.pairs.size < n) :
    (∀ cs tail, s.Chain v cs tail → s.chase n v v = some (Shape.ofTail tail)) ∧
      ((∀ i, (s.follow i v).isPair = true) → s.chase n v v = some .circular) := by
  constructor
  · intro cs tail h
    have hlen := h.length_le
    exact chase_chain h h (Nat.le_refl _) (by omega)
  · intro hpair
    rcases chain_or_circle s v with ⟨cs, tail, h⟩ | ⟨c, hfollow, hc⟩
    · have hend := hpair cs.length
      rw [h.follow_length, h.isPair_tail] at hend
      cases hend
    · obtain rfl : v = .pair (c 0) := hfollow 0
      obtain ⟨m, hm, hle, hround⟩ := exists_rounds hc
      have hmeet : c (2 * m) = c m := by rw [hround m (by omega), Nat.two_mul]
      exact chase_circle hc (k := 0) hm (by omega) hmeet

theorem Shape.ofTail_eq_dotted {tail : Value} (h : tail ≠ .nil) : Shape.ofTail tail = .dotted := by
  cases tail <;> first | rfl | exact absurd rfl h

/-- On every store the walk with two cursors comes to an answer, which no larger bound changes, and
`isList` says whether steps along the chain lead to the empty list. The answer is no when the chain
ends in another value and when it is circular, whatever the length of the way into the circle and of
the circle itself. Whenever the first cursor has made its two steps, the second is at a pair. -/
theorem isList_exact (s : Store) (v : Value) :
    (∃ shape, ∀ n, s.pairs.size < n → s.chase n v v = some shape) ∧
    (s.isList v = true ↔ ∃ n, s.follow n v = .nil) ∧
    (∀ n tail, s.follow n v = tail → tail.isPair = false → tail ≠ .nil →
      s.shape? v = some .dotted ∧ s.isList v = false) ∧
    (∀ lead round r, 0 < round → s.follow lead v = .pair r → s.follow (lead + round) v = .pair r →
      s.shape? v = some .circular ∧ s.isList v = false) ∧
    ∀ n fast slow, s.Cursors v n fast slow →
      (∀ m, s.chase (n + m) v v = s.chase m fast slow) ∧
      ∀ r q, fast = .pair r → s.cdr r = .pair q → slow.isPair = true := by
  refine ⟨?_, ?_, fun n tail h hpair hnil => ?_, fun lead round r hround hlead hagain => ?_,
    fun n fast slow h => ⟨h.chase_eq, fun r q hr _ => h.isPair_slow (by rw [hr]; rfl)⟩⟩
  · rcases chain_or_circle s v with ⟨cs, tail, h⟩ | ⟨c, hc, -⟩
    · exact ⟨Shape.ofTail tail, fun n hn => (chase_eq_some hn).1 cs tail h⟩
    · exact ⟨.circular, fun n hn => (chase_eq_some hn).2 fun i => by rw [hc i]; rfl⟩
  · rw [isList_iff, exists_chain_iff]
    exact and_iff_right rfl
  · obtain ⟨cs, hcs⟩ := exists_chain_iff.2 ⟨hpair, n, h⟩
    have hshape := (chase_eq_some (Nat.lt_succ_self s.pairs.size)).1 cs tail hcs
    rw [Shape.ofTail_eq_dotted hnil] at hshape
    exact ⟨hshape, isList_eq_false hcs hnil⟩
  · have hshape : s.shape? v = some .circular :=
      (chase_eq_some (Nat.lt_succ_self s.pairs.size)).2 (isPair_follow_of_again hround hlead hagain)
    exact ⟨hshape, by rw [isList, hshape]; rfl⟩

/-- Two pairs lead into a circle of three. -/
theorem isList_exact_circle :
    let s : Store := { pairs := #[⟨.nil, .pair 1⟩, ⟨.nil, .pair 2⟩, ⟨.nil, .pair 3⟩,
      ⟨.nil, .pair 4⟩, ⟨.nil, .pair 2⟩] }
    (s.follow 2 (.pair 0) = .pair 2 ∧ s.follow (2 + 3) (.pair 0) = .pair 2) ∧
      s.shape? (.pair 0) = some .circular ∧ s.isList (.pair 0) = false := by
  intro s
  have hlead : s.follow 2 (.pair 0) = .pair 2 := rfl
  have hagain : s.follow (2 + 3) (.pair 0) = .pair 2 := rfl
  exact ⟨⟨hlead, hagain⟩, (isList_exact s (.pair 0)).2.2.2.1 2 3 2 (by decide) hlead hagain⟩

end LittleScheme.Store
