import LittleScheme.Proofs.Depth
import LittleScheme.Proofs.Shapes
import Mathlib.Data.Set.Card

/-!
# The text of a pair

A pair is written along its chain. One that ends is written whole, with its tail after a dot if that
is not the empty list. A circular chain is cut off with a mark, and not before each of its pairs has
been written.
-/
namespace LittleScheme.Store

/-- Writing a value comes to an end: it is nested to some finite depth. -/
def Renders (s : Store) (v : Value) : Prop := ∃ depth, s.nestedWithin depth v = true

theorem renders_iff {s : Store} {v : Value} :
    s.Renders v ↔ s.nestedWithin s.depthLimit v = true :=
  ⟨fun ⟨_, h⟩ => nestedWithin_limit h, fun h => ⟨_, h⟩⟩

theorem Renders.text_eq {s : Store} {v : Value} (h : s.Renders v) (style : Text.Style) :
    s.text style v = s.textWithin style s.depthLimit v := by
  rw [text, if_pos (renders_iff.1 h)]

/-- What is written after the elements of a chain. -/
def closing (s : Store) (style : Text.Style) : Ending → String
  | .proper => ")"
  | .dotted tail => " . " ++ s.text style tail ++ ")"
  | .circular => " ...)"

section Parts

variable {s : Store} {r : Ref} {items : List Value} {ending : Ending}
  (hspine : s.spine r = (items, ending)) (hitems : ∀ v ∈ items, s.Renders v)
  (htail : ∀ tail, ending = .dotted tail → s.Renders tail)
include hspine hitems htail

theorem nestedWithin_pair : s.nestedWithin (s.depthLimit + 1) (.pair r) = true := by
  rw [nestedWithin_succ]
  intro p hp
  refine renders_iff.1 ?_
  cases ending with
  | dotted tail =>
      simp only [parts, hspine, List.mem_append, List.mem_singleton] at hp
      rcases hp with hp | rfl
      · exact hitems p hp
      · exact htail p rfl
  | _ =>
      simp only [parts, hspine] at hp
      exact hitems p hp

/-- A pair whose elements and tail can be written is written with their texts. -/
theorem text_pair (style : Text.Style) :
    s.text style (.pair r) =
      "(" ++ Text.spaced (items.map (s.text style)) ++ s.closing style ending := by
  have helements : items.map (s.text style) = items.map (s.textWithin style s.depthLimit) :=
    List.map_congr_left fun v hv => (hitems v hv).text_eq style
  rw [Store.text_eq (nestedWithin_pair hspine hitems htail), helements]
  cases ending with
  | dotted tail =>
      simp only [textWithin, hspine, closing, (htail tail rfl).text_eq style, String.append_assoc]
  | _ => simp only [textWithin, hspine, closing]

end Parts

/-! ### Circular chains -/

section Circle

variable {s : Store} {c : Nat → Ref} (hc : ∀ i, s.cdr (c i) = .pair (c (i + 1)))
include hc

theorem circle_spineWithin {n k : Nat}
    (h : s.SpineEnds n (.pair (c (k + 1))) (c (k / 2)) (k % 2 == 1)) :
    ∃ m, c (k + m + 1) = c ((k + m) / 2) ∧
      s.spineWithin n (.pair (c (k + 1))) (c (k / 2)) (k % 2 == 1) =
        ((List.range' (k + 1) m).map fun i => s.car (c i), .circular) := by
  induction n generalizing k with
  | zero => exact h.elim
  | succ n ih =>
      by_cases hmeet : c (k + 1) = c (k / 2)
      · exact ⟨0, hmeet, by simp [spineWithin, hmeet]⟩
      · have hrest := h.resolve_left hmeet
        rw [hc (k + 1), circle_trail hc, not_odd] at hrest
        obtain ⟨m, hm, heq⟩ := ih hrest
        refine ⟨m + 1, ?_, ?_⟩
        · rwa [show k + (m + 1) = k + 1 + m by omega]
        · simp only [spineWithin, beq_iff_eq, hmeet, if_false]
          rw [hc (k + 1), circle_trail hc, not_odd, heq]
          rfl

/-- A circular chain is written up to the place where the cursors meet. -/
theorem spine_circle : ∃ m, c (m + 1) = c (m / 2) ∧
    s.spine (c 0) = (((List.range (m + 1)).map c).map s.car, .circular) := by
  have hends := spine_ends s (c 0)
  rw [hc 0] at hends
  obtain ⟨m, hmeet, heq⟩ := circle_spineWithin hc (k := 0) hends
  rw [Nat.zero_add] at hmeet
  refine ⟨m, hmeet, ?_⟩
  have heq' : s.spineWithin (2 * s.pairs.size + 2) (.pair (c 1)) (c 0) false =
      ((List.range' 1 m).map fun i => s.car (c i), .circular) := heq
  rw [spine, hc 0, heq', List.range_eq_range', List.range'_succ]
  simp

/-- Where the chain comes back to a pair, no pair is still to come. -/
theorem circle_mem {j m : Nat} (hj : j ≤ m) (hback : c (m + 1) = c j) (i : Nat) :
    c i ∈ (List.range (m + 1)).map c := by
  induction i using Nat.strong_induction_on with
  | _ i ih =>
      by_cases hi : i ≤ m
      · exact List.mem_map.2 ⟨i, List.mem_range.2 (by omega), rfl⟩
      · have hsame := circle_period hc hback (i - (m + 1))
        rw [show m + 1 + (i - (m + 1)) = i by omega] at hsame
        rw [hsame]
        exact ih _ (by omega)

end Circle

/-- The pairs on the chain from a value. -/
def onChain (s : Store) (v : Value) : Set Ref := {q | ∃ i, s.follow i v = .pair q}

theorem ncard_le_length {A : Set Ref} {cells : List Ref} (h : ∀ q ∈ A, q ∈ cells) :
    A.ncard ≤ cells.length := by
  have hsub : A ⊆ (cells.toFinset : Set Ref) := fun q hq => by simpa using h q hq
  calc A.ncard ≤ (cells.toFinset : Set Ref).ncard := Set.ncard_le_ncard hsub (Finset.finite_toSet _)
    _ = cells.toFinset.card := Set.ncard_coe_finset _
    _ ≤ cells.length := List.toFinset_card_le cells

/-! ### Pairs of all kinds -/

/-- Steps along the chain from a value come back to a pair. -/
def Circular (s : Store) (v : Value) : Prop :=
  ∃ lead round r, 0 < round ∧ s.follow lead v = .pair r ∧ s.follow (lead + round) v = .pair r

theorem Circular.exists_circle {s : Store} {v : Value} (h : s.Circular v) :
    ∃ c : Nat → Ref, (∀ i, s.follow i v = .pair (c i)) ∧ ∀ i, s.cdr (c i) = .pair (c (i + 1)) := by
  obtain ⟨lead, round, r, hround, hlead, hagain⟩ := h
  refine (chain_or_circle s v).resolve_left ?_
  rintro ⟨cs, tail, hchain⟩
  have hend := isPair_follow_of_again hround hlead hagain cs.length
  rw [hchain.follow_length, hchain.isPair_tail] at hend
  cases hend

theorem circular_of_circle {s : Store} {v : Value} {c : Nat → Ref}
    (hfollow : ∀ i, s.follow i v = .pair (c i)) (hc : ∀ i, s.cdr (c i) = .pair (c (i + 1))) :
    s.Circular v := by
  obtain ⟨m, hm, -, hround⟩ := exists_rounds hc
  refine ⟨m, m, c m, hm, hfollow m, ?_⟩
  rw [hfollow, ← hround m (by omega)]

theorem mem_onChain_of_mem {s : Store} {v tail : Value} {cs : List Ref} (h : s.Chain v cs tail)
    {q : Ref} (hq : q ∈ cs) : q ∈ s.onChain v := by
  induction cs generalizing v with
  | nil => cases hq
  | cons r cs ih =>
      obtain ⟨rfl, h⟩ := h
      rcases List.mem_cons.1 hq with rfl | hq
      · exact ⟨0, rfl⟩
      · obtain ⟨i, hi⟩ := ih h hq
        exact ⟨i + 1, hi⟩

theorem spine_of_chain {s : Store} {r : Ref} {cs : List Ref} {tail : Value}
    (h : s.Chain (.pair r) cs tail) : s.spine r = (cs.map s.car, Ending.ofTail tail) := by
  cases cs with
  | nil =>
      obtain ⟨rfl, hp⟩ := h
      cases hp
  | cons q cs =>
      obtain rfl : r = q := Value.pair.inj h.1
      exact spine_chain h

theorem ending_circular_iff (s : Store) (r : Ref) :
    (s.spine r).2 = .circular ↔ s.Circular (.pair r) := by
  constructor
  · intro h
    rcases chain_or_circle s (.pair r) with ⟨cs, tail, hchain⟩ | ⟨c, hfollow, hc⟩
    · rw [spine_of_chain hchain, Ending.ofTail] at h
      split at h <;> cases h
    · exact circular_of_circle hfollow hc
  · intro h
    obtain ⟨c, hfollow, hc⟩ := h.exists_circle
    obtain rfl : r = c 0 := Value.pair.inj (hfollow 0)
    obtain ⟨m, -, hspine⟩ := spine_circle hc
    rw [hspine]

section Elements

variable {s : Store} {r : Ref} (hcars : ∀ q ∈ s.onChain (.pair r), s.Renders (s.car q))
include hcars

theorem text_chain {cs : List Ref} {tail : Value} (h : s.Chain (.pair r) cs tail)
    (htail : s.Renders tail) :
    s.Renders (.pair r) ∧ ∀ style, s.text style (.pair r) =
      "(" ++ Text.spaced (cs.map fun q => s.text style (s.car q)) ++
        s.closing style (Ending.ofTail tail) := by
  have hitems : ∀ v ∈ cs.map s.car, s.Renders v := by
    intro v hv
    obtain ⟨q, hq, rfl⟩ := List.mem_map.1 hv
    exact hcars q (mem_onChain_of_mem h hq)
  have hdotted : ∀ last, Ending.ofTail tail = .dotted last → s.Renders last := by
    intro last hlast
    unfold Ending.ofTail at hlast
    split at hlast
    · cases hlast
    · exact Ending.dotted.inj hlast ▸ htail
  have hspine := spine_of_chain h
  refine ⟨⟨_, nestedWithin_pair hspine hitems hdotted⟩, fun style => ?_⟩
  rw [text_pair hspine hitems hdotted, List.map_map]
  rfl

theorem text_circular (h : s.Circular (.pair r)) :
    s.Renders (.pair r) ∧ ∃ cells : List Ref,
      (∀ i q, cells[i]? = some q → s.follow i (.pair r) = .pair q) ∧
      (∀ q ∈ s.onChain (.pair r), q ∈ cells) ∧
      ∀ style, s.text style (.pair r) =
        "(" ++ Text.spaced (cells.map fun q => s.text style (s.car q)) ++ " ...)" := by
  obtain ⟨c, hfollow, hc⟩ := h.exists_circle
  obtain rfl : r = c 0 := Value.pair.inj (hfollow 0)
  obtain ⟨m, hmeet, hspine⟩ := spine_circle hc
  have hitems : ∀ v ∈ ((List.range (m + 1)).map c).map s.car, s.Renders v := by
    simp only [List.map_map, List.mem_map, forall_exists_index, and_imp]
    rintro v i - rfl
    exact hcars (c i) ⟨i, hfollow i⟩
  have hdotted : ∀ tail, Ending.circular = .dotted tail → s.Renders tail := by
    rintro tail ⟨⟩
  refine ⟨⟨_, nestedWithin_pair hspine hitems hdotted⟩, (List.range (m + 1)).map c, ?_, ?_, ?_⟩
  · intro i q hi
    rw [List.getElem?_map, Option.map_eq_some_iff] at hi
    obtain ⟨j, hj, rfl⟩ := hi
    obtain ⟨hlt, hget⟩ := List.getElem?_eq_some_iff.1 hj
    rw [List.getElem_range] at hget
    exact hget ▸ hfollow i
  · rintro q ⟨i, hi⟩
    rw [hfollow] at hi
    exact Value.pair.inj hi ▸ circle_mem hc (Nat.div_le_self m 2) hmeet i
  · intro style
    rw [text_pair hspine hitems hdotted, List.map_map]
    rfl

end Elements

/-- A pair whose elements can be written, and whose tail can if its chain ends, is written by a walk
that comes to an end. A proper list is written as its elements between parentheses, with single spaces
between them; any other chain that ends, with a dot and the tail after its elements. Of a circular chain
the first elements are written, one for each of its pairs at least, and a mark; no other chain gets the
mark. -/
theorem text_along_chain (s : Store) (r : Ref)
    (hcars : ∀ q ∈ s.onChain (.pair r), s.Renders (s.car q))
    (htail : ∀ i, (s.follow i (.pair r)).isPair = false → s.Renders (s.follow i (.pair r))) :
    s.Renders (.pair r) ∧ s.SpineEnds (2 * s.pairs.size + 2) (s.cdr r) r false ∧
    (∀ cs, s.Chain (.pair r) cs .nil → ∀ style, s.text style (.pair r) =
      "(" ++ Text.spaced (cs.map fun q => s.text style (s.car q)) ++ ")") ∧
    (∀ cs tail, s.Chain (.pair r) cs tail → tail ≠ .nil → ∀ style, s.text style (.pair r) =
      "(" ++ Text.spaced (cs.map fun q => s.text style (s.car q)) ++ " . " ++ s.text style tail ++
        ")") ∧
    (s.Circular (.pair r) → ∃ cells : List Ref,
      (∀ i q, cells[i]? = some q → s.follow i (.pair r) = .pair q) ∧
      (∀ q ∈ s.onChain (.pair r), q ∈ cells) ∧ (s.onChain (.pair r)).ncard ≤ cells.length ∧
      ∀ style, s.text style (.pair r) =
        "(" ++ Text.spaced (cells.map fun q => s.text style (s.car q)) ++ " ...)") ∧
    ((s.spine r).2 = .circular ↔ s.Circular (.pair r)) := by
  have hend : ∀ cs tail, s.Chain (.pair r) cs tail → s.Renders tail := by
    intro cs tail h
    rw [← h.follow_length]
    exact htail _ (by rw [h.follow_length]; exact h.isPair_tail)
  refine ⟨?_, spine_ends s r, fun cs h => ?_, fun cs tail h hnil style => ?_, fun h => ?_,
    ending_circular_iff s r⟩
  · rcases chain_or_circle s (.pair r) with ⟨cs, tail, h⟩ | ⟨c, hfollow, hc⟩
    · exact (text_chain hcars h (hend cs tail h)).1
    · exact (text_circular hcars (circular_of_circle hfollow hc)).1
  · exact (text_chain hcars h (hend cs .nil h)).2
  · have hdotted : Ending.ofTail tail = .dotted tail := by
      cases tail <;> first | rfl | exact absurd rfl hnil
    rw [(text_chain hcars h (hend cs tail h)).2 style, hdotted, closing]
    simp only [String.append_assoc]
  · obtain ⟨-, cells, hcells, hall, htext⟩ := text_circular hcars h
    exact ⟨cells, hcells, hall, ncard_le_length hall, htext⟩

/-- One pair leads into a circle of one, whose element is written twice before the cursors meet. -/
theorem text_along_chain_circle :
    let s : Store := { pairs := #[⟨.bool true, .pair 1⟩, ⟨.bool false, .pair 1⟩] }
    (s.Circular (.pair 0) ∧ ∀ q ∈ s.onChain (.pair 0), s.Renders (s.car q)) ∧
      s.text .write (.pair 0) = "(#t #f #f ...)" ∧
      ∃ cells : List Ref, (s.onChain (.pair 0)).ncard ≤ cells.length ∧
        s.text .write (.pair 0) =
          "(" ++ Text.spaced (cells.map fun q => s.text .write (s.car q)) ++ " ...)" := by
  intro s
  have hcircular : s.Circular (.pair 0) := ⟨1, 1, 1, by decide, rfl, rfl⟩
  have hfollow : ∀ i, s.follow i (.pair 1) = .pair 1 := by
    intro i
    induction i with
    | zero => rfl
    | succ i ih => exact ih
  have hcells : ∀ i, s.follow i (.pair 0) = .pair 0 ∨ s.follow i (.pair 0) = .pair 1 := by
    intro i
    cases i with
    | zero => exact .inl rfl
    | succ i => exact .inr (hfollow i)
  have hcars : ∀ q ∈ s.onChain (.pair 0), s.Renders (s.car q) := by
    rintro q ⟨i, hi⟩
    rcases hcells i with h | h <;> obtain rfl := Value.pair.inj (hi ▸ h) <;> exact ⟨1, rfl⟩
  have htail : ∀ i, (s.follow i (.pair 0)).isPair = false → s.Renders (s.follow i (.pair 0)) := by
    intro i hi
    rcases hcells i with h | h <;> rw [h] at hi <;> cases hi
  obtain ⟨-, -, -, -, hcut, -⟩ := text_along_chain s 0 hcars htail
  obtain ⟨cells, -, -, hcount, htext⟩ := hcut hcircular
  exact ⟨⟨hcircular, hcars⟩, by decide, cells, hcount, htext .write⟩

end LittleScheme.Store
