import LittleScheme.Proofs.Cells
import LittleScheme.Proofs.Comparison
import LittleScheme.Proofs.Represents

/-!
# Equality of structure is equality of trees

A value that holds no real number and does not come back to itself unfolds to a finite tree.
`Compares` is the comparison of two values as it goes from part to part, without a bound. On values
that unfold it ends, its answer is the one found within the bound, and the answer is true exactly
when the two trees are the same.
-/
namespace LittleScheme

namespace Value

/-- Neither a real number nor an object with contents to compare. -/
def isLeaf : Value → Bool
  | number (.real _) | string _ | pair _ | vector _ | bytes _ => false
  | _ => true

/-- Two values of one kind that are compared by what they hold. -/
inductive Alike : Value → Value → Prop
  | pairs (a b : Ref) : Alike (.pair a) (.pair b)
  | numbers (m n : Number) : Alike (.number m) (.number n)
  | strings (a b : Ref) : Alike (.string a) (.string b)
  | vectors (a b : Ref) : Alike (.vector a) (.vector b)
  | bytes (a b : Ref) : Alike (.bytes a) (.bytes b)

theorem same_refl_of_leaf {v : Value} (h : v.isLeaf = true) : v.same v = true := by
  cases v with
  | number n => cases n <;> simp_all [same, isLeaf]
  | _ => simp_all [same, isLeaf]

theorem eq_of_same {v w : Value} (hreal : ∀ x, v ≠ .number (.real x)) (h : v.same w = true) :
    v = w := by
  cases v with
  | number m =>
      cases m with
      | real x => exact absurd rfl (hreal x)
      | integer m =>
          cases w with
          | number n => cases n <;> simp_all [same]
          | _ => simp [same] at h
  | _ => cases w <;> simp_all [same]

end Value

theorem Number.numericEq_integer (m n : Int64) :
    (integer m).numericEq (integer n) = true ↔ m = n := by
  simp [numericEq, Number.compare, Int64.toInt_inj]

/-- What a value unfolds to: strings and bytevectors by their contents, pairs and vectors by the
trees of their parts, everything else by itself. -/
inductive Tree where
  | leaf (v : Value)
  | string (text : String)
  | bytes (items : Array UInt8)
  | pair (car cdr : Tree)
  | vector (items : List Tree)

namespace Store

/-! ### Unfolding -/

/-- A value unfolds to a tree without real numbers. -/
inductive Unfolds (s : Store) : Tree → Value → Prop
  | leaf {v : Value} (atom : v.isLeaf = true) : Unfolds s (.leaf v) v
  | string {r : Ref} {text : String} (object : s.strings[r]? = some text) :
      Unfolds s (.string text) (.string r)
  | bytes {r : Ref} {items : Array UInt8} (object : s.bytes[r]? = some items) :
      Unfolds s (.bytes items) (.bytes r)
  | pair {r : Ref} {p : Pair} {car cdr : Tree} (object : s.pairs[r]? = some p)
      (first : Unfolds s car p.car) (second : Unfolds s cdr p.cdr) :
      Unfolds s (.pair car cdr) (.pair r)
  | vector {r : Ref} {vs : Array Value} {items : List Tree} (object : s.vectors[r]? = some vs)
      (length : items.length = vs.size)
      (elements : ∀ (i : Nat) (t : Tree) (v : Value), items[i]? = some t → vs[i]? = some v →
        Unfolds s t v) :
      Unfolds s (.vector items) (.vector r)

theorem Unfolds.ne_real {s : Store} {t : Tree} {v : Value} (h : s.Unfolds t v) (x : Float) :
    v ≠ .number (.real x) := by
  rintro rfl
  cases h with
  | leaf atom => cases atom

/-- A value unfolds to at most one tree. -/
theorem Unfolds.unique {s : Store} {t u : Tree} {v : Value} (ht : s.Unfolds t v)
    (hu : s.Unfolds u v) : t = u := by
  induction ht generalizing u with
  | leaf atom => cases hu <;> first | rfl | cases atom
  | string object =>
      cases hu with
      | leaf atom => cases atom
      | string object' => rw [Option.some.inj (object.symm.trans object')]
  | bytes object =>
      cases hu with
      | leaf atom => cases atom
      | bytes object' => rw [Option.some.inj (object.symm.trans object')]
  | pair object _ _ ihcar ihcdr =>
      cases hu with
      | leaf atom => cases atom
      | pair object' first second =>
          cases Option.some.inj (object.symm.trans object')
          rw [ihcar first, ihcdr second]
  | @vector r vs items object length _ ih =>
      cases hu with
      | leaf atom => cases atom
      | @vector _ _ items' object' length' elements' =>
          cases Option.some.inj (object.symm.trans object')
          congr 1
          refine List.ext_getElem (length.trans length'.symm) fun i hi hi' => ?_
          have hvs : i < vs.size := length ▸ hi
          have hv : vs[i]? = some vs[i] := Array.getElem?_eq_getElem hvs
          exact ih i _ _ (List.getElem?_eq_getElem hi) hv
            (elements' i _ _ (List.getElem?_eq_getElem hi') hv)

theorem Unfolds.extends {s s' : Store} {t : Tree} {v : Value} (h : s.Unfolds t v)
    (he : s.Extends s') : s'.Unfolds t v := by
  induction h with
  | leaf atom => exact .leaf atom
  | string object => exact .string (he.strings object)
  | bytes object => exact .bytes (he.bytes object)
  | pair object _ _ ihcar ihcdr => exact .pair (he.pairs object) ihcar ihcdr
  | vector object length _ ih => exact .vector (he.vectors object) length ih

/-! ### The comparison without a bound -/

/-- The comparison of two values ends with an answer. Pairs are compared by their first parts and
then along their second parts, unless they are one object; vectors element by element up to the
first difference; all other values at once. -/
inductive Compares (s : Store) : Value → Value → Bool → Prop
  | samePair {r : Ref} : Compares s (.pair r) (.pair r) true
  | carsDiffer {a b : Ref} (distinct : a ≠ b) (cars : Compares s (s.car a) (s.car b) false) :
      Compares s (.pair a) (.pair b) false
  | alongCdrs {a b : Ref} {answer : Bool} (distinct : a ≠ b)
      (cars : Compares s (s.car a) (s.car b) true)
      (cdrs : Compares s (s.cdr a) (s.cdr b) answer) : Compares s (.pair a) (.pair b) answer
  | numbers {m n : Number} : Compares s (.number m) (.number n) (m.numericEq n)
  | strings {a b : Ref} : Compares s (.string a) (.string b) (s.string a == s.string b)
  | lengthsDiffer {a b : Ref} (lengths : (s.vector a).size ≠ (s.vector b).size) :
      Compares s (.vector a) (.vector b) false
  | elementsAgree {a b : Ref} (lengths : (s.vector a).size = (s.vector b).size)
      (agree : ∀ (i : Nat) (v w : Value), (s.vector a)[i]? = some v → (s.vector b)[i]? = some w →
        Compares s v w true) :
      Compares s (.vector a) (.vector b) true
  | elementsDiffer {a b : Ref} {i : Nat} {v w : Value}
      (lengths : (s.vector a).size = (s.vector b).size)
      (agree : ∀ (j : Nat) (v w : Value), j < i → (s.vector a)[j]? = some v →
        (s.vector b)[j]? = some w → Compares s v w true)
      (left : (s.vector a)[i]? = some v) (right : (s.vector b)[i]? = some w)
      (differ : Compares s v w false) :
      Compares s (.vector a) (.vector b) false
  | bytes {a b : Ref} : Compares s (.bytes a) (.bytes b) (s.bytevector a == s.bytevector b)
  | identity {v w : Value} (unlike : ¬ v.Alike w) : Compares s v w (v.same w)

theorem equalWithin_of_not_alike {s : Store} {n : Nat} {v w : Value} (h : ¬ v.Alike w) :
    s.equalWithin (n + 1) v w = v.same w := by
  cases v <;> cases w <;> first | rfl | exact absurd (by constructor) h

/-- Elements at one place of two vectors of the same length are compared with each other. -/
theorem mem_zip_iff {xs ys : Array Value} {p : Value × Value} :
    p ∈ xs.toList.zip ys.toList ↔ ∃ i : Nat, xs[i]? = some p.1 ∧ ys[i]? = some p.2 := by
  simp [List.mem_iff_getElem?, List.getElem?_zip_eq_some]

/-- Where every comparison succeeds within some number of steps, one number serves all. -/
theorem exists_equalWithin {s : Store} (ps : List (Value × Value))
    (h : ∀ p ∈ ps, ∃ n, s.equalWithin n p.1 p.2 = true) :
    ∃ n, ∀ p ∈ ps, s.equalWithin n p.1 p.2 = true := by
  induction ps with
  | nil => exact ⟨0, by simp⟩
  | cons p ps ih =>
      obtain ⟨m, hm⟩ := h p (by simp)
      obtain ⟨n, hn⟩ := ih fun q hq => h q (by simp [hq])
      refine ⟨max m n, List.forall_mem_cons.2 ⟨?_, fun q hq => ?_⟩⟩
      · exact equalWithin_mono (Nat.le_max_left m n) hm
      · exact equalWithin_mono (Nat.le_max_right m n) (hn q hq)

/-- A comparison that ends has its answer within every number of steps from some number on. -/
theorem Compares.eventually {s : Store} {v w : Value} {answer : Bool}
    (h : s.Compares v w answer) : ∃ n, ∀ m, n ≤ m → s.equalWithin (m + 1) v w = answer := by
  induction h with
  | samePair => exact ⟨0, fun m _ => by simp [equalWithin]⟩
  | carsDiffer distinct _ ih =>
      obtain ⟨n, hn⟩ := ih
      refine ⟨n + 1, fun m hm => ?_⟩
      obtain ⟨m, rfl⟩ : ∃ k, m = k + 1 := ⟨m - 1, by omega⟩
      rw [equalWithin, hn m (by omega)]
      simpa using distinct
  | alongCdrs distinct _ _ ihcar ihcdr =>
      obtain ⟨n, hn⟩ := ihcar
      obtain ⟨k, hk⟩ := ihcdr
      refine ⟨n + k + 1, fun m hm => ?_⟩
      obtain ⟨m, rfl⟩ : ∃ k, m = k + 1 := ⟨m - 1, by omega⟩
      rw [equalWithin, hn m (by omega), hk m (by omega)]
      simp [distinct]
  | numbers | strings | bytes => exact ⟨0, fun m _ => rfl⟩
  | lengthsDiffer lengths =>
      refine ⟨0, fun m _ => Bool.eq_false_iff.2 fun h => lengths ?_⟩
      simpa using (equalWithin_vector.1 h).1
  | elementsAgree lengths _ ih =>
      obtain ⟨n, hn⟩ := exists_equalWithin _ fun p hp => by
        obtain ⟨i, hleft, hright⟩ := mem_zip_iff.1 hp
        obtain ⟨n, hn⟩ := ih i p.1 p.2 hleft hright
        exact ⟨n + 1, hn n le_rfl⟩
      refine ⟨n, fun m hm => equalWithin_vector.2 ⟨by simpa using lengths, fun p hp => ?_⟩⟩
      exact equalWithin_mono hm (hn p hp)
  | elementsDiffer _ _ left right _ _ ih =>
      obtain ⟨n, hn⟩ := ih
      refine ⟨n + 1, fun m hm => Bool.eq_false_iff.2 fun h => ?_⟩
      obtain ⟨m, rfl⟩ : ∃ k, m = k + 1 := ⟨m - 1, by omega⟩
      have hp := (equalWithin_vector.1 h).2 (_, _) (mem_zip_iff.2 ⟨_, left, right⟩)
      rw [hn m (by omega)] at hp
      cases hp
  | identity unlike => exact ⟨0, fun m _ => equalWithin_of_not_alike unlike⟩

theorem Compares.equal_eq {s : Store} {v w : Value} {answer : Bool} (h : s.Compares v w answer) :
    s.equal v w = answer := by
  obtain ⟨n, hn⟩ := h.eventually
  rw [Bool.eq_iff_iff]
  constructor
  · intro he
    have hmax := equalWithin_mono (m := n + s.comparisonLimit + 1) (by omega) he
    rwa [hn _ (by omega)] at hmax
  · intro ha
    exact equalWithin_limit ((hn n le_rfl).trans ha)

/-! ### Equal trees -/

/-- Values that are not compared by what they hold are equal when they are the same. -/
theorem Unfolds.same_iff {s : Store} {t u : Tree} {v w : Value} (ht : s.Unfolds t v)
    (hu : s.Unfolds u w) (unlike : ¬ v.Alike w) : v.same w = true ↔ t = u := by
  constructor
  · intro h
    obtain rfl := Value.eq_of_same ht.ne_real h
    exact ht.unique hu
  · rintro rfl
    cases ht with
    | leaf atom =>
        cases hu
        exact Value.same_refl_of_leaf atom
    | string | bytes | pair | vector =>
        cases hu
        exact absurd (by constructor) unlike

/-- Lists of trees of the same length differ first at some place. -/
theorem exists_first_ne {ts us : List Tree} (hlen : ts.length = us.length) (hne : ts ≠ us) :
    ∃ (i : Nat) (t u : Tree), ts[i]? = some t ∧ us[i]? = some u ∧ t ≠ u ∧ ∀ j < i, ts[j]? = us[j]? := by
  have hex : ∃ i : Nat, ts[i]? ≠ us[i]? := by
    by_contra h
    push Not at h
    exact hne (List.ext_getElem? h)
  classical
  have hi := Nat.find_spec hex
  have hlt : Nat.find hex < ts.length := by
    by_contra hge
    apply hi
    rw [List.getElem?_eq_none (by omega), List.getElem?_eq_none (by omega)]
  refine ⟨Nat.find hex, _, _, List.getElem?_eq_getElem hlt,
    List.getElem?_eq_getElem (hlen ▸ hlt), fun h => hi ?_, fun j hj => ?_⟩
  · rw [List.getElem?_eq_getElem hlt, List.getElem?_eq_getElem (hlen ▸ hlt), h]
  · exact not_not.1 (Nat.find_min hex hj)

theorem Unfolds.compares_of_alike {s : Store} {t u : Tree} {v w : Value} (ht : s.Unfolds t v)
    (hu : s.Unfolds u w)
    (h : v.Alike w → ∃ answer, s.Compares v w answer ∧ (answer = true ↔ t = u)) :
    ∃ answer, s.Compares v w answer ∧ (answer = true ↔ t = u) := by
  by_cases alike : v.Alike w
  · exact h alike
  · exact ⟨_, .identity alike, ht.same_iff hu alike⟩

/-- The comparison of two values that unfold ends, and its answer tells whether their trees are the
same. -/
theorem Unfolds.compares {s : Store} {t u : Tree} {v w : Value} (ht : s.Unfolds t v)
    (hu : s.Unfolds u w) : ∃ answer, s.Compares v w answer ∧ (answer = true ↔ t = u) := by
  induction ht generalizing u w with
  | leaf atom =>
      refine (Unfolds.leaf atom).compares_of_alike hu fun alike => ?_
      cases alike with
      | numbers m n =>
          cases hu with
          | leaf atom' =>
              refine ⟨_, .numbers, ?_⟩
              cases m with
              | real x => cases atom
              | integer m =>
                  cases n with
                  | real x => cases atom'
                  | integer n => simp [Number.numericEq_integer]
      | _ => cases atom
  | string object =>
      refine (Unfolds.string object).compares_of_alike hu fun alike => ?_
      cases alike
      cases hu with
      | leaf atom => cases atom
      | string object' =>
          refine ⟨_, .strings, ?_⟩
          simp [Store.string, Array.getD_eq_getD_getElem?, object, object']
  | bytes object =>
      refine (Unfolds.bytes object).compares_of_alike hu fun alike => ?_
      cases alike
      cases hu with
      | leaf atom => cases atom
      | bytes object' =>
          refine ⟨_, .bytes, ?_⟩
          simp [bytevector, Array.getD_eq_getD_getElem?, object, object']
  | @pair a p car cdr object first second ihcar ihcdr =>
      refine (Unfolds.pair object first second).compares_of_alike hu fun alike => ?_
      cases alike with
      | pairs _ b =>
      by_cases same : a = b
      · subst same
        exact ⟨true, .samePair, by simp [(Unfolds.pair object first second).unique hu]⟩
      cases hu with
      | leaf atom => cases atom
      | pair object' first' second' =>
          obtain ⟨answer, hcar, hcarIff⟩ := ihcar first'
          obtain ⟨answer', hcdr, hcdrIff⟩ := ihcdr second'
          rw [← car_eq object, ← car_eq object'] at hcar
          rw [← cdr_eq object, ← cdr_eq object'] at hcdr
          cases answer with
          | false => exact ⟨false, .carsDiffer same hcar, by simp_all⟩
          | true => exact ⟨answer', .alongCdrs same hcar hcdr, by simp_all⟩
  | @vector a vs ts object length elements ih =>
      refine (Unfolds.vector object length elements).compares_of_alike hu fun alike => ?_
      cases alike with
      | vectors _ b =>
      cases hu with
      | leaf atom => cases atom
      | @vector _ ws us object' length' elements' =>
      have ha : s.vector a = vs := by simp [Store.vector, Array.getD_eq_getD_getElem?, object]
      have hb : s.vector b = ws := by simp [Store.vector, Array.getD_eq_getD_getElem?, object']
      have agree : ∀ (i : Nat) (v w : Value), ts[i]? = us[i]? → (s.vector a)[i]? = some v →
          (s.vector b)[i]? = some w → s.Compares v w true := by
        intro i v w heq hv hw
        rw [ha] at hv
        rw [hb] at hw
        have hi : i < ts.length := length ▸ (Array.getElem?_eq_some_iff.1 hv).1
        have ht : ts[i]? = some ts[i] := List.getElem?_eq_getElem hi
        obtain ⟨answer, hc, hiff⟩ := ih i _ v ht hv (elements' i _ w (heq ▸ ht) hw)
        exact hiff.2 rfl ▸ hc
      by_cases hlen : ts.length = us.length
      · have hsize : (s.vector a).size = (s.vector b).size := by rw [ha, hb]; omega
        by_cases heq : ts = us
        · refine ⟨true, .elementsAgree hsize fun i v w hv hw => agree i v w (heq ▸ rfl) hv hw, ?_⟩
          simp [heq]
        · obtain ⟨i, t, u, ht, hu, hne, hbefore⟩ := exists_first_ne hlen heq
          have hi : i < vs.size := length ▸ (List.getElem?_eq_some_iff.1 ht).1
          have hi' : i < ws.size := length' ▸ (List.getElem?_eq_some_iff.1 hu).1
          have hv : vs[i]? = some vs[i] := Array.getElem?_eq_getElem hi
          have hw : ws[i]? = some ws[i] := Array.getElem?_eq_getElem hi'
          obtain ⟨answer, hc, hiff⟩ := ih i t _ ht hv (elements' i u _ hu hw)
          obtain rfl : answer = false := Bool.eq_false_iff.2 fun h => hne (hiff.1 h)
          refine ⟨false, .elementsDiffer hsize (fun j v w hj => agree j v w (hbefore j hj))
            (ha ▸ hv) (hb ▸ hw) hc, ?_⟩
          simp [heq]
      · refine ⟨false, .lengthsDiffer (by rw [ha, hb]; omega), ?_⟩
        simp only [Bool.false_eq_true, Tree.vector.injEq, false_iff]
        exact fun h => hlen (congrArg List.length h)

theorem Unfolds.equal_iff {s : Store} {t u : Tree} {v w : Value} (ht : s.Unfolds t v)
    (hu : s.Unfolds u w) : s.equal v w = true ↔ t = u := by
  obtain ⟨answer, hc, hiff⟩ := ht.compares hu
  rw [hc.equal_eq, hiff]

/-- The comparison of two values that unfold has the one answer `equal` gives. -/
theorem Unfolds.compares_iff {s : Store} {t u : Tree} {v w : Value} (ht : s.Unfolds t v)
    (hu : s.Unfolds u w) (answer : Bool) : s.Compares v w answer ↔ s.equal v w = answer := by
  refine ⟨Compares.equal_eq, ?_⟩
  rintro rfl
  obtain ⟨answer, hc, -⟩ := ht.compares hu
  exact hc.equal_eq ▸ hc

/-! ### Copies -/

theorem extends_pushPair (s : Store) (car cdr : Value) : s.Extends (s.pushPair car cdr) :=
  ⟨getElem?_push_of_some, id, id, id⟩

/-- The pairs of a proper list that unfolds are in the store. -/
theorem Unfolds.listAt {s : Store} {t : Tree} {v : Value} {cs : List Ref} (h : s.Unfolds t v)
    (hchain : s.Chain v cs .nil) : s.ListAt v cs := by
  refine ⟨hchain, ?_⟩
  induction cs generalizing t v with
  | nil => simp
  | cons r cs ih =>
      obtain ⟨rfl, hchain⟩ := hchain
      cases h with
      | leaf atom => cases atom
      | pair object first second =>
          rw [cdr_eq object] at hchain
          exact List.forall_mem_cons.2 ⟨(Array.getElem?_eq_some_iff.1 object).1, ih second hchain⟩

/-- New pairs with the elements of a list unfold to the tree of the list. -/
theorem Unfolds.list {s : Store} {t : Tree} {v : Value} {cs : List Ref} (h : s.Unfolds t v)
    (hchain : s.Chain v cs .nil) :
    s.Extends (s.list (cs.map s.car)).2 ∧
      (s.list (cs.map s.car)).2.Unfolds t (s.list (cs.map s.car)).1 := by
  induction cs generalizing t v with
  | nil =>
      obtain ⟨rfl, -⟩ := hchain
      exact ⟨.refl s, h⟩
  | cons r cs ih =>
      obtain ⟨rfl, hchain⟩ := hchain
      cases h with
      | leaf atom => cases atom
      | pair object first second =>
          rw [cdr_eq object] at hchain
          rw [← car_eq object] at first
          obtain ⟨hext, hrest⟩ := ih second hchain
          have hpush := extends_pushPair (s.list (cs.map s.car)).2 (s.car r)
            (s.list (cs.map s.car)).1
          rw [List.map_cons, Store.list, listWithTail_cons, ← Store.list]
          exact ⟨hext.trans hpush, .pair Array.getElem?_push_size
            (first.extends (hext.trans hpush)) (hrest.extends hpush)⟩

theorem Unfolds.copySpine {s : Store} {t : Tree} {v : Value} (h : s.Unfolds t v) :
    s.Extends (s.copySpine v).2 ∧ (s.copySpine v).2.Unfolds t (s.copySpine v).1 := by
  cases v with
  | pair r =>
      cases hlist : s.isList (.pair r) with
      | false => simpa [Store.copySpine, elements?_of_not_isList hlist] using ⟨.refl s, h⟩
      | true =>
          obtain ⟨cs, hchain⟩ := isList_iff.1 hlist
          simpa only [Store.copySpine, (h.listAt hchain).elements?_eq] using h.list hchain
  | _ => exact ⟨.refl s, h⟩

/-- Equality of structure is exact on values that unfold. The comparison ends, with the answer of
`equal`, and the answer is true exactly when the two trees are the same. So equality is reflexive,
symmetric and transitive on such values, holds of values that are the same, and holds between a
value and a copy of its spine. -/
theorem equal_iff_same_tree {s : Store} {a b : Value} {t u : Tree} (ha : s.Unfolds t a)
    (hb : s.Unfolds u b) :
    (∀ answer, s.Compares a b answer ↔ s.equal a b = answer) ∧
    (s.equal a b = true ↔ t = u) ∧
    s.equal a a = true ∧
    s.equal a b = s.equal b a ∧
    (∀ c tree, s.Unfolds tree c → s.equal a b = true → s.equal b c = true →
      s.equal a c = true) ∧
    (a.same b = true → s.equal a b = true) ∧
    (s.copySpine a).2.Compares a (s.copySpine a).1 true ∧
    (s.copySpine a).2.equal a (s.copySpine a).1 = true := by
  obtain ⟨hext, hcopy⟩ := ha.copySpine
  have hequal : (s.copySpine a).2.equal a (s.copySpine a).1 = true :=
    ((ha.extends hext).equal_iff hcopy).2 rfl
  refine ⟨ha.compares_iff hb, ha.equal_iff hb, (ha.equal_iff ha).2 rfl, ?_, ?_, ?_,
    ((ha.extends hext).compares_iff hcopy true).2 hequal, hequal⟩
  · rw [Bool.eq_iff_iff, ha.equal_iff hb, hb.equal_iff ha, eq_comm]
  · intro c tree hc hab hbc
    rw [ha.equal_iff hb] at hab
    rw [hb.equal_iff hc] at hbc
    exact (ha.equal_iff hc).2 (hab.trans hbc)
  · intro hsame
    obtain rfl := Value.eq_of_same ha.ne_real hsame
    exact (ha.equal_iff ha).2 rfl

/-- Two vectors share a pair. One holds it twice, the other once after a pair of its own with
another string of the same text. -/
theorem equal_iff_same_tree_shared :
    let s : Store :=
      { pairs := #[⟨.string 0, .closure 0⟩, ⟨.string 1, .closure 0⟩]
        strings := #["x", "x"]
        vectors := #[#[.pair 0, .pair 0], #[.pair 1, .pair 0]] }
    let part := Tree.pair (.string "x") (.leaf (.closure 0))
    s.Unfolds (.vector [part, part]) (.vector 0) ∧ s.Unfolds (.vector [part, part]) (.vector 1) ∧
      s.Compares (.vector 0) (.vector 1) true ∧ s.equal (.vector 0) (.vector 1) = true := by
  intro s part
  have hfirst : s.Unfolds part (.pair 0) := .pair rfl (.string rfl) (.leaf rfl)
  have hsecond : s.Unfolds part (.pair 1) := .pair rfl (.string rfl) (.leaf rfl)
  have hleft : s.Unfolds (.vector [part, part]) (.vector 0) := by
    refine .vector rfl rfl ?_
    rintro (_ | _ | i) t v ht hv
    · cases ht; cases hv; exact hfirst
    · cases ht; cases hv; exact hfirst
    · cases ht
  have hright : s.Unfolds (.vector [part, part]) (.vector 1) := by
    refine .vector rfl rfl ?_
    rintro (_ | _ | i) t v ht hv
    · cases ht; cases hv; exact hsecond
    · cases ht; cases hv; exact hfirst
    · cases ht
  have hequal := (equal_iff_same_tree hleft hright).2.1.2 rfl
  exact ⟨hleft, hright, ((equal_iff_same_tree hleft hright).1 true).2 hequal, hequal⟩

end Store
end LittleScheme
