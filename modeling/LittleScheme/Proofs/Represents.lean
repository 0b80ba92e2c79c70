import LittleScheme.Proofs.Depth
import LittleScheme.Datum.Printer

/-!
# Data as values of a store

`Represents s d v` says that the value `v` of the store `s` is the tree `d`. Parts may be shared, so
one object can stand for several equal subtrees. A value is written as the tree it represents, and
loading a datum gives a value that represents it.
-/
namespace LittleScheme

namespace Datum

mutual

/-- The number of nodes of a tree. -/
def nodes : Datum → Nat
  | .pair car cdr => car.nodes + cdr.nodes + 1
  | .vector items => nodesAll items + 1
  | _ => 1

/-- The number of nodes of some trees. -/
def nodesAll : List Datum → Nat
  | [] => 0
  | d :: rest => d.nodes + nodesAll rest

end

end Datum

namespace Store

mutual

/-- A value is the given tree. -/
def Represents (s : Store) : Datum → Value → Prop
  | .nil, v => v = .nil
  | .bool b, v => v = .bool b
  | .number n, v => v = .number n
  | .char c, v => v = .char c
  | .string text, v => ∃ r, v = .string r ∧ s.strings[r]? = some text
  | .symbol name, v => v = .symbol name
  | .keyword k, v => v = .keyword k
  | .pair car cdr, v => ∃ r p, v = .pair r ∧ s.pairs[r]? = some p ∧
      s.Represents car p.car ∧ s.Represents cdr p.cdr
  | .vector items, v => ∃ r vs, v = .vector r ∧ s.vectors[r]? = some vs ∧
      s.RepresentsAll items vs.toList
  | .bytes items, v => ∃ r bs, v = .bytes r ∧ s.bytes[r]? = some bs ∧ bs.toList = items

/-- Some values are the given trees, in this order. -/
def RepresentsAll (s : Store) : List Datum → List Value → Prop
  | [], vs => vs = []
  | d :: ds, vs => ∃ v rest, vs = v :: rest ∧ s.Represents d v ∧ s.RepresentsAll ds rest

end

theorem car_eq {s : Store} {r : Ref} {p : Pair} (h : s.pairs[r]? = some p) : s.car r = p.car := by
  simp [car, pair, Array.getD_eq_getD_getElem?, h]

theorem cdr_eq {s : Store} {r : Ref} {p : Pair} (h : s.pairs[r]? = some p) : s.cdr r = p.cdr := by
  simp [cdr, pair, Array.getD_eq_getD_getElem?, h]

/-! ### The text of a tree -/

/-- What is written of the tail of an open list. -/
def tailText (s : Store) (style : Text.Style) (n : Nat) (cs : List Ref) (tail : Value) : String :=
  String.join (cs.map fun c => " " ++ s.textWithin style n (s.car c)) ++
    (if tail.isNil then "" else " . " ++ s.textWithin style n tail)

theorem spaced_cons (t : String) (ts : List String) :
    Text.spaced (t :: ts) = t ++ String.join (ts.map fun u => " " ++ u) := by
  induction ts generalizing t with
  | nil => simp [Text.spaced]
  | cons u ts ih =>
      have h := ih u
      simp only [Text.spaced] at h ⊢
      rw [String.intercalate_cons_cons, h]
      simp [String.append_assoc]

/-- A pair is written as its first part and then its tail. -/
theorem textWithin_pair {s : Store} {style : Text.Style} {n : Nat} {r : Ref} {cs : List Ref}
    {tail : Value} (h : s.Chain (.pair r) (r :: cs) tail) :
    s.textWithin style (n + 1) (.pair r) =
      "(" ++ s.textWithin style n (s.car r) ++ s.tailText style n cs tail ++ ")" := by
  simp only [textWithin, spine_chain h, List.map_cons, List.map_map, spaced_cons, tailText,
    Ending.ofTail]
  cases htail : tail.isNil
  · simp only [Bool.false_eq_true, if_false, Function.comp_def, String.append_assoc]
  · simp only [if_true, Function.comp_def, String.append_assoc, String.append_empty]

theorem parts_pair {s : Store} {r : Ref} {cs : List Ref} {tail : Value}
    (h : s.Chain (.pair r) (r :: cs) tail) :
    ∀ p ∈ s.parts (.pair r), p = s.car r ∨ p ∈ cs.map s.car ∨ p = tail := by
  intro p hp
  simp only [parts, spine_chain h, Ending.ofTail] at hp
  cases htail : tail.isNil
  · simpa [htail] using hp
  · have hp' : p = s.car r ∨ p ∈ cs.map s.car := by simpa [htail] using hp
    exact hp'.imp_right .inl

/-- A value is nested no deeper than a tree has nodes and is written like the tree. As the tail of a
list, it goes on along a chain. -/
structure Shows (s : Store) (style : Text.Style) (d : Datum) (v : Value) : Prop where
  whole : ∀ n, d.nodes ≤ n →
    s.nestedWithin n v = true ∧ s.textWithin style n v = d.textAs style false
  tail : ∃ cs tail, s.Chain v cs tail ∧ ∀ n, d.nodes ≤ n →
    (∀ p, p ∈ cs.map s.car ∨ p = tail → s.nestedWithin n p = true) ∧
      d.textAs style true = s.tailText style n cs tail

/-- What is no list stands after a point as a tail. -/
theorem shows_of_whole {s : Store} {style : Text.Style} {d : Datum} {v : Value}
    (hv : v.isPair = false ∧ v.isNil = false)
    (ht : d.textAs style true = " . " ++ d.textAs style false)
    (hw : ∀ n, d.nodes ≤ n →
      s.nestedWithin n v = true ∧ s.textWithin style n v = d.textAs style false) :
    s.Shows style d v := by
  refine ⟨hw, [], v, ⟨rfl, hv.1⟩, fun n hn => ⟨?_, ?_⟩⟩
  · rintro p (hp | rfl)
    · simp at hp
    · exact (hw n hn).1
  · simp [tailText, hv.2, ht, (hw n hn).2]

theorem shows_leaf {s : Store} {style : Text.Style} {d : Datum} {v : Value}
    (hv : v.isPair = false ∧ v.isNil = false) (hparts : s.parts v = []) (hd : d.nodes = 1)
    (ht : d.textAs style true = " . " ++ d.textAs style false)
    (htext : ∀ n, s.textWithin style (n + 1) v = d.textAs style false) :
    s.Shows style d v := by
  refine shows_of_whole hv ht fun n hn => ?_
  obtain ⟨n, rfl⟩ : ∃ k, n = k + 1 := ⟨n - 1, by omega⟩
  exact ⟨nestedWithin_succ.2 (by simp [hparts]), htext n⟩

theorem shows_nil (s : Store) (style : Text.Style) : s.Shows style .nil .nil := by
  have hw : ∀ n, Datum.nil.nodes ≤ n →
      s.nestedWithin n .nil = true ∧ s.textWithin style n .nil = Datum.nil.textAs style false := by
    intro n hn
    obtain ⟨n, rfl⟩ : ∃ k, n = k + 1 := ⟨n - 1, by simp only [Datum.nodes] at hn; omega⟩
    exact ⟨rfl, rfl⟩
  refine ⟨hw, [], .nil, ⟨rfl, rfl⟩, fun n hn => ⟨?_, rfl⟩⟩
  rintro p (hp | rfl)
  · simp at hp
  · exact (hw n hn).1

theorem shows_pair {s : Store} {style : Text.Style} {a b : Datum} {r : Ref}
    (ha : s.Shows style a (s.car r)) (hb : s.Shows style b (s.cdr r)) :
    s.Shows style (.pair a b) (.pair r) := by
  obtain ⟨cs, tail, hchain, htail⟩ := hb.tail
  have hr : s.Chain (.pair r) (r :: cs) tail := ⟨rfl, hchain⟩
  refine ⟨fun n hn => ?_, r :: cs, tail, hr, fun n hn => ⟨?_, ?_⟩⟩
  · simp only [Datum.nodes] at hn
    obtain ⟨n, rfl⟩ : ∃ k, n = k + 1 := ⟨n - 1, by omega⟩
    obtain ⟨hcar, hcarText⟩ := ha.whole n (by omega)
    obtain ⟨hrest, hrestText⟩ := htail n (by omega)
    refine ⟨nestedWithin_succ.2 fun p hp => ?_, ?_⟩
    · rcases parts_pair hr p hp with rfl | hp
      · exact hcar
      · exact hrest p hp
    · rw [textWithin_pair hr, hcarText, ← hrestText]
      simp [Datum.textAs, String.append_assoc]
  · simp only [Datum.nodes] at hn
    rintro p (hp | hp)
    · rcases List.mem_cons.1 hp with rfl | hp
      · exact (ha.whole n (by omega)).1
      · exact (htail n (by omega)).1 p (.inl hp)
    · exact (htail n (by omega)).1 p (.inr hp)
  · simp only [Datum.nodes] at hn
    rw [Datum.textAs, (htail n (by omega)).2, ← (ha.whole n (by omega)).2]
    simp [tailText, String.append_assoc]

theorem shows_vector {s : Store} {style : Text.Style} {items : List Datum} {r : Ref}
    (h : ∀ n, Datum.nodesAll items ≤ n → (∀ v ∈ (s.vector r).toList, s.nestedWithin n v = true) ∧
      (s.vector r).toList.map (s.textWithin style n) = Datum.texts style items) :
    s.Shows style (.vector items) (.vector r) := by
  refine shows_of_whole ⟨rfl, rfl⟩ ?_ fun n hn => ?_
  · simp only [Datum.textAs, Datum.before, String.append_assoc]; rfl
  · simp only [Datum.nodes] at hn
    obtain ⟨n, rfl⟩ : ∃ k, n = k + 1 := ⟨n - 1, by omega⟩
    obtain ⟨hnested, htexts⟩ := h n (by omega)
    refine ⟨nestedWithin_succ.2 hnested, ?_⟩
    simp [textWithin, htexts, Datum.textAs, Datum.before]

mutual

/-- A value is written as the tree it is. -/
theorem Represents.shows {s : Store} (style : Text.Style) (d : Datum) (v : Value)
    (h : s.Represents d v) : s.Shows style d v := by
  cases d with
  | nil =>
      cases h
      exact shows_nil s style
  | bool b | number n | char c | symbol name | keyword k =>
      cases h
      exact shows_leaf ⟨rfl, rfl⟩ rfl rfl rfl fun n => by simp [textWithin, Datum.textAs, Datum.before]
  | string t =>
      obtain ⟨r, rfl, hr⟩ := h
      have hs : s.string r = t := by simp [string, Array.getD_eq_getD_getElem?, hr]
      exact shows_leaf ⟨rfl, rfl⟩ rfl rfl rfl fun n => by
        simp [textWithin, Datum.textAs, Datum.before, hs]
  | bytes items =>
      obtain ⟨r, bs, rfl, hr, rfl⟩ := h
      have hb : s.bytevector r = bs := by simp [bytevector, Array.getD_eq_getD_getElem?, hr]
      refine shows_leaf ⟨rfl, rfl⟩ rfl rfl ?_ fun n => ?_
      · simp only [Datum.textAs, Datum.before, String.append_assoc]; rfl
      · simp [textWithin, Datum.textAs, Datum.before, hb]
  | pair a b =>
      obtain ⟨r, p, rfl, hr, ha, hb⟩ := h
      rw [← car_eq hr] at ha
      rw [← cdr_eq hr] at hb
      exact shows_pair (Represents.shows style a _ ha) (Represents.shows style b _ hb)
  | vector items =>
      obtain ⟨r, vs, rfl, hr, hvs⟩ := h
      have hv : s.vector r = vs := by simp [vector, Array.getD_eq_getD_getElem?, hr]
      exact shows_vector (hv ▸ RepresentsAll.shows style items _ hvs)

theorem RepresentsAll.shows {s : Store} (style : Text.Style) (items : List Datum)
    (vs : List Value) (h : s.RepresentsAll items vs) (n : Nat) (hn : Datum.nodesAll items ≤ n) :
    (∀ v ∈ vs, s.nestedWithin n v = true) ∧
      vs.map (s.textWithin style n) = Datum.texts style items := by
  cases items with
  | nil =>
      cases h
      simp [Datum.texts]
  | cons d items =>
      obtain ⟨v, rest, rfl, hv, hrest⟩ := h
      simp only [Datum.nodesAll] at hn
      obtain ⟨hd, hdText⟩ := (Represents.shows style d v hv).whole n (by omega)
      obtain ⟨hr, hrText⟩ := RepresentsAll.shows style items rest hrest n (by omega)
      exact ⟨List.forall_mem_cons.2 ⟨hd, hr⟩, by rw [List.map_cons, hdText, hrText, Datum.texts]⟩

end

theorem Represents.text_eq {s : Store} {d : Datum} {v : Value} (h : s.Represents d v)
    (style : Text.Style) : s.text style v = d.text style := by
  obtain ⟨hnested, htext⟩ := (Represents.shows style d v h).whole d.nodes (Nat.le_refl _)
  rw [Store.text_eq hnested, htext, Datum.text]

theorem RepresentsAll.texts_eq {s : Store} {ds : List Datum} {vs : List Value}
    (h : s.RepresentsAll ds vs) (style : Text.Style) :
    vs.map (s.text style) = Datum.texts style ds := by
  induction ds generalizing vs with
  | nil =>
      cases h
      rfl
  | cons d ds ih =>
      obtain ⟨v, rest, rfl, hv, hrest⟩ := h
      rw [List.map_cons, hv.text_eq, ih hrest, Datum.texts, Datum.text]

/-! ### Loading -/

/-- Every object that data are made of stays as it is. -/
structure Extends (s s' : Store) : Prop where
  pairs : ∀ {r : Nat} {p : Pair}, s.pairs[r]? = some p → s'.pairs[r]? = some p
  strings : ∀ {r : Nat} {t : String}, s.strings[r]? = some t → s'.strings[r]? = some t
  vectors : ∀ {r : Nat} {vs : Array Value}, s.vectors[r]? = some vs → s'.vectors[r]? = some vs
  bytes : ∀ {r : Nat} {bs : Array UInt8}, s.bytes[r]? = some bs → s'.bytes[r]? = some bs

theorem Extends.refl (s : Store) : s.Extends s := ⟨id, id, id, id⟩

theorem Extends.trans {s s' s'' : Store} (h : s.Extends s') (h' : s'.Extends s'') :
    s.Extends s'' :=
  ⟨fun hr => h'.pairs (h.pairs hr), fun hr => h'.strings (h.strings hr),
    fun hr => h'.vectors (h.vectors hr), fun hr => h'.bytes (h.bytes hr)⟩

theorem getElem?_push_of_some {α : Type} {xs : Array α} {x y : α} {i : Nat}
    (h : xs[i]? = some y) : (xs.push x)[i]? = some y := by
  have hi : i < xs.size := (Array.getElem?_eq_some_iff.1 h).1
  rw [Array.getElem?_push, if_neg (by omega), h]

mutual

theorem Represents.extends {s s' : Store} (he : s.Extends s') (d : Datum) (v : Value)
    (h : s.Represents d v) : s'.Represents d v := by
  cases d with
  | nil | bool b | number n | char c | symbol name | keyword k => exact h
  | string t =>
      obtain ⟨r, rfl, hr⟩ := h
      exact ⟨r, rfl, he.strings hr⟩
  | bytes items =>
      obtain ⟨r, bs, rfl, hr, hbs⟩ := h
      exact ⟨r, bs, rfl, he.bytes hr, hbs⟩
  | pair a b =>
      obtain ⟨r, p, rfl, hr, ha, hb⟩ := h
      exact ⟨r, p, rfl, he.pairs hr, Represents.extends he a _ ha, Represents.extends he b _ hb⟩
  | vector items =>
      obtain ⟨r, vs, rfl, hr, hvs⟩ := h
      exact ⟨r, vs, rfl, he.vectors hr, RepresentsAll.extends he items _ hvs⟩

theorem RepresentsAll.extends {s s' : Store} (he : s.Extends s') (items : List Datum)
    (vs : List Value) (h : s.RepresentsAll items vs) : s'.RepresentsAll items vs := by
  cases items with
  | nil => exact h
  | cons d items =>
      obtain ⟨v, rest, rfl, hv, hrest⟩ := h
      exact ⟨v, rest, rfl, Represents.extends he d v hv, RepresentsAll.extends he items rest hrest⟩

end

mutual

/-- A datum that is loaded is represented by its value. -/
theorem load_represents (s : Store) (d : Datum) :
    s.Extends (s.load d).2 ∧ (s.load d).2.Represents d (s.load d).1 := by
  cases d with
  | nil | bool b | number n | char c | symbol name | keyword k => exact ⟨.refl s, rfl⟩
  | string t =>
      refine ⟨⟨id, getElem?_push_of_some, id, id⟩, s.strings.size, rfl, ?_⟩
      simp [load, newString]
  | bytes items =>
      refine ⟨⟨id, id, id, getElem?_push_of_some⟩, s.bytes.size, items.toArray, rfl, ?_, rfl⟩
      simp [load, newBytes]
  | pair a b =>
      obtain ⟨hea, ha⟩ := load_represents s a
      obtain ⟨heb, hb⟩ := load_represents (s.load a).2 b
      have hnew : ((s.load a).2.load b).2.Extends (s.load (.pair a b)).2 :=
        ⟨getElem?_push_of_some, id, id, id⟩
      refine ⟨(hea.trans heb).trans hnew, ?_⟩
      refine ⟨((s.load a).2.load b).2.pairs.size, ⟨(s.load a).1, ((s.load a).2.load b).1⟩, rfl,
        ?_, ?_, ?_⟩
      · simp [load, cons, pushPair]
      · exact Represents.extends (heb.trans hnew) a _ ha
      · exact Represents.extends hnew b _ hb
  | vector items =>
      obtain ⟨he, h⟩ := loadAll_represents s items
      have hnew : (s.loadAll items).2.Extends (s.load (.vector items)).2 :=
        ⟨id, id, getElem?_push_of_some, id⟩
      refine ⟨he.trans hnew, (s.loadAll items).2.vectors.size, (s.loadAll items).1.toArray, rfl,
        ?_, RepresentsAll.extends hnew items _ h⟩
      simp [load, newVector]

theorem loadAll_represents (s : Store) (ds : List Datum) :
    s.Extends (s.loadAll ds).2 ∧ (s.loadAll ds).2.RepresentsAll ds (s.loadAll ds).1 := by
  cases ds with
  | nil => exact ⟨.refl s, rfl⟩
  | cons d ds =>
      obtain ⟨hed, hd⟩ := load_represents s d
      obtain ⟨he, h⟩ := loadAll_represents (s.load d).2 ds
      exact ⟨hed.trans he, _, _, rfl, Represents.extends he d _ hd, h⟩

end

end Store
end LittleScheme
