import LittleScheme.Proofs.Arithmetic
import LittleScheme.Proofs.Atomicity
import LittleScheme.Proofs.Literals
import Mathlib.Data.Nat.Digits.Defs

/-!
# The grammar of number literals

The literals are given by a grammar of their own, which says nothing about how a text is taken apart:
a sign that may be left out, digits with a point before, among or after them, and an exponent that may
be left out. A text of the grammar is an integer when it is digits with or without a sign and the
integer they denote has 64 bits; all others, and the four names, are reals. Nothing else is a number.
-/
namespace LittleScheme

namespace Number

/-! ### The grammar -/

/-- Decimal digits, at least one. -/
structure IsDigits (ds : List Char) : Prop where
  nonempty : ds ≠ []
  digits : ∀ c ∈ ds, '0' ≤ c ∧ c ≤ '9'

/-- A text of the kind `P`, with a sign before it or without. -/
inductive Signed (P : List Char → Prop) : List Char → Prop
  | bare {cs : List Char} : P cs → Signed P cs
  | plus {cs : List Char} : P cs → Signed P ('+' :: cs)
  | minus {cs : List Char} : P cs → Signed P ('-' :: cs)

/-- What digits denote in the decimal system. -/
def positional (ds : List Char) : Nat :=
  Nat.ofDigits 10 (ds.reverse.map fun c => c.toNat - '0'.toNat)

/-- The integer that digits denote, with a sign before them or without. -/
inductive SpellsInteger : List Char → Int → Prop
  | bare {ds : List Char} : IsDigits ds → SpellsInteger ds (positional ds)
  | plus {ds : List Char} : IsDigits ds → SpellsInteger ('+' :: ds) (positional ds)
  | minus {ds : List Char} : IsDigits ds → SpellsInteger ('-' :: ds) (-positional ds)

/-- Digits with a point after, among or before them, or with none. -/
inductive IsMantissa : List Char → Prop
  | whole {ds : List Char} : IsDigits ds → IsMantissa ds
  | pointed {ds fs : List Char} : IsDigits ds → fs = [] ∨ IsDigits fs → IsMantissa (ds ++ '.' :: fs)
  | fraction {fs : List Char} : IsDigits fs → IsMantissa ('.' :: fs)

/-- Nothing, or a mark and digits that may have a sign. -/
inductive IsExponent : List Char → Prop
  | none : IsExponent []
  | marked {mark : Char} {cs : List Char} : mark = 'e' ∨ mark = 'E' → Signed IsDigits cs →
      IsExponent (mark :: cs)

/-- A literal without its sign. -/
inductive IsMagnitude : List Char → Prop
  | mk {m e : List Char} : IsMantissa m → IsExponent e → IsMagnitude (m ++ e)

/-- A number literal. -/
def IsLiteral (cs : List Char) : Prop := Signed IsMagnitude cs

/-- The reals that have names. -/
def realNames : List String := ["+inf.0", "-inf.0", "+nan.0", "-nan.0"]

/-! ### Runs of digits -/

theorem isDigit_iff {c : Char} : isDigit c = true ↔ '0' ≤ c ∧ c ≤ '9' := by
  simp [isDigit]

theorem isDigits_iff {ds : List Char} : IsDigits ds ↔ ds ≠ [] ∧ ds.all isDigit = true := by
  rw [List.all_eq_true]
  simp only [isDigit_iff]
  exact ⟨fun h => ⟨h.nonempty, h.digits⟩, fun h => ⟨h.1, h.2⟩⟩

theorem IsDigits.all {ds : List Char} (h : IsDigits ds) : ∀ c ∈ ds, isDigit c = true :=
  fun c hc => isDigit_iff.2 (h.digits c hc)

theorem isDigits_takeWhile {cs : List Char} (h : cs.takeWhile isDigit ≠ []) :
    IsDigits (cs.takeWhile isDigit) :=
  isDigits_iff.2 ⟨h, List.all_takeWhile⟩

/-- Digits end where no digit follows. -/
theorem span_digits {ds rest : List Char} (h : ∀ c ∈ ds, isDigit c = true)
    (hrest : ∀ c ∈ rest.head?, isDigit c = false) :
    (ds ++ rest).takeWhile isDigit = ds ∧ (ds ++ rest).dropWhile isDigit = rest := by
  have hend : rest.takeWhile isDigit = [] ∧ rest.dropWhile isDigit = rest := by
    cases rest with
    | nil => simp
    | cons c rest => simp [hrest c (by simp)]
  rw [List.takeWhile_append_of_pos h, List.dropWhile_append_of_pos h, hend.1, hend.2]
  simp

theorem ofDigits_append_singleton (ds : List Char) (c : Char) :
    ofDigits (ds ++ [c]) = 10 * ofDigits ds + (c.toNat - '0'.toNat) := by
  simp [ofDigits]

/-- Reading digits from the left gives what the places of the digits say. -/
theorem ofDigits_eq_positional (ds : List Char) : ofDigits ds = positional ds := by
  induction ds using List.reverseRecOn with
  | nil => rfl
  | append_singleton ds c ih =>
      rw [ofDigits_append_singleton, ih, positional, positional, List.reverse_concat, List.map_cons,
        Nat.ofDigits_cons, add_comm]

/-! ### Signs -/

/-- What is left behind a sign says what the text is, for texts that do not start with a sign. -/
theorem signed_iff {P : List Char → Prop} (hP : ∀ cs, ¬ P ('+' :: cs) ∧ ¬ P ('-' :: cs))
    (cs : List Char) : Signed P cs ↔ P (takeSign cs).2 := by
  constructor
  · intro h
    cases h with
    | bare h =>
        unfold takeSign
        split
        · exact ((hP _).1 h).elim
        · exact ((hP _).2 h).elim
        · exact h
    | plus h => exact h
    | minus h => exact h
  · intro h
    unfold takeSign at h
    split at h
    · exact .plus h
    · exact .minus h
    · exact .bare h

theorem not_isDigits_sign (cs : List Char) : ¬ IsDigits ('+' :: cs) ∧ ¬ IsDigits ('-' :: cs) := by
  constructor <;> intro h
  · exact absurd (h.digits '+' (by simp)) (by decide)
  · exact absurd (h.digits '-' (by simp)) (by decide)

/-- A text spells an integer when digits are left behind its sign. -/
theorem spellsInteger_iff {cs : List Char} {n : Int} :
    SpellsInteger cs n ↔
      IsDigits (takeSign cs).2 ∧ n = signedInt (takeSign cs).1 (ofDigits (takeSign cs).2) := by
  constructor
  · intro h
    cases h with
    | bare h =>
        unfold takeSign
        split
        · exact ((not_isDigits_sign _).1 h).elim
        · exact ((not_isDigits_sign _).2 h).elim
        · exact ⟨h, by simp [signedInt, ofDigits_eq_positional]⟩
    | plus h => exact ⟨h, by simp [takeSign, signedInt, ofDigits_eq_positional]⟩
    | minus h => exact ⟨h, by simp [takeSign, signedInt, ofDigits_eq_positional]⟩
  · rintro ⟨h, rfl⟩
    unfold takeSign at h ⊢
    split at h
    · simpa [signedInt, ofDigits_eq_positional] using SpellsInteger.plus h
    · simpa [signedInt, ofDigits_eq_positional] using SpellsInteger.minus h
    · simpa [signedInt, ofDigits_eq_positional] using SpellsInteger.bare h

theorem integer?_eq_some_iff {cs : List Char} {n : Int64} :
    integer? cs = some n ↔ SpellsInteger cs n.toInt := by
  rw [spellsInteger_iff, isDigits_iff]
  simp only [integer?]
  split
  · rename_i hdigits
    rw [fit?_eq_some_iff]
    exact ⟨fun h => ⟨hdigits, h⟩, And.right⟩
  · rename_i hdigits
    exact ⟨fun h => absurd h (by simp), fun h => absurd h.1 hdigits⟩

/-! ### Points and exponents -/

theorem exponent?_isSome_iff {cs : List Char} : (exponent? cs).isSome = true ↔ IsExponent cs := by
  cases cs with
  | nil => simp [exponent?, IsExponent.none]
  | cons mark rest =>
      have hmarked : IsExponent (mark :: rest) ↔
          (mark = 'e' ∨ mark = 'E') ∧ Signed IsDigits rest := by
        constructor
        · rintro (_ | ⟨hmark, hrest⟩)
          exact ⟨hmark, hrest⟩
        · rintro ⟨hmark, hrest⟩
          exact .marked hmark hrest
      rw [hmarked, signed_iff not_isDigits_sign, isDigits_iff]
      simp only [exponent?]
      split <;> simp_all

/-- An exponent goes on neither a run of digits nor with a point. -/
theorem IsExponent.head {cs : List Char} (h : IsExponent cs) :
    ∀ c ∈ cs.head?, isDigit c = false ∧ c ≠ '.' := by
  cases h with
  | none => simp
  | marked hmark _ =>
      intro c hc
      obtain rfl : _ = c := by simpa using hc
      obtain rfl | rfl := hmark <;> decide

/-- The part of a literal from the point on, or from the exponent on. -/
def Ending (whole rest : List Char) : Prop :=
  (∃ fs e, rest = '.' :: (fs ++ e) ∧ (∀ c ∈ fs, isDigit c = true) ∧ (whole ≠ [] ∨ fs ≠ []) ∧
    IsExponent e) ∨ (whole ≠ [] ∧ IsExponent rest)

/-- A magnitude is a run of digits, which may be empty, and what can go on from it. -/
theorem isMagnitude_iff {cs : List Char} :
    IsMagnitude cs ↔ Ending (cs.takeWhile isDigit) (cs.dropWhile isDigit) := by
  constructor
  · rintro ⟨hm, he⟩
    have hend : ∀ c ∈ _, isDigit c = false := fun c hc => (he.head c hc).1
    have hpoint : ∀ fs, ∀ c ∈ ('.' :: fs : List Char).head?, isDigit c = false := by simp; decide
    cases hm with
    | whole hds =>
        rw [(span_digits hds.all hend).1, (span_digits hds.all hend).2]
        exact .inr ⟨hds.nonempty, he⟩
    | @pointed ds fs hds hfs =>
        have hall : ∀ c ∈ fs, isDigit c = true := by
          obtain rfl | hfs := hfs
          · simp
          · exact hfs.all
        rw [List.append_assoc, List.cons_append, (span_digits hds.all (hpoint _)).1,
          (span_digits hds.all (hpoint _)).2]
        exact .inl ⟨_, _, rfl, hall, .inl hds.nonempty, he⟩
    | fraction hfs =>
        have hdot : isDigit '.' = false := by decide
        rw [List.cons_append, List.takeWhile_cons_of_neg (by simp [hdot]),
          List.dropWhile_cons_of_neg (by simp [hdot])]
        exact .inl ⟨_, _, rfl, hfs.all, .inr hfs.nonempty, he⟩
  · intro h
    rw [← List.takeWhile_append_dropWhile (p := isDigit) (l := cs)]
    obtain ⟨fs, e, hrest, hfs, hne, he⟩ | ⟨hne, he⟩ := h
    · have hdigits : fs ≠ [] → IsDigits fs := fun hne => ⟨hne, fun c hc => isDigit_iff.1 (hfs c hc)⟩
      rw [hrest, ← List.cons_append, ← List.append_assoc]
      refine .mk ?_ he
      by_cases hwhole : cs.takeWhile isDigit = []
      · rw [hwhole]
        exact .fraction (hdigits (hne.resolve_left fun h => h hwhole))
      · exact .pointed (isDigits_takeWhile hwhole) (or_iff_not_imp_left.2 hdigits)
    · exact .mk (.whole (isDigits_takeWhile hne)) he

theorem not_isMagnitude_sign (cs : List Char) :
    ¬ IsMagnitude ('+' :: cs) ∧ ¬ IsMagnitude ('-' :: cs) := by
  have hsign : ∀ c, isDigit c = false → c ≠ '.' → ¬ IsMagnitude (c :: cs) := by
    intro c hc hdot h
    rw [isMagnitude_iff, List.takeWhile_cons_of_neg (by simp [hc]),
      List.dropWhile_cons_of_neg (by simp [hc])] at h
    obtain ⟨fs, e, hrest, -⟩ | ⟨hne, -⟩ := h
    · exact hdot (List.cons.inj hrest).1
    · exact hne rfl
  exact ⟨hsign '+' (by decide) (by decide), hsign '-' (by decide) (by decide)⟩

/-- The digits after a point are split off as those before it were. -/
theorem ending_point_iff {whole rest : List Char} :
    Ending whole ('.' :: rest) ↔ (whole ≠ [] ∨ rest.takeWhile isDigit ≠ []) ∧
      IsExponent (rest.dropWhile isDigit) := by
  constructor
  · rintro (⟨fs, e, hrest, hfs, hne, he⟩ | ⟨-, he⟩)
    · obtain rfl := (List.cons.inj hrest).2
      obtain ⟨htake, hdrop⟩ := span_digits hfs fun c hc => (he.head c hc).1
      rw [htake, hdrop]
      exact ⟨hne, he⟩
    · exact ((he.head '.' (by simp)).2 rfl).elim
  · rintro ⟨hne, he⟩
    refine .inl ⟨_, _, ?_, fun c hc => List.mem_takeWhile_imp hc, hne, he⟩
    rw [List.takeWhile_append_dropWhile]

theorem literal?_isSome_iff {cs : List Char} : (literal? cs).isSome = true ↔ IsLiteral cs := by
  rw [IsLiteral, signed_iff not_isMagnitude_sign, isMagnitude_iff]
  simp only [literal?]
  split
  · rename_i rest hrest
    rw [hrest, ending_point_iff, ← exponent?_isSome_iff]
    split
    · rename_i hempty
      simp [hempty.1, hempty.2]
    · rename_i hne
      rw [Option.isSome_map]
      exact ⟨fun he => ⟨not_and_or.1 hne, he⟩, And.right⟩
  · rename_i rest hrest
    have hending : Ending ((takeSign cs).2.takeWhile isDigit) ((takeSign cs).2.dropWhile isDigit) ↔
        (takeSign cs).2.takeWhile isDigit ≠ [] ∧ IsExponent ((takeSign cs).2.dropWhile isDigit) := by
      refine ⟨?_, .inr⟩
      rintro (⟨fs, e, hpoint, -⟩ | h)
      · exact (hrest _ hpoint).elim
      · exact h
    rw [hending, ← exponent?_isSome_iff]
    split
    · rename_i hempty
      simp [hempty]
    · rename_i hne
      simp [hne]

/-! ### Numbers, symbols and keywords -/

theorem lookup_eq_none {s : String} (h : s ∉ realNames) : namedReals.lookup s = none := by
  simp only [realNames, List.mem_cons, List.not_mem_nil, or_false, not_or] at h
  obtain ⟨h1, h2, h3, h4⟩ := h
  simp [namedReals, List.lookup_cons, beq_eq_false_iff_ne.2 h1, beq_eq_false_iff_ne.2 h2,
    beq_eq_false_iff_ne.2 h3, beq_eq_false_iff_ne.2 h4]

theorem parse?_named {s : String} (h : s ∈ realNames) : ∃ x, parse? s = some (.real x) := by
  simp only [realNames, List.mem_cons, List.not_mem_nil, or_false] at h
  obtain rfl | rfl | rfl | rfl := h <;> exact ⟨_, rfl⟩

theorem not_spellsInteger_named {s : String} (h : s ∈ realNames) (n : Int64) :
    ¬ SpellsInteger s.toList n.toInt := by
  have hnone : ∀ s ∈ realNames, integer? s.toList = none := by decide
  rw [← integer?_eq_some_iff, hnone s h]
  simp

theorem parse?_integer_iff {s : String} {n : Int64} :
    parse? s = some (.integer n) ↔ SpellsInteger s.toList n.toInt := by
  by_cases hname : s ∈ realNames
  · obtain ⟨x, hx⟩ := parse?_named hname
    simp [hx, not_spellsInteger_named hname n]
  · rw [← integer?_eq_some_iff, parse?, lookup_eq_none hname]
    cases integer? s.toList <;> simp

theorem parse?_real_iff {s : String} :
    (∃ x, parse? s = some (.real x)) ↔
      s ∈ realNames ∨ (IsLiteral s.toList ∧ ¬ ∃ n : Int64, SpellsInteger s.toList n.toInt) := by
  by_cases hname : s ∈ realNames
  · simp [hname, parse?_named]
  · simp only [hname, false_or, ← integer?_eq_some_iff, ← literal?_isSome_iff]
    rw [parse?, lookup_eq_none hname]
    cases integer? s.toList with
    | some n => simp
    | none => cases literal? s.toList <;> simp

theorem parse?_eq_none_iff {s : String} :
    parse? s = none ↔ (¬ ∃ n : Int64, parse? s = some (.integer n)) ∧
      ¬ ∃ x, parse? s = some (.real x) := by
  cases hs : parse? s with
  | none => simp
  | some m => cases m <;> simp

end Number

namespace Text

/-- A text without white space has none at its ends. -/
theorem trim_eq_self {cs : List Char} (h : ∀ c ∈ cs, isBlank c = false) : trim cs = cs := by
  have hdrop : ∀ ds : List Char, (∀ c ∈ ds, isBlank c = false) → ds.dropWhile isBlank = ds := by
    intro ds hds
    cases ds with
    | nil => rfl
    | cons c ds => simp [hds c (by simp)]
  rw [trim, hdrop cs h, hdrop cs.reverse (by simpa using h), List.reverse_reverse]

end Text

namespace Token

theorem IsAtom.not_isBlank {cs : List Char} (h : IsAtom cs) : ∀ c ∈ cs, Text.isBlank c = false := by
  have hplain : ∀ c, endsAtom c = false → Text.isBlank c = false := by
    intro c hc
    simp only [endsAtom, Bool.or_eq_false_iff] at hc
    exact hc.1.1.1.1.1
  obtain ⟨c, word, rfl, hword, hstart⟩ := h
  refine List.forall_mem_cons.2 ⟨?_, fun x hx => hplain x (hword x hx)⟩
  obtain hc | ⟨rfl, -⟩ := hstart
  · simp only [startsAtom, Bool.and_eq_true, Bool.not_eq_true'] at hc
    exact hplain c hc.1.1
  · decide

end Token

namespace Reader

theorem atom_number_iff {s : String} {m : Number} :
    atom s = .number m ↔ Number.parse? s = some m := by
  unfold atom
  split
  · rename_i n hn
    simp [hn]
  · rename_i hn
    rw [hn]
    split <;> simp

theorem name_of_ofName? {s : String} {k : Keyword} (h : Keyword.ofName? s = some k) : k.name = s := by
  have hname := List.find?_some h
  exact beq_iff_eq.1 hname

theorem atom_keyword_iff {s : String} {k : Keyword} : atom s = .keyword k ↔ s = k.name := by
  constructor
  · intro h
    unfold atom at h
    split at h
    · simp at h
    · split at h
      · rename_i k' hk
        obtain rfl : k' = k := by simpa using h
        exact (name_of_ofName? hk).symm
      · simp at h
  · rintro rfl
    exact atom_keyword k

theorem atom_symbol_iff {s name : String} :
    atom s = .symbol name ↔ s = name ∧ Number.parse? s = none ∧ ∀ k : Keyword, s ≠ k.name := by
  have hkeyword : Keyword.ofName? s = none ↔ ∀ k : Keyword, s ≠ k.name := by
    constructor
    · rintro h k rfl
      simp at h
    · intro h
      cases hk : Keyword.ofName? s with
      | none => rfl
      | some k => exact absurd (name_of_ofName? hk).symm (h k)
  rw [← hkeyword]
  unfold atom
  split
  · rename_i n hn
    simp [hn]
  · rename_i hn
    rw [hn]
    split
    · rename_i k hk
      simp [hk]
    · rename_i hk
      simp [hk]

end Reader

namespace Native

open Number

theorem call_numberToString (n : Int64) (s : Store) :
    ((texts .numberToString).call [.integer n]).run s =
      .ok (.value (s.newString (text (.integer n))).1) (s.newString (text (.integer n))).2 := rfl

theorem call_stringToNumber {r : Ref} {s : Store} {m : Number}
    (h : parse? (String.ofList (Text.trim (s.string r).toList)) = some m) :
    ((texts .stringToNumber).call [.string r]).run s = .ok (.value (.number m)) s := by
  have hrun : ((Texts.stringToNumber).run [.string r]).run s = .ok (.number m) s := by
    rw [Texts.run, Argument.string, Eval.run_ask_bind, h]
    rfl
  rw [run_call rfl, run, Eval.run_bind_ok hrun, Eval.run_pure]

/-- The text of an integer as a string is read back by the program itself. -/
theorem stringToNumber_numberToString (n : Int64) (s : Store) :
    ∃ (v : Value) (s' : Store),
      ((texts .numberToString).call [.integer n]).run s = .ok (.value v) s' ∧
      ((texts .stringToNumber).call [v]).run s' = .ok (.value (.integer n)) s' := by
  obtain ⟨hatom, hparse⟩ := integer_text n
  refine ⟨_, _, call_numberToString n s, call_stringToNumber ?_⟩
  have hstring : (s.newString (text (.integer n))).2.string s.strings.size = text (.integer n) := by
    simp [Store.newString, Store.string]
  rw [hstring, Text.trim_eq_self hatom.not_isBlank, String.ofList_toList, hparse]

/-- The numbers among all texts. A text is an integer when it is digits, maybe with a sign, that denote
one of 64 bits. It is a real when it is one of four names or a literal that is no such integer. No other
text is a number. The text written for an integer is read as that integer, by the reader and by a
running program, and what is a number to the reader is neither a symbol nor a keyword to it. -/
theorem number_literals_exact :
    (∀ (s : String) (n : Int64), parse? s = some (.integer n) ↔ SpellsInteger s.toList n.toInt) ∧
    (∀ s : String, (∃ x, parse? s = some (.real x)) ↔
      s ∈ realNames ∨ (IsLiteral s.toList ∧ ¬ ∃ n : Int64, SpellsInteger s.toList n.toInt)) ∧
    (∀ s : String, parse? s = none ↔ (¬ ∃ n : Int64, SpellsInteger s.toList n.toInt) ∧
      s ∉ realNames ∧ ¬ IsLiteral s.toList) ∧
    (∀ n : Int64, parse? (text (.integer n)) = some (.integer n)) ∧
    (∀ (n : Int64) (s : Store), ∃ (v : Value) (s' : Store),
      ((texts .numberToString).call [.integer n]).run s = .ok (.value v) s' ∧
      ((texts .stringToNumber).call [v]).run s' = .ok (.value (.integer n)) s') ∧
    (∀ s : String, (∃ m, Reader.atom s = .number m) ↔ (parse? s).isSome = true) ∧
    (∀ (s : String) (k : Keyword), Reader.atom s = .keyword k ↔ s = k.name) ∧
    ∀ s name : String, Reader.atom s = .symbol name ↔
      s = name ∧ parse? s = none ∧ ∀ k : Keyword, s ≠ k.name := by
  refine ⟨fun s n => parse?_integer_iff, fun s => parse?_real_iff, fun s => ?_,
    fun n => (integer_text n).2, stringToNumber_numberToString, fun s => ?_,
    fun s k => Reader.atom_keyword_iff, fun s name => Reader.atom_symbol_iff⟩
  · rw [parse?_eq_none_iff, parse?_real_iff]
    simp only [parse?_integer_iff]
    tauto
  · simp only [Reader.atom_number_iff, Option.isSome_iff_exists]

end Native
end LittleScheme
