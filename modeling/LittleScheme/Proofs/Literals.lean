import LittleScheme.Proofs.Spelling

/-!
# What the literals denote

The texts written for integers, reals, keywords, characters and strings are spellings of tokens, and
the reader takes each token for what was written. For a real this rests on one assumption: its
shortest text, read as a number, gives the same real.
-/
namespace LittleScheme

namespace Token

theorem endsAtom_eq_false {c : Char} (h : 33 ≤ c.toNat) (hc : c.toNat ≤ 126)
    (hne : c.toNat ≠ 34 ∧ c.toNat ≠ 39 ∧ c.toNat ≠ 40 ∧ c.toNat ≠ 41 ∧ c.toNat ≠ 59) :
    endsAtom c = false := by
  have hchar : ∀ d : Char, c.toNat ≠ d.toNat → c ≠ d := fun d hd he => hd (he ▸ rfl)
  have hblank : Text.isBlank c = false := by
    simp [Text.isBlank, Text.inRanges, Text.blankRanges]
    omega
  simp [endsAtom, hblank, hchar '(' hne.2.2.1, hchar ')' hne.2.2.2.1, hchar '\'' hne.2.1,
    hchar '"' hne.1, hchar ';' hne.2.2.2.2]

theorem endsAtom_of_isDigit {c : Char} (h : c.isDigit = true) : endsAtom c = false := by
  have hd := Char.isDigit_iff_toNat.1 h
  simp only [Char.reduceToNat] at hd
  exact endsAtom_eq_false (by omega) (by omega) (by omega)

theorem startsAtom_of_isDigit {c : Char} (h : c.isDigit = true) : startsAtom c = true := by
  have hne : c ≠ '#' ∧ c ≠ '.' := by
    constructor <;> rintro rfl <;> simp at h
  simp [startsAtom, endsAtom_of_isDigit h, hne.1, hne.2]

/-- Digits, with or without a sign before them. -/
theorem isAtom_digits (n : Nat) : IsAtom (Nat.toDigits 10 n) := by
  have hall : ∀ c ∈ Nat.toDigits 10 n, c.isDigit = true :=
    fun c hc => Nat.isDigit_of_mem_toDigits (by decide) (by decide) hc
  cases h : Nat.toDigits 10 n with
  | nil => exact absurd h Nat.toDigits_ne_nil
  | cons c word =>
      rw [h] at hall
      refine ⟨c, word, rfl, fun x hx => ?_, .inl ?_⟩
      · exact endsAtom_of_isDigit (hall x (by simp [hx]))
      · exact startsAtom_of_isDigit (hall c (by simp))

theorem isAtom_minus_digits (n : Nat) : IsAtom ('-' :: Nat.toDigits 10 n) := by
  refine ⟨'-', _, rfl, fun x hx => ?_, .inl (by decide)⟩
  exact endsAtom_of_isDigit (Nat.isDigit_of_mem_toDigits (by decide) (by decide) hx)

end Token

namespace Number

theorem isDigit_eq (c : Char) : isDigit c = c.isDigit := by
  rw [Bool.eq_iff_iff, Char.isDigit_iff_toNat]
  simp only [isDigit, Bool.and_eq_true, decide_eq_true_eq]
  rfl

theorem ofDigits_toDigits (n : Nat) : ofDigits (Nat.toDigits 10 n) = n := by
  have h := Nat.ofDigitChars_ten_toDigits (n := n)
  rwa [Nat.ofDigitChars_eq_foldl] at h

theorem all_isDigit_toDigits (n : Nat) : (Nat.toDigits 10 n).all isDigit = true := by
  rw [List.all_eq_true]
  intro c hc
  rw [isDigit_eq]
  exact Nat.isDigit_of_mem_toDigits (by decide) (by decide) hc

/-- A real written by name has an `n` in its name. -/
theorem namedReals_lookup {s : String} (h : 'n' ∉ s.toList) : namedReals.lookup s = none := by
  have hne : ∀ t : String, 'n' ∈ t.toList → (s == t) = false := by
    intro t ht
    rw [beq_eq_false_iff_ne]
    rintro rfl
    exact h ht
  simp [namedReals, List.lookup_cons, hne "+inf.0" (by decide), hne "-inf.0" (by decide),
    hne "+nan.0" (by decide), hne "-nan.0" (by decide)]

theorem n_notMem_toDigits (n : Nat) : 'n' ∉ Nat.toDigits 10 n := by
  intro h
  have := Nat.isDigit_of_mem_toDigits (by decide) (by decide) h
  simp at this

/-- Digits denote the integer they spell, as long as it fits. -/
theorem parse?_digits {n : Nat} (h : (n : Int) ≤ greatest) :
    parse? (String.ofList (Nat.toDigits 10 n)) = some (.integer (Int64.ofInt n)) := by
  have hsign : takeSign (Nat.toDigits 10 n) = (false, Nat.toDigits 10 n) := by
    have hall : ∀ c ∈ Nat.toDigits 10 n, c.isDigit = true :=
      fun c hc => Nat.isDigit_of_mem_toDigits (by decide) (by decide) hc
    unfold takeSign
    split
    · rename_i heq
      rw [heq] at hall
      exact absurd (hall '+' (by simp)) (by decide)
    · rename_i heq
      rw [heq] at hall
      exact absurd (hall '-' (by simp)) (by decide)
    · rfl
  have hfit : fit? (n : Int) = some (Int64.ofInt n) := by
    have : least ≤ (n : Int) := by simp only [least]; omega
    simp [fit?, this, h]
  have hint : integer? (Nat.toDigits 10 n) = some (Int64.ofInt n) := by
    simp [integer?, hsign, Nat.toDigits_ne_nil, all_isDigit_toDigits, signedInt, ofDigits_toDigits,
      hfit]
  rw [parse?, namedReals_lookup (by simpa using n_notMem_toDigits n)]
  simp [hint]

theorem parse?_minus_digits {n : Nat} (h : least ≤ -(n : Int)) :
    parse? (String.ofList ('-' :: Nat.toDigits 10 n)) = some (.integer (Int64.ofInt (-n))) := by
  have hfit : fit? (-(n : Int)) = some (Int64.ofInt (-n)) := by
    have : -(n : Int) ≤ greatest := by simp only [greatest]; omega
    simp [fit?, this, h]
  have hint : integer? ('-' :: Nat.toDigits 10 n) = some (Int64.ofInt (-n)) := by
    simp [integer?, takeSign, Nat.toDigits_ne_nil, all_isDigit_toDigits, signedInt,
      ofDigits_toDigits, hfit]
  rw [parse?, namedReals_lookup (by simpa using n_notMem_toDigits n)]
  simp [hint]

theorem toInt_bounds (n : Int64) : least ≤ n.toInt ∧ n.toInt ≤ greatest := by
  have hlow := n.minValue_le_toInt
  have hhigh := n.toInt_le
  simp only [least, greatest]
  exact ⟨hlow, hhigh⟩

/-- An integer is written as an atom that denotes it. -/
theorem integer_text (n : Int64) :
    Token.IsAtom (text (.integer n)).toList ∧ parse? (text (.integer n)) = some (.integer n) := by
  obtain ⟨hlow, hhigh⟩ := toInt_bounds n
  cases hn : n.toInt with
  | ofNat m =>
      have htext : text (.integer n) = String.ofList (Nat.toDigits 10 m) := by
        simp only [text, hn]
        exact Nat.repr_eq_ofList_toDigits
      have hm : (m : Int) = n.toInt := hn.symm
      rw [htext, String.toList_ofList, parse?_digits (by rw [hm]; exact hhigh), hm]
      simp [Token.isAtom_digits]
  | negSucc m =>
      have htext : text (.integer n) = String.ofList ('-' :: Nat.toDigits 10 (m + 1)) := by
        have happ : "-" ++ Nat.repr (m + 1) = String.ofList ('-' :: Nat.toDigits 10 (m + 1)) := by
          rw [Nat.repr_eq_ofList_toDigits]
          exact (@String.ofList_append ['-'] _).symm
        simp only [text, hn]
        exact happ
      have hm : -((m + 1 : Nat) : Int) = n.toInt := hn.symm
      rw [htext, String.toList_ofList, parse?_minus_digits (by rw [hm]; exact hlow), hm]
      simp [Token.isAtom_minus_digits]

end Number

namespace Inexact

open Token

/-- Texts that an atom can go on with, and those it can start with. -/
theorem plain_append {a b : String} (ha : ∀ c ∈ a.toList, endsAtom c = false)
    (hb : ∀ c ∈ b.toList, endsAtom c = false) : ∀ c ∈ (a ++ b).toList, endsAtom c = false := by
  intro c hc
  rw [String.toList_append, List.mem_append] at hc
  exact hc.elim (ha c) (hb c)

theorem plain_digits {ds : List Char} (h : ∀ c ∈ ds, c.isDigit = true) :
    ∀ c ∈ (String.ofList ds).toList, endsAtom c = false := by
  intro c hc
  rw [String.toList_ofList] at hc
  exact endsAtom_of_isDigit (h c hc)

theorem plain_zeros (n : Nat) : ∀ c ∈ (zeros n).toList, endsAtom c = false := by
  refine plain_digits fun c hc => ?_
  rw [(List.mem_replicate.1 hc).2]
  decide

theorem plain_int (n : Int) : ∀ c ∈ (toString n).toList, endsAtom c = false := by
  cases n with
  | ofNat m =>
      change ∀ c ∈ (Nat.repr m).toList, _
      rw [Nat.repr_eq_ofList_toDigits]
      exact plain_digits fun c hc => Nat.isDigit_of_mem_toDigits (by decide) (by decide) hc
  | negSucc m =>
      change ∀ c ∈ ("-" ++ Nat.repr (m + 1)).toList, _
      rw [Nat.repr_eq_ofList_toDigits]
      refine plain_append (plain_of_all (by decide)) ?_
      exact plain_digits fun c hc => Nat.isDigit_of_mem_toDigits (by decide) (by decide) hc

/-- A text that starts like a number and has no delimiter in it. -/
def NumberLike (t : String) : Prop :=
  (∃ c ∈ t.toList.head?, startsAtom c = true) ∧ ∀ c ∈ t.toList, endsAtom c = false

theorem NumberLike.isAtom {t : String} (h : NumberLike t) : IsAtom t.toList := by
  obtain ⟨⟨c, hc, hstart⟩, hplain⟩ := h
  cases ht : t.toList with
  | nil => simp [ht] at hc
  | cons d word =>
      rw [ht] at hc hplain
      simp only [List.head?_cons, Option.mem_some] at hc
      exact ⟨d, word, rfl, fun x hx => hplain x (by simp [hx]), .inl (hc ▸ hstart)⟩

theorem numberLike_append {a b : String} (ha : NumberLike a)
    (hb : ∀ c ∈ b.toList, endsAtom c = false) : NumberLike (a ++ b) := by
  obtain ⟨⟨c, hc, hstart⟩, hplain⟩ := ha
  refine ⟨⟨c, ?_, hstart⟩, plain_append hplain hb⟩
  rw [String.toList_append, List.head?_append, Option.mem_def.1 hc]
  rfl

theorem numberLike_digits {ds : List Char} (hne : ds ≠ []) (h : ∀ c ∈ ds, c.isDigit = true) :
    NumberLike (String.ofList ds) := by
  refine ⟨?_, plain_digits h⟩
  cases ds with
  | nil => contradiction
  | cons d ds =>
      refine ⟨d, by simp, ?_⟩
      exact startsAtom_of_isDigit (h d (by simp))

theorem numberLike_positional {ds : List Char} (hne : ds ≠ []) (h : ∀ c ∈ ds, c.isDigit = true)
    (lead : Int) : NumberLike (standard.positional ds lead) := by
  have htake : ∀ n, ∀ c ∈ ds.take n, c.isDigit = true := fun n c hc => h c (List.mem_of_mem_take hc)
  have hdrop : ∀ n, ∀ c ∈ ds.drop n, c.isDigit = true := fun n c hc => h c (List.mem_of_mem_drop hc)
  unfold Format.positional
  split
  · refine numberLike_append (numberLike_append ⟨⟨'0', by simp, by decide⟩, plain_of_all (by decide)⟩ ?_) ?_
    · exact plain_zeros _
    · exact plain_digits h
  · dsimp only
    split
    · refine numberLike_append (numberLike_append (numberLike_digits hne h) (plain_zeros _)) ?_
      exact plain_of_all (by decide)
    · have htne : ds.take (lead.toNat + 1) ≠ [] := by
        cases ds with
        | nil => contradiction
        | cons d ds => simp
      refine numberLike_append (numberLike_append (numberLike_digits htne (htake _)) ?_) ?_
      · exact plain_of_all (by decide)
      · exact plain_digits (hdrop _)

theorem numberLike_scientific {ds : List Char} (hne : ds ≠ []) (h : ∀ c ∈ ds, c.isDigit = true)
    (lead : Int) : NumberLike (standard.scientific ds lead) := by
  have htake : ∀ c ∈ ds.take 1, c.isDigit = true := fun c hc => h c (List.mem_of_mem_take hc)
  have hdrop : ∀ c ∈ ds.drop 1, c.isDigit = true := fun c hc => h c (List.mem_of_mem_drop hc)
  have htne : ds.take 1 ≠ [] := by
    cases ds with
    | nil => contradiction
    | cons d ds => simp
  unfold Format.scientific
  refine numberLike_append (numberLike_append (numberLike_append
    (numberLike_digits htne htake) ?_) ?_) (plain_int lead)
  · split
    · exact plain_of_all (by decide)
    · exact plain_append (plain_of_all (by decide)) (plain_digits hdrop)
  · exact plain_of_all (by decide)

theorem numberLike_magnitude (p : Parts) : NumberLike (standard.magnitude p) := by
  have hdigits : ∀ c ∈ Nat.toDigits 10 p.shortest.coefficient, c.isDigit = true :=
    fun c hc => Nat.isDigit_of_mem_toDigits (by decide) (by decide) hc
  unfold Format.magnitude
  split
  · exact ⟨⟨'0', by decide, by decide⟩, plain_of_all (by decide)⟩
  · simp only
    split
    · exact numberLike_positional Nat.toDigits_ne_nil hdigits _
    · exact numberLike_scientific Nat.toDigits_ne_nil hdigits _

/-- A real is written as an atom. -/
theorem isAtom_text (x : Float) : IsAtom (text x).toList := by
  apply NumberLike.isAtom
  unfold text Format.text
  split
  · rename_i p _
    have hp := numberLike_magnitude p
    split
    · exact numberLike_append ⟨⟨'-', by decide, by decide⟩, plain_of_all (by decide)⟩ hp.2
    · rwa [String.empty_append]
  · split
    · exact ⟨⟨'+', by decide, by decide⟩, plain_of_all (by decide)⟩
    · split
      · exact ⟨⟨'+', by decide, by decide⟩, plain_of_all (by decide)⟩
      · exact ⟨⟨'-', by decide, by decide⟩, plain_of_all (by decide)⟩

end Inexact

namespace Reader

theorem parse?_keyword (k : Keyword) : Number.parse? k.name = none := by
  have hlook : Number.namedReals.lookup k.name = none := by cases k <;> rfl
  have hint : Number.integer? k.name.toList = none := by cases k <;> decide
  have hlit : Number.literal? k.name.toList = none := by cases k <;> decide
  simp [Number.parse?, hlook, hint, hlit]

theorem isAtom_keyword (k : Keyword) : Token.IsAtom k.name.toList := by
  cases k <;> exact ⟨_, _, rfl, Token.plain_of_all (by decide), .inl (by decide)⟩

theorem atom_keyword (k : Keyword) : atom k.name = .keyword k := by
  simp [atom, parse?_keyword]

/-- A name that the reader takes for a symbol: the spelling of an atom that is neither a number nor
reserved. -/
structure IsSymbolName (name : String) : Prop where
  spelling : Token.IsAtom name.toList
  notNumber : (Number.parse? name).isNone = true
  notKeyword : Keyword.ofName? name = none

theorem IsSymbolName.atom_eq {name : String} (h : IsSymbolName name) :
    atom name = .symbol name := by
  simp [atom, Option.isNone_iff_eq_none.1 h.notNumber, h.notKeyword]

theorem character_charName (c : Char) : character (Text.charName c) = .ok (.char c) := by
  rcases Token.charName_cases c with ⟨w, hw, he, rfl⟩ | ⟨he, -⟩
  · rw [he]
    simp only [Text.charNames, List.mem_cons, List.not_mem_nil, or_false] at hw
    rcases hw with rfl | rfl | rfl | rfl | rfl | rfl | rfl | rfl | rfl | rfl <;> rfl
  · simp [he, character]

theorem unescape_escapeChar (c : Char) (cs : List Char) :
    unescape (Text.escapeChar c ++ cs) = (unescape cs).map (c :: ·) := by
  unfold Text.escapeChar
  split
  case h_6 h1 h2 h3 h4 h5 =>
      rw [List.singleton_append, unescape]
      exact fun h => h2 h
  all_goals simp [unescape, escape?]

theorem unescape_escaped (cs : List Char) : unescape (cs.flatMap Text.escapeChar) = .ok cs := by
  induction cs with
  | nil => rfl
  | cons c cs ih =>
      rw [List.flatMap_cons, unescape_escapeChar, ih]
      rfl

/-- A byte is written as an atom that denotes it. -/
theorem byte_text (b : UInt8) :
    Token.IsAtom (toString b.toNat).toList ∧
      byte (atom (toString b.toNat)) = .ok b := by
  have htext : toString b.toNat = String.ofList (Nat.toDigits 10 b.toNat) :=
    Nat.repr_eq_ofList_toDigits
  have hlt : b.toNat < 256 := b.toNat_lt
  have hparse := Number.parse?_digits (n := b.toNat) (by simp only [Number.greatest]; omega)
  have hint : (Int64.ofInt (b.toNat : Int)).toInt = b.toNat :=
    Int64.toInt_ofInt_of_le (by omega) (by omega)
  refine ⟨by rw [htext, String.toList_ofList]; exact Token.isAtom_digits _, ?_⟩
  have hatom : atom (toString b.toNat) = .number (.integer (Int64.ofInt b.toNat)) := by
    simp [atom, htext, hparse]
  rw [hatom, byte, hint, if_pos ⟨by omega, by omega⟩]
  simp

end Reader

end LittleScheme
