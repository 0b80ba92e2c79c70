import LittleScheme.Proofs.Lexing
import LittleScheme.Reader

/-!
# The spelling of single tokens

The text that the printer writes for an atom, a character or a string is scanned as one token as
long as what follows cannot continue it, and the token denotes what was written.
-/
namespace LittleScheme

namespace Token

/-- What may stand after a token: nothing, a blank or a closing parenthesis. -/
def Delimited (rest : List Char) : Prop := ∀ c ∈ rest.head?, c = ' ' ∨ c = '\n' ∨ c = ')'

@[simp] theorem delimited_nil : Delimited [] := by simp [Delimited]

theorem delimited_cons {c : Char} (h : c = ' ' ∨ c = '\n' ∨ c = ')') (rest : List Char) :
    Delimited (c :: rest) := by
  simpa [Delimited] using h

/-- A run of characters that a test accepts ends where the text is delimited. -/
theorem span_delimited {p : Char → Bool} {word rest : List Char} (hw : ∀ c ∈ word, p c = true)
    (hr : Delimited rest) (hp : p ' ' = false ∧ p '\n' = false ∧ p ')' = false) :
    (word ++ rest).takeWhile p = word ∧ (word ++ rest).dropWhile p = rest := by
  have hend : rest.takeWhile p = [] ∧ rest.dropWhile p = rest := by
    cases rest with
    | nil => simp
    | cons c rest =>
        have hc : p c = false := by
          rcases hr c (by simp) with rfl | rfl | rfl
          · exact hp.1
          · exact hp.2.1
          · exact hp.2.2
        simp [hc]
  rw [List.takeWhile_append_of_pos hw, List.dropWhile_append_of_pos hw, hend.1, hend.2]
  simp

/-- The spelling of an atom: the point alone is none, and a longer one may start with it. -/
def IsAtom (cs : List Char) : Prop :=
  ∃ c word, cs = c :: word ∧ (∀ x ∈ word, endsAtom x = false) ∧
    (startsAtom c = true ∨ (c = '.' ∧ word ≠ []))

theorem plain_of_all {cs : List Char} (h : cs.all (fun c => !endsAtom c) = true) :
    ∀ c ∈ cs, endsAtom c = false := by
  simpa using h

theorem atomRest_delimited {word rest : List Char} (hw : ∀ x ∈ word, endsAtom x = false)
    (hr : Delimited rest) : atomRest (word ++ rest) = (word, rest) := by
  have h := span_delimited (p := fun c => !endsAtom c)
    (show ∀ x ∈ word, (!endsAtom x) = true by simpa using hw) hr
    (by decide)
  simp [atomRest, h.1, h.2]

theorem startsAtom_ne {c d : Char} (h : startsAtom c = true) (hd : startsAtom d = false) :
    c ≠ d := by
  rintro rfl
  simp [h] at hd

/-- An atom is scanned as a whole. -/
theorem scan_atom {cs rest : List Char} (h : IsAtom cs) (hr : Delimited rest) :
    scan (cs ++ rest) = some (.atom (String.ofList cs), rest) := by
  obtain ⟨c, word, rfl, hw, hc | ⟨rfl, hne⟩⟩ := h
  · have h1 : c ≠ '(' := startsAtom_ne hc (by decide)
    have h2 : c ≠ ')' := startsAtom_ne hc (by decide)
    have h3 : c ≠ '\'' := startsAtom_ne hc (by decide)
    have h4 : c ≠ '"' := startsAtom_ne hc (by decide)
    have h5 : c ≠ '#' := startsAtom_ne hc (by decide)
    have h6 : c ≠ '.' := startsAtom_ne hc (by decide)
    rw [List.cons_append, scan]
    · simp [hc, atomRest_delimited hw hr]
    all_goals assumption
  · rw [List.cons_append, scan]
    simp only [atomRest_delimited hw hr]

theorem isSkipped_eq_false {c : Char} (h : startsAtom c = true ∨ c = '.') :
    isSkipped c = false ∧ c ≠ ';' := by
  rcases h with h | rfl
  · have hs : ∀ d, startsAtom d = false → c ≠ d := fun d hd => startsAtom_ne h hd
    refine ⟨?_, hs ';' (by decide)⟩
    simp [isSkipped, hs ' ' (by decide), hs '\t' (by decide), hs '\r' (by decide),
      hs '\n' (by decide), hs '\x0c' (by decide)]
  · decide

theorem tokens_atom {cs rest : List Char} (h : IsAtom cs) (hr : Delimited rest) :
    tokens (cs ++ rest) = (tokens rest).map (.atom (String.ofList cs) :: ·) := by
  have hscan := scan_atom h hr
  obtain ⟨c, word, rfl, hw, hc⟩ := h
  obtain ⟨hs, hsemi⟩ := isSkipped_eq_false (hc.imp id And.left)
  exact tokens_scan hs hsemi hscan

theorem tokens_leftParen (rest : List Char) :
    tokens ('(' :: rest) = (tokens rest).map (.leftParen :: ·) :=
  tokens_scan (by decide) (by decide) rfl

theorem tokens_rightParen (rest : List Char) :
    tokens (')' :: rest) = (tokens rest).map (.rightParen :: ·) :=
  tokens_scan (by decide) (by decide) rfl

theorem tokens_vectorOpen (rest : List Char) :
    tokens ('#' :: '(' :: rest) = (tokens rest).map (.vectorOpen :: ·) :=
  tokens_scan (by decide) (by decide) rfl

theorem tokens_bytesOpen (rest : List Char) :
    tokens ('#' :: 'v' :: 'u' :: '8' :: '(' :: rest) = (tokens rest).map (.bytesOpen :: ·) :=
  tokens_scan (by decide) (by decide) rfl

/-- A point with a blank on both sides. -/
theorem tokens_dot (rest : List Char) :
    tokens (' ' :: '.' :: ' ' :: rest) = (tokens rest).map (.dot :: ·) := by
  rw [tokens_skip (by decide)]
  have hword : atomRest (' ' :: rest) = ([], ' ' :: rest) :=
    atomRest_delimited (List.forall_mem_nil _) (delimited_cons (.inl rfl) rest)
  have hscan : scan ('.' :: ' ' :: rest) = some (.dot, ' ' :: rest) := by simp [scan, hword]
  rw [tokens_scan (by decide) (by decide) hscan, tokens_skip (by decide)]

theorem tokens_bool (b : Bool) {rest : List Char} (hr : Delimited rest) :
    tokens ((if b then "#t" else "#f").toList ++ rest) =
      (tokens rest).map ((if b then .yes else .no) :: ·) := by
  have hhash : ∀ cs t, scanHash cs = some (t, rest) →
      tokens ('#' :: cs) = (tokens rest).map (t :: ·) := by
    intro cs t h
    exact tokens_scan (by decide) (by decide) (by simpa [scan] using h)
  cases b
  · refine hhash ('f' :: rest) .no ?_
    unfold scanHash
    split <;> simp_all [Delimited]
  · refine hhash ('t' :: rest) .yes ?_
    unfold scanHash
    split <;> simp_all [Delimited]

/-! ### Characters -/

/-- The name of a character is the character itself or letters. -/
theorem charName_cases (c : Char) :
    (∃ w ∈ Text.charNames, Text.charName c = w.1 ∧ w.2 = c) ∨
      (Text.charName c = String.singleton c ∧ ∀ w ∈ Text.charNames, w.2 ≠ c) := by
  unfold Text.charName
  cases h : Text.charNames.find? fun entry => entry.2 == c with
  | none =>
      refine .inr ⟨rfl, fun w hw he => ?_⟩
      have := List.find?_eq_none.1 h w hw
      simp [he] at this
  | some w =>
      have hw := List.find?_some h
      exact .inl ⟨w, List.mem_of_find?_eq_some h, rfl, by simpa using hw⟩

/-- Every written name of a character starts with one that is no line end, and goes on with letters
only. -/
theorem charName_toList (c : Char) :
    ∃ d word, (Text.charName c).toList = d :: word ∧ d ≠ '\n' ∧
      ∀ x ∈ word, x.isAlphanum = true := by
  rcases charName_cases c with ⟨w, hw, he, -⟩ | ⟨he, hnone⟩
  · have hall : ∀ w ∈ Text.charNames, ∃ d word, w.1.toList = d :: word ∧ d ≠ '\n' ∧
        ∀ x ∈ word, x.isAlphanum = true := by
      intro w hw
      simp only [Text.charNames, List.mem_cons, List.not_mem_nil, or_false] at hw
      rcases hw with rfl | rfl | rfl | rfl | rfl | rfl | rfl | rfl | rfl | rfl <;>
        exact ⟨_, _, rfl, by decide, List.all_eq_true.1 (by decide)⟩
    rw [he]
    exact hall w hw
  · refine ⟨c, [], by simp [he], fun hc => ?_, by simp⟩
    exact hnone ("newline", '\n') (by simp [Text.charNames]) hc.symm

theorem tokens_char (c : Char) {rest : List Char} (hr : Delimited rest) :
    tokens ((Text.charText .write c).toList ++ rest) =
      (tokens rest).map (.character (Text.charName c) :: ·) := by
  obtain ⟨d, word, hname, hd, hw⟩ := charName_toList c
  have hspan := span_delimited hw hr (by decide)
  have hscan : scan ('#' :: '\\' :: d :: (word ++ rest)) =
      some (.character (String.ofList (d :: word)), rest) := by
    simp [scan, scanHash, hd, hspan.1, hspan.2]
  have htext : (Text.charText .write c).toList ++ rest = '#' :: '\\' :: d :: (word ++ rest) := by
    simp [Text.charText, hname]
  rw [htext, tokens_scan (by decide) (by decide) hscan, ← hname, String.ofList_toList]

/-! ### Strings -/

theorem stringBody_escapeChar (c : Char) (cs : List Char) :
    stringBody (Text.escapeChar c ++ cs) =
      (stringBody cs).map fun found => (Text.escapeChar c ++ found.1, found.2) := by
  unfold Text.escapeChar
  split
  case h_6 h1 h2 h3 h4 h5 =>
      rw [List.singleton_append, stringBody]
      · simp
      · exact fun h => h1 h
      · exact fun h => h2 h
  all_goals simp [stringBody]

/-- The closing quote is found behind the escaped contents. -/
theorem stringBody_escaped (cs rest : List Char) :
    stringBody (cs.flatMap Text.escapeChar ++ '"' :: rest) =
      some (cs.flatMap Text.escapeChar, rest) := by
  induction cs with
  | nil => simp [stringBody]
  | cons c cs ih =>
      rw [List.flatMap_cons, List.append_assoc, stringBody_escapeChar, ih]
      rfl

theorem tokens_string (s : String) (rest : List Char) :
    tokens ((Text.stringText .write s).toList ++ rest) =
      (tokens rest).map (.string (String.ofList (s.toList.flatMap Text.escapeChar)) :: ·) := by
  have hscan : scan ('"' :: (s.toList.flatMap Text.escapeChar ++ '"' :: rest)) =
      some (.string (String.ofList (s.toList.flatMap Text.escapeChar)), rest) := by
    simp only [scan, stringBody_escaped, Option.map_some]
  have htext : (Text.stringText .write s).toList ++ rest =
      '"' :: (s.toList.flatMap Text.escapeChar ++ '"' :: rest) := by
    simp [Text.stringText]
  rw [htext, tokens_scan (by decide) (by decide) hscan]

end Token

end LittleScheme
