import LittleScheme.Proofs.Readable
import LittleScheme.Proofs.Segments

/-!
# Texts that go on

A text that is incomplete ends inside a string or with a construct open. Text that is put after it
can bring the reader to an end, with data or with a fault, except in one case: a string in which a
backslash stands before a line end is never closed, whatever follows.
-/
namespace LittleScheme

namespace Token

/-- A string has a body that a closing quote can follow. -/
def Whole : Token → Prop
  | .string body => IsBody body.toList
  | _ => True

theorem scanHash_whole {cs rest : List Char} {t : Token} (h : scanHash cs = some (t, rest)) :
    t.Whole := by
  unfold scanHash at h
  split at h
  case h_7 =>
      split at h
      · simp at h
      · simp only [Option.some.injEq, Prod.mk.injEq] at h
        rw [← h.1]
        trivial
  case h_8 => simp at h
  all_goals
    simp only [Option.some.injEq, Prod.mk.injEq] at h
    rw [← h.1]
    trivial

theorem scan_whole {cs rest : List Char} {t : Token} (h : scan cs = some (t, rest)) : t.Whole := by
  unfold scan at h
  split at h
  case h_1 => simp at h
  case h_5 =>
      obtain ⟨⟨body, after⟩, hbody, he⟩ := Option.map_eq_some_iff.1 h
      rw [← (Prod.mk.inj he).1, Whole, String.toList_ofList]
      exact isBody_of_stringBody hbody
  case h_6 => exact scanHash_whole h
  case h_7 =>
      split at h <;>
      · rw [← (Prod.mk.inj (Option.some.inj h)).1]
        trivial
  case h_8 =>
      split at h
      · rw [← (Prod.mk.inj (Option.some.inj h)).1]
        trivial
      · simp at h
  all_goals
    rw [← (Prod.mk.inj (Option.some.inj h)).1]
    trivial

theorem Splits.whole {cs rest : List Char} {ts : List Token} (h : Splits cs ts rest) :
    ∀ t ∈ ts, t.Whole := by
  induction h with
  | done => simp
  | skip _ _ ih => exact ih
  | comment _ ih => exact ih
  | token _ _ hscan _ ih => exact List.forall_mem_cons.2 ⟨scan_whole hscan, ih⟩

end Token

namespace Reader

open Token (tokens Splits IsBody)

/-- All data of the characters of a text. -/
def readChars (cs : List Char) : Except Error (List Datum) := do readAll [] (← tokens cs)

theorem parseAll_eq_readChars (text : String) : parseAll text = readChars text.toList := rfl

theorem readChars_of_splits {cs : List Char} {ts : List Token} (h : Splits cs ts []) :
    readChars cs = readAll [] ts := by
  rw [readChars, h.tokens_eq]
  simp [Except.map, bind, Except.bind]

/-! ### What the reader can stop for -/

theorem unescape_ne_incomplete {body : List Char} (h : IsBody body) :
    unescape body ≠ .error .incomplete := by
  induction h with
  | nil => simp [unescape]
  | @plain c cs hquote hslash _ ih =>
      rw [unescape]
      · cases hrest : unescape cs with
        | ok => simp [Except.map]
        | error e => simpa [Except.map, hrest] using ih
      · exact hslash
  | @escape c cs hline _ ih =>
      rw [unescape]
      cases escape? c with
      | none => simp
      | some d =>
          cases hrest : unescape cs with
          | ok => simp [Except.map]
          | error e => simpa [Except.map, hrest] using ih

theorem byte_ne_incomplete (d : Datum) : byte d ≠ .error .incomplete := by
  unfold byte
  split
  · split <;> simp
  · simp

theorem mapM_byte_ne_incomplete (items : List Datum) : items.mapM byte ≠ .error .incomplete := by
  induction items with
  | nil => simp [pure, Except.pure]
  | cons d items ih =>
      rw [List.mapM_cons]
      cases hd : byte d with
      | error e =>
          have hne := byte_ne_incomplete d
          rw [hd] at hne
          simpa [bind, Except.bind] using hne
      | ok b =>
          cases hrest : items.mapM byte with
          | error e => simpa [bind, Except.bind, hrest] using ih
          | ok bs => simp [bind, Except.bind, pure, Except.pure]

theorem close_ne_incomplete (stack : List Open) : close stack ≠ .error .incomplete := by
  unfold close
  split
  case h_4 items rest =>
      have hne := mapM_byte_ne_incomplete items.reverse
      cases hbytes : items.reverse.mapM byte with
      | ok => simp [Except.map]
      | error e => simpa [Except.map, hbytes] using hne
  all_goals simp

theorem character_ne_incomplete (name : String) : character name ≠ .error .incomplete := by
  unfold character
  split
  · simp
  · dsimp only
    split <;> simp

/-- A token never leaves the reader waiting: only the end of the text does. -/
theorem step_ne_incomplete {t : Token} (h : t.Whole) (stack : List Open) :
    step stack t ≠ .error .incomplete := by
  unfold step
  split
  · exact close_ne_incomplete _
  · simp
  · cases t with
    | rightParen => exact close_ne_incomplete stack
    | dot => simp only [other, point]; split <;> simp
    | character name =>
        have hne := character_ne_incomplete name
        cases hc : character name with
        | ok => simp [other, hc, Except.map]
        | error e => simpa [other, hc, Except.map] using hne
    | string body =>
        have hne := unescape_ne_incomplete h
        cases hc : unescape body.toList with
        | ok => simp [other, hc, Except.map]
        | error e => simpa [other, hc, Except.map] using hne
    | _ => simp [other]

/-- Of two points in a row, one is at a place where none can be. -/
theorem readAll_points_ne_incomplete (stack : List Open) :
    readAll stack [.dot, .dot] ≠ .error .incomplete := by
  rcases stack with _ | ⟨_ | ⟨_, _ | _⟩ | _ | _ | _, stack⟩
  case cons.list items =>
      cases items <;> simp [readAll, step, other, point]
  all_goals simp [readAll, step, other, point]

/-- Two points bring every reader to an end. -/
theorem readAll_append_points_ne_incomplete {ts : List Token} (hts : ∀ t ∈ ts, t.Whole)
    (stack : List Open) : readAll stack (ts ++ [.dot, .dot]) ≠ .error .incomplete := by
  induction ts generalizing stack with
  | nil => exact readAll_points_ne_incomplete stack
  | cons t ts ih =>
      obtain ⟨ht, hts⟩ := List.forall_mem_cons.1 hts
      have hne := step_ne_incomplete ht stack
      rw [List.cons_append, readAll]
      cases hstep : step stack t with
      | error e => simpa [hstep] using hne
      | ok p =>
          cases p with
          | datum d =>
              have hrest := ih hts []
              cases hread : readAll [] (ts ++ [.dot, .dot]) with
              | ok ds => simp [Except.map]
              | error e => simpa [Except.map, hread] using hrest
          | within stack' => exact ih hts stack'

/-! ### Strings that no text closes -/

/-- A string is open in the text, and a backslash before a line end stands in it. -/
def HasBrokenString (cs : List Char) : Prop :=
  ∃ ts body rest, Splits cs ts ('"' :: (body ++ '\\' :: '\n' :: rest)) ∧ IsBody body

/-- The text is broken by its first string, in spite of the quotes that come after. -/
example : HasBrokenString ['(', '"', 'a', '\\', '\n', 'b', '"', ')'] :=
  ⟨[.leftParen], ['a'], ['b', '"', ')'], .token (by decide) (by decide) rfl (.done _),
    .plain (by decide) (by decide) .nil⟩

theorem HasBrokenString.append {cs : List Char} (h : HasBrokenString cs) (more : List Char) :
    HasBrokenString (cs ++ more) := by
  obtain ⟨ts, body, rest, hsplits, hbody⟩ := h
  refine ⟨ts, body, rest ++ more, ?_, hbody⟩
  simpa using hsplits.append_text more (.inl (by simp))

theorem HasBrokenString.readChars_eq {cs : List Char} (h : HasBrokenString cs) :
    readChars cs = .error .incomplete := by
  obtain ⟨ts, body, rest, hsplits, hbody⟩ := h
  have hstuck : Token.Stuck ('"' :: (body ++ '\\' :: '\n' :: rest)) := by
    refine ⟨by decide, by decide, ?_⟩
    simp [Token.scan, hbody.stringBody_append, Token.stringBody]
  rw [readChars, hsplits.tokens_eq, Token.tokens_stuck hstuck]
  rfl

/-- Two points on a line of their own. -/
theorem splits_points : Splits ['\n', '.', ' ', '.'] [.dot, .dot] [] :=
  .skip (by decide) <| .token (by decide) (by decide) rfl <| .skip (by decide) <|
    .token (by decide) (by decide) rfl (.done [])

/-- A string that is not broken is closed by a character and a quote: the character completes an
escape when the string ends in a backslash. -/
theorem splits_closed {cs : List Char} (hnone : Token.stringBody cs = none)
    (hbroken : ¬ ∃ body rest, IsBody body ∧ cs = body ++ '\\' :: '\n' :: rest) :
    ∃ t, Splits ('"' :: (cs ++ ['x', '"'])) [t] [] := by
  have hclosed : ∃ body, Token.stringBody (cs ++ ['x', '"']) = some (body, []) := by
    obtain ⟨body, hbody, ⟨rest, rfl⟩ | rfl | rfl | ⟨rest, rfl⟩⟩ := Token.exists_isBody cs
    · simp [hbody.stringBody_append, Token.stringBody] at hnone
    · exact ⟨cs ++ ['x'], by simp [hbody.stringBody_append, Token.stringBody]⟩
    · exact ⟨body ++ ['\\', 'x'], by simp [hbody.stringBody_append, Token.stringBody]⟩
    · exact absurd ⟨body, rest, hbody, rfl⟩ hbroken
  obtain ⟨body, hbody⟩ := hclosed
  exact ⟨_, .token (by decide) (by decide) (by simp only [Token.scan, hbody, Option.map_some]; rfl)
    (.done [])⟩

theorem exists_readChars_ne_incomplete {cs : List Char} (h : ¬ HasBrokenString cs) :
    ∃ more, readChars (cs ++ more) ≠ .error .incomplete := by
  obtain ⟨ts, rest, hsplits, rfl | hstuck⟩ := Splits.exists_end cs
  · have hpoints := (hsplits.append_text _ (.inr ⟨_, rfl⟩)).append splits_points
    refine ⟨['\n', '.', ' ', '.'], ?_⟩
    rw [readChars_of_splits hpoints]
    exact readAll_append_points_ne_incomplete hsplits.whole []
  · obtain @⟨c, rest, hskip, hcomment, hscan⟩ := hstuck
    by_cases hquote : c = '"'
    · subst hquote
      have hbroken : ¬ ∃ body after, IsBody body ∧ rest = body ++ '\\' :: '\n' :: after := by
        rintro ⟨body, after, hbody, rfl⟩
        exact h ⟨ts, body, after, hsplits, hbody⟩
      obtain ⟨t, hclosed⟩ := splits_closed (by simpa [Token.scan] using hscan) hbroken
      have hstring := (hsplits.append_text ['x', '"'] (.inl (by simp))).append hclosed
      have hpoints := (hstring.append_text _ (.inr ⟨_, rfl⟩)).append splits_points
      refine ⟨['x', '"'] ++ ['\n', '.', ' ', '.'], ?_⟩
      rw [← List.append_assoc, readChars_of_splits hpoints]
      exact readAll_append_points_ne_incomplete hstring.whole []
    · refine ⟨[], ?_⟩
      rw [List.append_nil, readChars, hsplits.tokens_eq,
        Token.tokens_stuck ⟨hskip, hcomment, hscan⟩, Token.stuckError, if_neg hquote]
      simp [Except.map, bind, Except.bind]

/-- More text can bring the reader of a text to an end, with data or with a fault, exactly when no
string of the text has a backslash before a line end. An incomplete text with such a string stays
incomplete for good. -/
theorem incomplete_has_continuation_iff (text : String) :
    (∃ more, parseAll (text ++ more) ≠ .error .incomplete) ↔ ¬ HasBrokenString text.toList := by
  constructor
  · rintro ⟨more, hmore⟩ hbroken
    apply hmore
    rw [parseAll_eq_readChars, String.toList_append]
    exact (hbroken.append more.toList).readChars_eq
  · intro hbroken
    obtain ⟨more, hmore⟩ := exists_readChars_ne_incomplete hbroken
    refine ⟨String.ofList more, ?_⟩
    rwa [parseAll_eq_readChars, String.toList_append, String.toList_ofList]

end Reader
end LittleScheme
