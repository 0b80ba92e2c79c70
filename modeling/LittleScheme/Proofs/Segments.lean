import LittleScheme.Proofs.Lexing
import Mathlib.Data.List.TakeWhile

/-!
# Tokens at the front of a text

`Splits cs ts rest` says that the lexer gets through `cs` up to `rest` and finds the tokens `ts` on
the way. Every token is scanned with all of the text after it in sight, so the relation composes. It
answers what happens to the tokens of a text when more text is put after it: nothing at all when the
new text starts on a new line, or when the lexer is still inside a string.
-/
namespace LittleScheme.Token

/-! ### One token and the text after it -/

/-- Whoever goes through `cs` and on into `more` meets a character with the property `P`, at the
first character of `more` at the latest. -/
def Closed (P : Char → Prop) (cs more : List Char) : Prop :=
  (∃ c ∈ cs, P c) ∨ ∃ c rest, more = c :: rest ∧ P c

namespace Closed

variable {P : Char → Prop} {cs ds more : List Char}

theorem of_subset (h : Closed P cs more) (hsub : cs ⊆ ds) : Closed P ds more := by
  obtain ⟨c, hc, hP⟩ | hmore := h
  · exact .inl ⟨c, hsub hc, hP⟩
  · exact .inr hmore

/-- A run of characters without the property ends where it ended. -/
theorem span (h : Closed P cs more) {p : Char → Bool} (hp : ∀ c, P c → p c = false) :
    (cs ++ more).takeWhile p = cs.takeWhile p ∧
      (cs ++ more).dropWhile p = cs.dropWhile p ++ more := by
  induction cs with
  | nil =>
      obtain ⟨c, hc, -⟩ | ⟨c, rest, rfl, hP⟩ := h
      · simp at hc
      · simp [hp c hP]
  | cons d cs ih =>
      by_cases hd : p d = true
      · have hcs : Closed P cs more := by
          obtain ⟨c, hc, hP⟩ | hmore := h
          · refine .inl ⟨c, ?_, hP⟩
            obtain rfl | hc := List.mem_cons.1 hc
            · rw [hp c hP] at hd
              contradiction
            · exact hc
          · exact .inr hmore
        simp [hd, ih hcs]
      · simp [hd]

/-- A word without such characters that `cs` does not start with is not completed by `more`. -/
theorem ne_append (h : Closed P cs more) (word : List Char) (hword : ∀ c ∈ word, ¬ P c)
    (hcs : ∀ after, cs ≠ word ++ after) (rest : List Char) : cs ++ more ≠ word ++ rest := by
  intro heq
  obtain ⟨as, rfl, rfl⟩ | ⟨after, rfl, -⟩ := List.append_eq_append_iff.1 heq
  · obtain ⟨c, hc, hP⟩ | ⟨c, rest', hmore, hP⟩ := h
    · exact hword c (List.mem_append_left _ hc) hP
    · cases as with
      | nil => exact hcs [] (by simp)
      | cons a as =>
          obtain rfl : a = c := by simpa using congrArg List.head? hmore
          exact hword a (by simp) hP
  · exact hcs after rfl

end Closed

/-- A character that no word goes over. -/
def IsStop (c : Char) : Prop := endsAtom c = true ∧ c.isAlphanum = false

instance (c : Char) : Decidable (IsStop c) := inferInstanceAs (Decidable (_ ∧ _))

theorem stringBody_append {cs body rest : List Char} (h : stringBody cs = some (body, rest))
    (more : List Char) : stringBody (cs ++ more) = some (body, rest ++ more) := by
  fun_induction stringBody cs generalizing body with
  | case1 => simp at h
  | case2 after =>
      simp only [Option.some.injEq, Prod.mk.injEq] at h
      simp [stringBody, ← h.1, h.2]
  | case3 => simp at h
  | case4 => simp at h
  | case5 c after hc ih =>
      obtain ⟨⟨b, r⟩, hb, he⟩ := Option.map_eq_some_iff.1 h
      simp only [Prod.mk.injEq] at he
      obtain ⟨rfl, rfl⟩ := he
      simp [stringBody, hc, ih hb]
  | case6 c after hquote hslash ih =>
      obtain ⟨⟨b, r⟩, hb, he⟩ := Option.map_eq_some_iff.1 h
      simp only [Prod.mk.injEq] at he
      obtain ⟨rfl, rfl⟩ := he
      rw [List.cons_append, stringBody, ih hb, Option.map_some]
      · exact hquote
      · exact hslash

theorem scanHash_append {cs rest more : List Char} {t : Token} (h : scanHash cs = some (t, rest))
    (hclosed : Closed IsStop rest more) : scanHash (cs ++ more) = some (t, rest ++ more) := by
  unfold scanHash at h
  split at h
  -- `#t` is not the beginning of `#true`, nor `#f` of `#false`
  case h_4 after hlong =>
      simp only [Option.some.injEq, Prod.mk.injEq] at h
      obtain ⟨rfl, rfl⟩ := h
      rw [List.cons_append, scanHash]
      exact hclosed.ne_append ['r', 'u', 'e'] (by simp [IsStop]) hlong
  case h_6 after hlong =>
      simp only [Option.some.injEq, Prod.mk.injEq] at h
      obtain ⟨rfl, rfl⟩ := h
      rw [List.cons_append, scanHash]
      exact hclosed.ne_append ['a', 'l', 's', 'e'] (by simp [IsStop]) hlong
  case h_7 c after =>
      split at h
      · simp at h
      · rename_i hc
        simp only [Option.some.injEq, Prod.mk.injEq] at h
        obtain ⟨rfl, rfl⟩ := h
        obtain ⟨htake, hdrop⟩ := (hclosed.of_subset (List.dropWhile_suffix _).subset).span
          fun c hc => hc.2
        simp [scanHash, hc, htake, hdrop]
  case h_8 => simp at h
  all_goals
    simp only [Option.some.injEq, Prod.mk.injEq] at h
    obtain ⟨rfl, rfl⟩ := h
    simp [scanHash]

theorem atomRest_append {cs word after more : List Char} (h : atomRest cs = (word, after))
    (hclosed : Closed IsStop after more) : atomRest (cs ++ more) = (word, after ++ more) := by
  simp only [atomRest, Prod.mk.injEq] at h
  obtain ⟨rfl, rfl⟩ := h
  have hends : ∀ c, IsStop c → (!endsAtom c) = false := fun c hc => by simp [hc.1]
  obtain ⟨htake, hdrop⟩ := (hclosed.of_subset (List.dropWhile_suffix _).subset).span hends
  simp [atomRest, htake, hdrop]

/-- A token that is closed off stays the first token whatever is put after the text. -/
theorem scan_append {cs rest more : List Char} {t : Token} (h : scan cs = some (t, rest))
    (hclosed : Closed IsStop rest more) : scan (cs ++ more) = some (t, rest ++ more) := by
  unfold scan at h
  split at h
  case h_1 => simp at h
  case h_5 cs' =>
      obtain ⟨⟨body, after⟩, hbody, he⟩ := Option.map_eq_some_iff.1 h
      simp only [Prod.mk.injEq] at he
      obtain ⟨rfl, rfl⟩ := he
      simp [scan, stringBody_append hbody more]
  case h_6 cs' => exact scanHash_append h hclosed
  case h_7 cs' =>
      split at h
      · rename_i after hrest
        simp only [Option.some.injEq, Prod.mk.injEq] at h
        obtain ⟨rfl, rfl⟩ := h
        simp [scan, atomRest_append hrest hclosed]
      · rename_i word after hword hrest
        simp only [Option.some.injEq, Prod.mk.injEq] at h
        obtain ⟨rfl, rfl⟩ := h
        cases word with
        | nil => exact (hword rfl).elim
        | cons w word => simp [scan, atomRest_append hrest hclosed]
  case h_8 c cs' _ _ _ _ _ _ =>
      split at h
      · rename_i hstart
        simp only [Option.some.injEq, Prod.mk.injEq] at h
        obtain ⟨rfl, rfl⟩ := h
        have happend : atomRest (cs' ++ more) = _ := atomRest_append rfl hclosed
        rw [List.cons_append, scan, if_pos hstart, happend]
        · rfl
        all_goals assumption
      · simp at h
  all_goals
    simp only [Option.some.injEq, Prod.mk.injEq] at h
    simp [scan, h.1, h.2]

/-- What stands after `#` is no token. -/
theorem scanHash_eq_none_iff {cs : List Char} :
    scanHash cs = none ↔
      (∀ w ∈ [['('], ['v', 'u', '8', '('], ['t'], ['f']], ∀ rest, cs ≠ w ++ rest) ∧
        ∀ c rest, cs = '\\' :: c :: rest → c = '\n' := by
  unfold scanHash
  split
  case h_7 c after => simp
  case h_8 h1 h2 h3 h4 h5 h6 h7 =>
      simp only [true_iff]
      refine ⟨?_, fun c rest heq => (h7 c rest heq).elim⟩
      simp only [List.mem_cons, List.not_mem_nil, or_false, forall_eq_or_imp, forall_eq,
        List.cons_append, List.nil_append]
      exact ⟨h1, h2, h4, h6⟩
  all_goals simp

/-- Whether a character other than `"` and `#` starts a token does not hang on what follows it. -/
theorem scan_eq_none_iff {c : Char} (hquote : c ≠ '"') (hhash : c ≠ '#') (cs : List Char) :
    scan (c :: cs) = none ↔ startsAtom c = false ∧ c ≠ '(' ∧ c ≠ ')' ∧ c ≠ '\'' ∧ c ≠ '.' := by
  by_cases hopen : c = '('
  · simp [hopen, scan]
  by_cases hclose : c = ')'
  · simp [hclose, scan]
  by_cases htick : c = '\''
  · simp [htick, scan]
  by_cases hdot : c = '.'
  · subst hdot
    simp only [scan]
    split <;> simp
  · rw [scan]
    · by_cases hstart : startsAtom c = true <;> simp [hstart, hopen, hclose, htick, hdot]
    all_goals simpa using ‹_›

theorem scanHash_line_eq_none {cs : List Char} (h : scanHash cs = none) (more : List Char) :
    scanHash (cs ++ '\n' :: more) = none := by
  obtain ⟨hwords, hchar⟩ := scanHash_eq_none_iff.1 h
  have hclosed : Closed (· = '\n') cs ('\n' :: more) := .inr ⟨_, _, rfl, rfl⟩
  have hline : ∀ w ∈ [['('], ['v', 'u', '8', '('], ['t'], ['f']], ∀ c ∈ w, ¬ c = '\n' := by simp
  refine scanHash_eq_none_iff.2
    ⟨fun w hw => hclosed.ne_append w (hline w hw) (hwords w hw), fun c rest heq => ?_⟩
  rcases cs with _ | ⟨a, _ | ⟨b, cs⟩⟩
  · simp at heq
  · obtain ⟨-, hc, -⟩ : a = '\\' ∧ '\n' = c ∧ more = rest := by simpa using heq
    exact hc.symm
  · obtain ⟨rfl, rfl, -⟩ : a = '\\' ∧ b = c ∧ cs ++ '\n' :: more = rest := by simpa using heq
    exact hchar b cs rfl

/-- What is no token does not become one by text on a new line. -/
theorem scan_line_eq_none {c : Char} {cs : List Char} (hc : c ≠ '"') (h : scan (c :: cs) = none)
    (more : List Char) : scan (c :: (cs ++ '\n' :: more)) = none := by
  by_cases hhash : c = '#'
  · subst hhash
    exact scanHash_line_eq_none h more
  · exact (scan_eq_none_iff hc hhash _).2 ((scan_eq_none_iff hc hhash cs).1 h)

theorem stringBody_suffix {cs body rest : List Char} (h : stringBody cs = some (body, rest)) :
    rest <:+ cs := by
  fun_induction stringBody cs generalizing body with
  | case1 => simp at h
  | case2 after =>
      simp only [Option.some.injEq, Prod.mk.injEq] at h
      rw [h.2]
      exact List.suffix_cons _ _
  | case3 => simp at h
  | case4 => simp at h
  | case5 c after hc ih =>
      obtain ⟨⟨b, r⟩, hb, he⟩ := Option.map_eq_some_iff.1 h
      simp only [Prod.mk.injEq] at he
      have hsuffix := ih (he.2 ▸ hb)
      exact hsuffix.trans ((List.suffix_cons _ _).trans (List.suffix_cons _ _))
  | case6 c after _ _ ih =>
      obtain ⟨⟨b, r⟩, hb, he⟩ := Option.map_eq_some_iff.1 h
      simp only [Prod.mk.injEq] at he
      have hsuffix := ih (he.2 ▸ hb)
      exact hsuffix.trans (List.suffix_cons _ _)

theorem scanHash_suffix {cs rest : List Char} {t : Token} (h : scanHash cs = some (t, rest)) :
    rest <:+ cs := by
  unfold scanHash at h
  split at h
  case h_7 c after =>
      split at h
      · simp at h
      · simp only [Option.some.injEq, Prod.mk.injEq] at h
        rw [← h.2]
        exact (List.dropWhile_suffix _).trans (List.suffix_append ['\\', c] after)
  case h_8 => simp at h
  all_goals
    simp only [Option.some.injEq, Prod.mk.injEq] at h
    rw [← h.2]
    simp [List.suffix_cons_iff]

/-- What follows a token is the end of the text. -/
theorem scan_suffix {cs rest : List Char} {t : Token} (h : scan cs = some (t, rest)) :
    rest <:+ cs := by
  unfold scan at h
  split at h
  case h_1 => simp at h
  case h_5 cs' =>
      obtain ⟨⟨b, r⟩, hb, he⟩ := Option.map_eq_some_iff.1 h
      simp only [Prod.mk.injEq] at he
      rw [← he.2]
      exact (stringBody_suffix hb).trans (List.suffix_cons _ _)
  case h_6 cs' => exact (scanHash_suffix h).trans (List.suffix_cons _ _)
  case h_7 cs' =>
      have hsuffix := (List.dropWhile_suffix (fun c => !endsAtom c)).trans (List.suffix_cons '.' cs')
      split at h <;> rename_i he <;>
        simp only [Option.some.injEq, Prod.mk.injEq] at h <;>
        simp only [atomRest, Prod.mk.injEq] at he <;>
        rwa [← h.2, ← he.2]
  case h_8 c cs' _ _ _ _ _ _ =>
      split at h
      · simp only [atomRest, Option.some.injEq, Prod.mk.injEq] at h
        rw [← h.2]
        exact (List.dropWhile_suffix _).trans (List.suffix_cons _ _)
      · simp at h
  all_goals
    simp only [Option.some.injEq, Prod.mk.injEq] at h
    rw [← h.2]
    exact List.suffix_cons _ _

/-! ### All tokens up to a place -/

/-- The lexer gets from the text `cs` to the rest `rest` of it by way of the tokens `ts`. -/
inductive Splits : List Char → List Token → List Char → Prop
  | done (cs : List Char) : Splits cs [] cs
  | skip {c : Char} {cs rest : List Char} {ts : List Token} :
      isSkipped c = true → Splits cs ts rest → Splits (c :: cs) ts rest
  | comment {cs rest : List Char} {ts : List Token} :
      Splits (cs.dropWhile fun c => c != '\n') ts rest → Splits (';' :: cs) ts rest
  | token {c : Char} {cs after rest : List Char} {t : Token} {ts : List Token} :
      isSkipped c = false → c ≠ ';' → scan (c :: cs) = some (t, after) → Splits after ts rest →
        Splits (c :: cs) (t :: ts) rest

/-- No token, blank or comment is at the front of a text. -/
inductive Stuck : List Char → Prop
  | mk {c : Char} {cs : List Char} : isSkipped c = false → c ≠ ';' → scan (c :: cs) = none →
      Stuck (c :: cs)

/-- The error of a text that no token is at the front of. -/
def stuckError (c : Char) : Error :=
  if c = '"' then .incomplete else .malformed (.invalidToken (String.singleton c))

theorem tokens_stuck {c : Char} {cs : List Char} (h : Stuck (c :: cs)) :
    tokens (c :: cs) = .error (stuckError c) := by
  cases h with
  | mk hskip hcomment hscan =>
      simp only [tokens, List.length_cons, splitWithin, hskip, Bool.false_eq_true, if_false,
        if_neg hcomment, hscan, stuckError]
      split <;> rfl

namespace Splits

variable {cs mid rest : List Char} {ts us : List Token}

theorem append (h : Splits cs ts mid) (h' : Splits mid us rest) : Splits cs (ts ++ us) rest := by
  induction h with
  | done => exact h'
  | skip hskip _ ih => exact .skip hskip (ih h')
  | comment _ ih => exact .comment (ih h')
  | token hskip hcomment hscan _ ih => exact .token hskip hcomment hscan (ih h')

theorem tokens_eq (h : Splits cs ts rest) : tokens cs = (tokens rest).map (ts ++ ·) := by
  induction h with
  | done cs => cases tokens cs <;> rfl
  | skip hskip _ ih => rw [tokens_skip hskip, ih]
  | comment _ ih => rw [tokens_comment, ih]
  | @token c cs after rest t ts hskip hcomment hscan _ ih =>
      rw [tokens_scan hskip hcomment hscan, ih]
      cases tokens rest <;> rfl

/-- The rest of a text is its end. -/
theorem rest_suffix (h : Splits cs ts rest) : rest <:+ cs := by
  induction h with
  | done cs => exact List.suffix_refl cs
  | skip _ _ ih => exact ih.trans (List.suffix_cons _ _)
  | comment _ ih => exact ih.trans ((List.dropWhile_suffix _).trans (List.suffix_cons _ _))
  | token _ _ hscan _ ih => exact ih.trans (scan_suffix hscan)

/-- The lexer goes on until it has seen all of the text or is stuck. -/
theorem exists_end (cs : List Char) : ∃ ts rest, Splits cs ts rest ∧ (rest = [] ∨ Stuck rest) := by
  induction hn : cs.length using Nat.strongRecOn generalizing cs with
  | ind n ih =>
      subst hn
      rcases cs with _ | ⟨c, cs⟩
      · exact ⟨[], [], .done [], .inl rfl⟩
      by_cases hskip : isSkipped c = true
      · obtain ⟨ts, rest, hsplits, hrest⟩ := ih cs.length (by simp) cs rfl
        exact ⟨ts, rest, .skip hskip hsplits, hrest⟩
      by_cases hcomment : c = ';'
      · have hle := length_dropWhile_le (fun c => c != '\n') cs
        obtain ⟨ts, rest, hsplits, hrest⟩ :=
          ih _ (by simp only [List.length_cons]; omega) (cs.dropWhile fun c => c != '\n') rfl
        exact ⟨ts, rest, hcomment ▸ .comment hsplits, hrest⟩
      simp only [Bool.not_eq_true] at hskip
      cases hscan : scan (c :: cs) with
      | none => exact ⟨[], c :: cs, .done _, .inr ⟨hskip, hcomment, hscan⟩⟩
      | some found =>
          obtain ⟨ts, rest, hsplits, hrest⟩ := ih _ (scan_length hscan) found.2 rfl
          exact ⟨found.1 :: ts, rest, .token hskip hcomment hscan hsplits, hrest⟩

/-- More text leaves the tokens as they are when it starts on a new line, or when the lexer has come
to a quote that is still ahead. -/
theorem append_text (h : Splits cs ts rest) (more : List Char)
    (hmore : '"' ∈ rest ∨ ∃ line, more = '\n' :: line) : Splits (cs ++ more) ts (rest ++ more) := by
  induction h with
  | done cs => exact .done _
  | skip hskip _ ih => exact .skip hskip (ih hmore)
  | @comment cs rest ts h ih =>
      -- the comment has ended when the quote comes, and it ends where the new line starts
      have hclosed : Closed (· = '\n') cs more := by
        obtain hquote | ⟨line, rfl⟩ := hmore
        · have hne : cs.dropWhile (fun c => c != '\n') ≠ [] :=
            List.ne_nil_of_mem (h.rest_suffix.subset hquote)
          rw [ne_eq, List.dropWhile_eq_nil_iff] at hne
          exact .inl (by simpa using hne)
        · exact .inr ⟨'\n', line, rfl, rfl⟩
      have hdrop := (hclosed.span (p := fun c => c != '\n') (by simp)).2
      exact .comment (hdrop ▸ ih hmore)
  | @token c cs after rest t ts hskip hcomment hscan hafter ih =>
      have hclosed : Closed IsStop rest more := by
        obtain hquote | ⟨line, rfl⟩ := hmore
        · exact .inl ⟨'"', hquote, by decide⟩
        · exact .inr ⟨'\n', line, rfl, by decide⟩
      have hscan' := scan_append hscan (hclosed.of_subset hafter.rest_suffix.subset)
      exact .token hskip hcomment hscan' (ih hmore)

end Splits

/-! ### Strings that are not closed -/

/-- What can stand between the quotes of a string: a backslash has the character after it with it,
which is no line end. -/
inductive IsBody : List Char → Prop
  | nil : IsBody []
  | plain {c : Char} {cs : List Char} : c ≠ '"' → c ≠ '\\' → IsBody cs → IsBody (c :: cs)
  | escape {c : Char} {cs : List Char} : c ≠ '\n' → IsBody cs → IsBody ('\\' :: c :: cs)

theorem IsBody.stringBody_append {body : List Char} (h : IsBody body) (cs : List Char) :
    stringBody (body ++ cs) =
      (stringBody cs).map fun (inner, after) => (body ++ inner, after) := by
  induction h with
  | nil => simp
  | @plain c body hquote hslash _ ih =>
      rw [List.cons_append, stringBody, ih, Option.map_map]
      · rfl
      · exact hquote
      · exact hslash
  | escape hline _ ih =>
      simp only [List.cons_append, stringBody, if_neg hline, ih, Option.map_map]
      rfl

/-- How the text after an opening quote goes on: the string is closed, or it ends with the text, maybe
after a backslash, or it has a backslash before a line end. -/
theorem exists_isBody (cs : List Char) : ∃ body, IsBody body ∧
    ((∃ rest, cs = body ++ '"' :: rest) ∨ cs = body ∨ cs = body ++ ['\\'] ∨
      ∃ rest, cs = body ++ '\\' :: '\n' :: rest) := by
  fun_induction stringBody cs with
  | case1 => exact ⟨[], .nil, .inr (.inl rfl)⟩
  | case2 rest => exact ⟨[], .nil, .inl ⟨rest, rfl⟩⟩
  | case3 => exact ⟨[], .nil, .inr (.inr (.inl rfl))⟩
  | case4 rest => exact ⟨[], .nil, .inr (.inr (.inr ⟨rest, rfl⟩))⟩
  | case5 c rest hline ih =>
      obtain ⟨body, hbody, hrest⟩ := ih
      refine ⟨_, .escape hline hbody, ?_⟩
      simpa only [List.cons_append, List.cons.injEq, true_and] using hrest
  | case6 c rest hquote hslash ih =>
      obtain ⟨body, hbody, hrest⟩ := ih
      refine ⟨_, .plain hquote hslash hbody, ?_⟩
      simpa only [List.cons_append, List.cons.injEq, true_and] using hrest

theorem isBody_of_stringBody {cs body rest : List Char} (h : stringBody cs = some (body, rest)) :
    IsBody body := by
  obtain ⟨body', hbody', ⟨rest', rfl⟩ | rfl | rfl | ⟨rest', rfl⟩⟩ := exists_isBody cs
  · rw [hbody'.stringBody_append] at h
    simp only [stringBody, Option.map_some, List.append_nil, Option.some.injEq, Prod.mk.injEq] at h
    exact h.1 ▸ hbody'
  · have hnone := hbody'.stringBody_append []
    simp [stringBody, h] at hnone
  · simp [hbody'.stringBody_append, stringBody] at h
  · simp [hbody'.stringBody_append, stringBody] at h

/-- A line end does not close a string. -/
theorem stringBody_line_eq_none {cs : List Char} (h : stringBody cs = none) :
    stringBody (cs ++ ['\n']) = none := by
  obtain ⟨body, hbody, ⟨rest, rfl⟩ | rfl | rfl | ⟨rest, rfl⟩⟩ := exists_isBody cs
  · simp [hbody.stringBody_append, stringBody] at h
  · simp [hbody.stringBody_append, stringBody]
  · simp [hbody.stringBody_append, stringBody]
  · simp [hbody.stringBody_append, stringBody]

/-! ### Lines -/

/-- A text up to a line end: its tokens are found whatever comes on the lines after it, or it has a
place that is no token whatever comes, or it ends inside a string. -/
theorem line_cases (cs : List Char) :
    (∃ ts, ∀ more, Splits (cs ++ '\n' :: more) ts more) ∨
    (∃ fault, ∀ more, tokens (cs ++ '\n' :: more) = .error (.malformed fault)) ∨
    tokens (cs ++ ['\n']) = .error .incomplete := by
  obtain ⟨ts, rest, hsplits, rfl | hstuck⟩ := Splits.exists_end cs
  · refine .inl ⟨ts, fun more => ?_⟩
    have hline := hsplits.append_text ('\n' :: more) (.inr ⟨more, rfl⟩)
    simpa using hline.append (.skip (by decide) (.done more))
  · obtain @⟨c, rest, hskip, hcomment, hscan⟩ := hstuck
    have hline (more : List Char) := hsplits.append_text ('\n' :: more) (.inr ⟨more, rfl⟩)
    by_cases hquote : c = '"'
    · subst hquote
      refine .inr (.inr ?_)
      have hnone : scan ('"' :: (rest ++ ['\n'])) = none := by
        simpa [scan] using stringBody_line_eq_none (by simpa [scan] using hscan)
      rw [(hline []).tokens_eq, List.cons_append, tokens_stuck ⟨hskip, hcomment, hnone⟩]
      rfl
    · refine .inr (.inl ⟨.invalidToken (String.singleton c), fun more => ?_⟩)
      have hnone := scan_line_eq_none hquote hscan more
      rw [(hline more).tokens_eq, List.cons_append, tokens_stuck ⟨hskip, hcomment, hnone⟩,
        stuckError, if_neg hquote]
      rfl

end LittleScheme.Token
