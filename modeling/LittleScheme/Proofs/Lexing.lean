import LittleScheme.Token.Lexer

/-!
# Splitting a text into tokens

The fuel of the splitter is the length of the text, which always suffices: every turn takes at least
one character. `tokens` is the splitter without fuel. It satisfies one equation for each kind of
front: a skipped blank, a comment, and a token that can be scanned.
-/
namespace LittleScheme.Token

theorem stringBody_length {cs body rest : List Char} (h : stringBody cs = some (body, rest)) :
    rest.length < cs.length := by
  fun_induction stringBody cs generalizing body with
  | case1 => simp at h
  | case2 rest' =>
      simp only [Option.some.injEq, Prod.mk.injEq] at h
      simp [h.2]
  | case3 => simp at h
  | case4 => simp at h
  | case5 c rest' hc ih =>
      obtain ⟨⟨b, r⟩, hb, he⟩ := Option.map_eq_some_iff.1 h
      simp only [Prod.mk.injEq] at he
      have := ih (he.2 ▸ hb)
      simp only [List.length_cons]
      omega
  | case6 c rest' _ _ ih =>
      obtain ⟨⟨b, r⟩, hb, he⟩ := Option.map_eq_some_iff.1 h
      simp only [Prod.mk.injEq] at he
      have := ih (he.2 ▸ hb)
      simp only [List.length_cons]
      omega

theorem length_dropWhile_le (p : Char → Bool) (cs : List Char) :
    (cs.dropWhile p).length ≤ cs.length :=
  (List.dropWhile_sublist p).length_le

theorem scanHash_length {cs rest : List Char} {t : Token} (h : scanHash cs = some (t, rest)) :
    rest.length < cs.length := by
  unfold scanHash at h
  split at h
  case h_7 c cs' =>
      split at h
      · simp at h
      · have hle := length_dropWhile_le Char.isAlphanum cs'
        simp only [Option.some.injEq, Prod.mk.injEq] at h
        rw [← h.2]
        simp only [List.length_cons]
        omega
  case h_8 => simp at h
  all_goals
    simp only [Option.some.injEq, Prod.mk.injEq] at h
    rw [← h.2]
    simp only [List.length_cons]
    omega

/-- Scanning a token takes at least one character. -/
theorem scan_length {cs rest : List Char} {t : Token} (h : scan cs = some (t, rest)) :
    rest.length < cs.length := by
  unfold scan at h
  split at h
  case h_1 => simp at h
  case h_5 cs' =>
      obtain ⟨⟨b, r⟩, hb, he⟩ := Option.map_eq_some_iff.1 h
      simp only [Prod.mk.injEq] at he
      have := stringBody_length hb
      rw [← he.2, List.length_cons]
      omega
  case h_6 cs' =>
      have := scanHash_length h
      rw [List.length_cons]
      omega
  case h_7 cs' =>
      have hle := length_dropWhile_le (fun c => !endsAtom c) cs'
      split at h <;> rename_i he <;>
        simp only [Option.some.injEq, Prod.mk.injEq] at h <;>
        simp only [atomRest, Prod.mk.injEq] at he <;>
        rw [← h.2, ← he.2, List.length_cons] <;> omega
  case h_8 c cs' _ _ _ _ _ _ =>
      have hle := length_dropWhile_le (fun c => !endsAtom c) cs'
      split at h
      · simp only [atomRest, Option.some.injEq, Prod.mk.injEq] at h
        rw [← h.2, List.length_cons]
        omega
      · simp at h
  all_goals
    simp only [Option.some.injEq, Prod.mk.injEq] at h
    simp [h.2]

/-- Any fuel from the length of the text on gives the same tokens. -/
theorem splitWithin_eq {n m : Nat} {cs : List Char} (hn : cs.length ≤ n) (hm : cs.length ≤ m) :
    splitWithin n cs = splitWithin m cs := by
  induction n generalizing m cs with
  | zero =>
      have hnil : cs = [] := List.length_eq_zero_iff.1 (Nat.le_zero.1 hn)
      subst hnil
      cases m <;> rfl
  | succ n ih =>
      cases cs with
      | nil => cases m <;> rfl
      | cons c cs =>
          obtain ⟨m, rfl⟩ : ∃ k, m = k + 1 := ⟨m - 1, by simp only [List.length_cons] at hm; omega⟩
          simp only [List.length_cons, Nat.add_le_add_iff_right] at hn hm
          have hdrop := length_dropWhile_le (fun c => c != '\n') cs
          simp only [splitWithin]
          rw [ih hn hm, ih (Nat.le_trans hdrop hn) (Nat.le_trans hdrop hm)]
          cases hscan : scan (c :: cs) with
          | none => rfl
          | some found =>
              have hlt := scan_length hscan
              simp only [List.length_cons] at hlt
              have hlen : found.2.length ≤ n ∧ found.2.length ≤ m := by omega
              simp only [ih hlen.1 hlen.2]

/-- The tokens of the characters of a text. -/
def tokens (cs : List Char) : Except Error (List Token) := splitWithin cs.length cs

theorem split_eq_tokens (text : String) : split text = tokens text.toList := rfl

@[simp] theorem tokens_nil : tokens [] = .ok [] := rfl

theorem tokens_skip {c : Char} (h : isSkipped c = true) (cs : List Char) :
    tokens (c :: cs) = tokens cs := by
  simp [tokens, splitWithin, h]

theorem tokens_comment (cs : List Char) :
    tokens (';' :: cs) = tokens (cs.dropWhile fun c => c != '\n') := by
  have hs : isSkipped ';' = false := by decide
  simp only [tokens, List.length_cons, splitWithin, hs, Bool.false_eq_true, if_false, if_true]
  exact splitWithin_eq (length_dropWhile_le _ _) (Nat.le_refl _)

theorem tokens_scan {c : Char} {cs rest : List Char} {t : Token} (hs : isSkipped c = false)
    (hc : c ≠ ';') (h : scan (c :: cs) = some (t, rest)) :
    tokens (c :: cs) = (tokens rest).map (t :: ·) := by
  have hlt := scan_length h
  simp only [List.length_cons] at hlt
  simp only [tokens, List.length_cons, splitWithin, hs, Bool.false_eq_true, if_false, if_neg hc, h]
  rw [splitWithin_eq (n := cs.length) (m := rest.length) (by omega) (Nat.le_refl _)]
  cases splitWithin rest.length rest <;> rfl

end LittleScheme.Token
