import LittleScheme.Proofs.Continuation

/-!
# The layout of a text

The space between tokens is blanks and comments. A text is laid out from lexemes when every two
neighbours have some space between them, and its tokens are then those of the lexemes: space ends
every token, since no token that can be made longer goes on with a blank or the start of a comment,
and no token is found in it. So the reader cannot tell two layouts of the same lexemes apart.
-/
namespace LittleScheme

namespace Token

/-! ### Lexemes and the space between them -/

/-- A text that is scanned to its end as one token. -/
structure Lexeme where
  text : List Char
  token : Token
  whole : scan text = some (token, [])

/-- The blanks that may stand between tokens. -/
def blanks : List Char := [' ', '\t', '\r', '\n', '\x0c']

/-- A run of blanks and of comments that are ended by their lines. -/
inductive IsSpace : List Char → Prop
  | nil : IsSpace []
  | blank {c : Char} {cs : List Char} : c ∈ blanks → IsSpace cs → IsSpace (c :: cs)
  | comment {line cs : List Char} : '\n' ∉ line → IsSpace cs → IsSpace (';' :: (line ++ '\n' :: cs))

/-- What may stand after the last token: space, and maybe a comment on a line that has no end. -/
inductive IsClosing : List Char → Prop
  | space {cs : List Char} : IsSpace cs → IsClosing cs
  | comment {cs line : List Char} : IsSpace cs → '\n' ∉ line → IsClosing (cs ++ ';' :: line)

/-- What may stand after a token when the given lexemes are still to come. -/
inductive Follows : List Lexeme → List Char → Prop
  | done {cs : List Char} : IsClosing cs → Follows [] cs
  | next {gap cs : List Char} {l : Lexeme} {ls : List Lexeme} :
      IsSpace gap → gap ≠ [] → Follows ls cs → Follows (l :: ls) (gap ++ (l.text ++ cs))

/-- The texts that are laid out from lexemes. Before the first one there need not be space. -/
inductive IsLayout : List Lexeme → List Char → Prop
  | empty {cs : List Char} : IsClosing cs → IsLayout [] cs
  | start {gap cs : List Char} {l : Lexeme} {ls : List Lexeme} :
      IsSpace gap → Follows ls cs → IsLayout (l :: ls) (gap ++ (l.text ++ cs))

/-! ### Space holds no token and ends every token -/

theorem isSkipped_of_mem_blanks {c : Char} (h : c ∈ blanks) : isSkipped c = true := by
  simpa [blanks, isSkipped, or_assoc] using h

theorem dropWhile_line {line : List Char} (h : '\n' ∉ line) (cs : List Char) :
    (line ++ cs).dropWhile (fun c => c != '\n') = cs.dropWhile fun c => c != '\n' := by
  refine List.dropWhile_append_of_pos fun c hc => ?_
  simpa using fun heq : c = '\n' => h (heq ▸ hc)

theorem IsSpace.splits {gap : List Char} (h : IsSpace gap) (cs : List Char) :
    Splits (gap ++ cs) [] cs := by
  induction h with
  | nil => exact .done cs
  | blank hblank _ ih => exact .skip (isSkipped_of_mem_blanks hblank) ih
  | @comment line rest hline _ ih =>
      rw [List.cons_append, List.append_assoc]
      refine .comment ?_
      rw [dropWhile_line hline]
      exact .skip (by decide) ih

theorem IsClosing.splits {cs : List Char} (h : IsClosing cs) : Splits cs [] [] := by
  cases h with
  | space hspace => simpa using hspace.splits []
  | @comment cs line hspace hline =>
      refine (hspace.splits _).append (.comment ?_)
      have hall := dropWhile_line hline []
      rw [List.append_nil] at hall
      rw [hall]
      exact .done []

theorem IsSpace.isStop {c : Char} {cs : List Char} (h : IsSpace (c :: cs)) : IsStop c := by
  cases h with
  | blank hblank _ =>
      have hall : ∀ c ∈ blanks, IsStop c := by
        simp only [blanks, List.forall_mem_cons, List.not_mem_nil, false_implies, implies_true, and_true]
        decide
      exact hall c hblank
  | comment => decide

/-- A token that ends where space begins is closed off. -/
theorem IsSpace.closed {gap : List Char} (h : IsSpace gap) (hne : gap ≠ []) (cs : List Char) :
    Closed IsStop [] (gap ++ cs) := by
  obtain ⟨c, gap, rfl⟩ := List.exists_cons_of_ne_nil hne
  exact .inr ⟨c, gap ++ cs, rfl, h.isStop⟩

/-- Nothing stands after the last token, or it is closed off. -/
theorem IsClosing.closed {cs : List Char} (h : IsClosing cs) :
    cs = [] ∨ Closed IsStop [] cs := by
  cases h with
  | space hspace =>
      cases cs with
      | nil => exact .inl rfl
      | cons c cs => exact .inr (.inr ⟨c, cs, rfl, hspace.isStop⟩)
  | @comment cs line hspace _ =>
      refine .inr (.inr ?_)
      cases cs with
      | nil => exact ⟨';', line, rfl, by decide⟩
      | cons c cs => exact ⟨c, cs ++ ';' :: line, rfl, hspace.isStop⟩

theorem Follows.closed {ls : List Lexeme} {cs : List Char} (h : Follows ls cs) :
    cs = [] ∨ Closed IsStop [] cs := by
  cases h with
  | done hclosing => exact hclosing.closed
  | next hspace hne _ => exact .inr (hspace.closed hne _)

/-! ### The tokens of a layout -/

/-- A token starts neither with a blank nor with a comment. -/
theorem scan_front {c : Char} {cs rest : List Char} {t : Token} (h : scan (c :: cs) = some (t, rest)) :
    isSkipped c = false ∧ c ≠ ';' := by
  have hfront : c ∉ ';' :: blanks := by
    intro hc
    have hother : ∀ d ∈ ';' :: blanks, d ≠ '"' ∧ d ≠ '#' ∧
        startsAtom d = false ∧ d ≠ '(' ∧ d ≠ ')' ∧ d ≠ '\'' ∧ d ≠ '.' := by
      simp only [blanks, List.forall_mem_cons, List.not_mem_nil, false_implies, implies_true, and_true]
      decide
    obtain ⟨hquote, hhash, hnone⟩ := hother c hc
    rw [(scan_eq_none_iff hquote hhash cs).2 hnone] at h
    simp at h
  rw [List.mem_cons, not_or] at hfront
  refine ⟨?_, hfront.1⟩
  simpa [blanks, isSkipped, and_assoc] using hfront.2

/-- A lexeme gives its token whatever may follow it. -/
theorem Lexeme.splits (l : Lexeme) {cs : List Char} (h : cs = [] ∨ Closed IsStop [] cs) :
    Splits (l.text ++ cs) [l.token] cs := by
  have hscan : scan (l.text ++ cs) = some (l.token, cs) := by
    obtain rfl | hclosed := h
    · simpa using l.whole
    · exact scan_append l.whole hclosed
  cases htext : l.text ++ cs with
  | nil => simp [htext, scan] at hscan
  | cons c rest =>
      rw [htext] at hscan
      obtain ⟨hskip, hcomment⟩ := scan_front hscan
      exact .token hskip hcomment hscan (.done cs)

theorem Follows.splits {ls : List Lexeme} {cs : List Char} (h : Follows ls cs) :
    Splits cs (ls.map Lexeme.token) [] := by
  induction h with
  | done hclosing => exact hclosing.splits
  | @next gap cs l ls hspace _ hfollows ih =>
      exact (hspace.splits _).append ((l.splits hfollows.closed).append ih)

theorem IsLayout.splits {ls : List Lexeme} {cs : List Char} (h : IsLayout ls cs) :
    Splits cs (ls.map Lexeme.token) [] := by
  cases h with
  | empty hclosing => exact hclosing.splits
  | @start gap cs l ls hspace hfollows =>
      exact (hspace.splits _).append ((l.splits hfollows.closed).append hfollows.splits)

theorem IsLayout.split_eq {ls : List Lexeme} {text : String} (h : IsLayout ls text.toList) :
    split text = .ok (ls.map Lexeme.token) := by
  rw [split_eq_tokens, h.splits.tokens_eq]
  simp [Except.map]

end Token

namespace Reader

open Token (Lexeme IsLayout)

/-- The tokens of a text that is laid out from lexemes are theirs, in order, and every other layout
of the lexemes reads the same, as one datum and as any number of data. -/
theorem layout_is_free {ls : List Lexeme} {text : String} (h : IsLayout ls text.toList) :
    Token.split text = .ok (ls.map Lexeme.token) ∧
    ∀ other : String, IsLayout ls other.toList →
      parse other = parse text ∧ parseAll other = parseAll text := by
  refine ⟨h.split_eq, fun other hother => ?_⟩
  have hsame : Token.split other = Token.split text := by rw [h.split_eq, hother.split_eq]
  simp only [parse, parseAll, hsame, and_self]

/-- A semicolon in a character or a string starts no comment, a comment ends a token at once, and the
last comment may lack its line end. -/
theorem layout_is_free_comments :
    Token.split "(;one\n#\\;;two\n.\t\"a;\nb\"\r\n);end" =
      .ok [.leftParen, .character ";", .dot, .string "a;\nb", .rightParen] ∧
    parse "( #\\; . \"a;\nb\" )" = parse "(;one\n#\\;;two\n.\t\"a;\nb\"\r\n);end" := by
  let ls : List Lexeme := [⟨['('], .leftParen, rfl⟩, ⟨['#', '\\', ';'], .character ";", rfl⟩,
    ⟨['.'], .dot, rfl⟩, ⟨['"', 'a', ';', '\n', 'b', '"'], .string "a;\nb", rfl⟩,
    ⟨[')'], .rightParen, rfl⟩]
  have hblank {c : Char} (h : c ∈ Token.blanks) : Token.IsSpace [c] := .blank h .nil
  have hcomment {line : List Char} (h : '\n' ∉ line) : Token.IsSpace (';' :: (line ++ ['\n'])) :=
    .comment h .nil
  have hspace : Token.IsSpace [' '] := hblank (by decide)
  have hone : IsLayout ls "( #\\; . \"a;\nb\" )".toList :=
    .start .nil <| .next hspace (by simp) <| .next hspace (by simp) <| .next hspace (by simp) <|
      .next hspace (by simp) <| .done (.space .nil)
  have hspread : IsLayout ls "(;one\n#\\;;two\n.\t\"a;\nb\"\r\n);end".toList :=
    .start .nil <| .next (hcomment (show '\n' ∉ ['o', 'n', 'e'] by decide)) (by simp) <|
      .next (hcomment (show '\n' ∉ ['t', 'w', 'o'] by decide)) (by simp) <|
      .next (hblank (show '\t' ∈ Token.blanks by decide)) (by simp) <|
      .next (.blank (show '\r' ∈ Token.blanks by decide)
        (hblank (show '\n' ∈ Token.blanks by decide))) (by simp) <|
      .done (.comment .nil (show '\n' ∉ ['e', 'n', 'd'] by decide))
  obtain ⟨hsplit, hfree⟩ := layout_is_free hspread
  exact ⟨hsplit, (hfree _ hone).1⟩

end Reader
end LittleScheme
