import LittleScheme.Proofs.Readable

/-!
# The grammar of data

A derivation is a datum as it stands in the tokens, with all that was written. The reader, which keeps
a stack of open constructs, accepts exactly the tokens of derivations: what is on its stack are
derivations that have been begun, and no tokens begin two different derivations.
-/
namespace LittleScheme.Reader

/-! ### Derivations -/

/-- The datum of a token that is one by itself, if its literal converts. -/
def literal? : Token → Option Datum
  | .atom text => some (atom text)
  | .character name => (character name).toOption
  | .string body => (unescape body.toList).toOption.map fun cs => .string (String.ofList cs)
  | .yes => some (.bool true)
  | .no => some (.bool false)
  | _ => none

/-- A token that is a datum by itself. -/
structure Literal where
  token : Token
  value : Datum
  converts : literal? token = some value

/-- The literal of an integer from 0 to 255. -/
structure ByteLiteral where
  text : String
  value : UInt8
  converts : ∃ n : Int64, Number.parse? text = some (.integer n) ∧ n.toInt = value.toNat

/-- How a datum is derived: it is a literal, a list, a list with a point before its tail and at least
one element before the point, a vector, a bytevector or a quoted datum. -/
inductive Derivation where
  | literal (l : Literal)
  | list (items : List Derivation)
  | dotted (first : Derivation) (more : List Derivation) (tail : Derivation)
  | vector (items : List Derivation)
  | bytes (items : List ByteLiteral)
  | quoted (datum : Derivation)

namespace Derivation

mutual

/-- The tokens of a derivation. -/
def tokens : Derivation → List Token
  | literal l => [l.token]
  | list items => .leftParen :: (tokensAll items ++ [.rightParen])
  | dotted first more tail =>
      .leftParen :: (first.tokens ++ (tokensAll more ++ .dot :: (tail.tokens ++ [.rightParen])))
  | vector items => .vectorOpen :: (tokensAll items ++ [.rightParen])
  | bytes items => .bytesOpen :: ((items.map fun b => .atom b.text) ++ [.rightParen])
  | quoted datum => .quote :: datum.tokens

/-- The tokens of some derivations, one after the other. -/
def tokensAll : List Derivation → List Token
  | [] => []
  | p :: ps => p.tokens ++ tokensAll ps

end

mutual

/-- The datum of a derivation. -/
def value : Derivation → Datum
  | literal l => l.value
  | list items => .list (values items)
  | dotted first more tail => .listWithTail (first.value :: values more) tail.value
  | vector items => .vector (values items)
  | bytes items => .bytes (items.map (·.value))
  | quoted datum => datum.value.quoted

/-- The data of some derivations. -/
def values : List Derivation → List Datum
  | [] => []
  | p :: ps => p.value :: values ps

end

theorem values_eq (ps : List Derivation) : values ps = ps.map value := by
  induction ps with
  | nil => rfl
  | cons p ps ih => rw [values, ih, List.map_cons]

theorem tokensAll_eq (ps : List Derivation) : tokensAll ps = ps.flatMap tokens := by
  induction ps with
  | nil => rfl
  | cons p ps ih => rw [tokensAll, ih, List.flatMap_cons]

theorem tokensAll_append (ps qs : List Derivation) :
    tokensAll (ps ++ qs) = tokensAll ps ++ tokensAll qs := by
  simp only [tokensAll_eq, List.flatMap_append]

theorem values_append (ps qs : List Derivation) : values (ps ++ qs) = values ps ++ values qs := by
  simp only [values_eq, List.map_append]

end Derivation

/-! ### No two derivations begin alike -/

/-- A token at which a sequence of data ends. -/
def EndsSequence (t : Token) : Prop := t = .rightParen ∨ t = .dot

theorem Literal.eq_of_token {l k : Literal} (h : l.token = k.token) : l = k := by
  obtain ⟨t, d, hd⟩ := l
  obtain ⟨t', d', hd'⟩ := k
  obtain rfl : t = t' := h
  obtain rfl : d = d' := Option.some.inj (hd.symm.trans hd')
  rfl

theorem ByteLiteral.eq_of_text {a b : ByteLiteral} (h : a.text = b.text) : a = b := by
  obtain ⟨text, x, n, hn, hx⟩ := a
  obtain ⟨text', y, m, hm, hy⟩ := b
  obtain rfl : text = text' := h
  obtain rfl : n = m := by simpa [hn] using hm
  obtain rfl : x = y := UInt8.toNat_inj.1 (by omega)
  rfl

theorem ByteLiteral.eq_of_tokens {as bs : List ByteLiteral} {rest rest' : List Token}
    (h : (as.map fun b => Token.atom b.text) ++ .rightParen :: rest =
      (bs.map fun b => Token.atom b.text) ++ .rightParen :: rest') : as = bs ∧ rest = rest' := by
  induction as generalizing bs with
  | nil =>
      cases bs with
      | nil => simpa using h
      | cons b bs => simp at h
  | cons a as ih =>
      cases bs with
      | nil => simp at h
      | cons b bs =>
          simp only [List.map_cons, List.cons_append, List.cons.injEq, Token.atom.injEq] at h
          obtain ⟨rfl, rfl⟩ := ih h.2
          exact ⟨by rw [ByteLiteral.eq_of_text h.1], rfl⟩

namespace Derivation

/-- The first token of a derivation. -/
def opening : Derivation → Token
  | literal l => l.token
  | list _ | dotted _ _ _ => .leftParen
  | vector _ => .vectorOpen
  | bytes _ => .bytesOpen
  | quoted _ => .quote

theorem tokens_eq_cons (p : Derivation) : ∃ ts, p.tokens = p.opening :: ts := by
  cases p <;> exact ⟨_, by rw [tokens]; rfl⟩

theorem not_endsSequence_opening (p : Derivation) : ¬ EndsSequence p.opening := by
  cases p with
  | literal l =>
      rintro (h | h) <;>
      · have hconverts := l.converts
        rw [show l.token = _ from h] at hconverts
        cases hconverts
  | list | dotted | vector | bytes | quoted => simp [EndsSequence, opening]

theorem opening_eq_of_tokens {p q : Derivation} {rest rest' : List Token}
    (h : p.tokens ++ rest = q.tokens ++ rest') : p.opening = q.opening := by
  obtain ⟨ts, hp⟩ := p.tokens_eq_cons
  obtain ⟨us, hq⟩ := q.tokens_eq_cons
  rw [hp, hq] at h
  exact (List.cons.inj h).1

/-- A construct is no literal. -/
theorem opening_ne_literal {t : Token} (ht : literal? t = none) (l : Literal) :
    (literal l).opening ≠ t := by
  rintro rfl
  rw [opening, l.converts] at ht
  cases ht

mutual

/-- Tokens that begin with two derivations begin with one. -/
theorem eq_of_tokens (p q : Derivation) {rest rest' : List Token}
    (h : p.tokens ++ rest = q.tokens ++ rest') : p = q ∧ rest = rest' := by
  have hopening := opening_eq_of_tokens h
  cases p with
  | literal l =>
      cases q with
      | literal k =>
          obtain rfl := Literal.eq_of_token hopening
          exact ⟨rfl, List.append_cancel_left h⟩
      | list | dotted | vector | bytes | quoted => exact absurd hopening (opening_ne_literal rfl l)
  | list items =>
      cases q with
      | literal k => exact absurd hopening.symm (opening_ne_literal rfl k)
      | list items' =>
          simp only [tokens, List.cons_append, List.append_assoc, List.cons.injEq, true_and,
            List.nil_append] at h
          obtain ⟨rfl, -, rfl⟩ := eq_of_tokensAll items items' (.inl rfl) (.inl rfl) h
          exact ⟨rfl, rfl⟩
      | dotted first more tail =>
          simp only [tokens, List.cons_append, List.append_assoc, List.cons.injEq, true_and,
            List.nil_append] at h
          have hmore := eq_of_tokensAll items (first :: more) (.inl rfl) (.inr rfl)
            (h.trans (List.append_assoc ..).symm)
          cases hmore.2.1
      | vector | bytes | quoted => cases hopening
  | dotted first more tail =>
      cases q with
      | literal k => exact absurd hopening.symm (opening_ne_literal rfl k)
      | list items =>
          simp only [tokens, List.cons_append, List.append_assoc, List.cons.injEq, true_and,
            List.nil_append] at h
          cases items with
          | nil =>
              obtain ⟨ts, hfirst⟩ := first.tokens_eq_cons
              rw [hfirst] at h
              exact absurd (.inl (List.cons.inj h).1) first.not_endsSequence_opening
          | cons item items =>
              obtain ⟨rfl, hrest⟩ := eq_of_tokens first item
                (h.trans (List.append_assoc ..))
              cases (eq_of_tokensAll more items (.inr rfl) (.inl rfl) hrest).2.1
      | dotted first' more' tail' =>
          simp only [tokens, List.cons_append, List.append_assoc, List.cons.injEq, true_and,
            List.nil_append] at h
          obtain ⟨rfl, hmore⟩ := eq_of_tokens first first' h
          obtain ⟨rfl, -, htail⟩ := eq_of_tokensAll more more' (.inr rfl) (.inr rfl) hmore
          obtain ⟨rfl, hclose⟩ := eq_of_tokens tail tail' htail
          exact ⟨rfl, (List.cons.inj hclose).2⟩
      | vector | bytes | quoted => cases hopening
  | vector items =>
      cases q with
      | literal k => exact absurd hopening.symm (opening_ne_literal rfl k)
      | vector items' =>
          simp only [tokens, List.cons_append, List.append_assoc, List.cons.injEq, true_and,
            List.nil_append] at h
          obtain ⟨rfl, -, rfl⟩ := eq_of_tokensAll items items' (.inl rfl) (.inl rfl) h
          exact ⟨rfl, rfl⟩
      | list | dotted | bytes | quoted => cases hopening
  | bytes items =>
      cases q with
      | literal k => exact absurd hopening.symm (opening_ne_literal rfl k)
      | bytes items' =>
          simp only [tokens, List.cons_append, List.append_assoc, List.cons.injEq, true_and,
            List.nil_append] at h
          obtain ⟨rfl, rfl⟩ := ByteLiteral.eq_of_tokens h
          exact ⟨rfl, rfl⟩
      | list | dotted | vector | quoted => cases hopening
  | quoted datum =>
      cases q with
      | literal k => exact absurd hopening.symm (opening_ne_literal rfl k)
      | quoted datum' =>
          simp only [tokens, List.cons_append, List.cons.injEq, true_and] at h
          obtain ⟨rfl, rfl⟩ := eq_of_tokens datum datum' h
          exact ⟨rfl, rfl⟩
      | list | dotted | vector | bytes => cases hopening

/-- Two sequences that end alike are the same. -/
theorem eq_of_tokensAll (ps qs : List Derivation) {t t' : Token} {rest rest' : List Token}
    (ht : EndsSequence t) (ht' : EndsSequence t')
    (h : tokensAll ps ++ t :: rest = tokensAll qs ++ t' :: rest') :
    ps = qs ∧ t = t' ∧ rest = rest' := by
  cases ps with
  | nil =>
      cases qs with
      | nil => exact ⟨rfl, List.cons.inj h⟩
      | cons q qs =>
          obtain ⟨ts, hq⟩ := q.tokens_eq_cons
          rw [tokensAll, tokensAll, hq] at h
          exact absurd ((List.cons.inj h).1 ▸ ht) q.not_endsSequence_opening
  | cons p ps =>
      cases qs with
      | nil =>
          obtain ⟨ts, hp⟩ := p.tokens_eq_cons
          rw [tokensAll, tokensAll, hp] at h
          exact absurd ((List.cons.inj h).1 ▸ ht') p.not_endsSequence_opening
      | cons q qs =>
          rw [tokensAll, tokensAll, List.append_assoc, List.append_assoc] at h
          obtain ⟨rfl, hrest⟩ := eq_of_tokens p q h
          obtain ⟨rfl, rfl, rfl⟩ := eq_of_tokensAll ps qs ht ht' hrest
          exact ⟨rfl, rfl, rfl⟩

end

end Derivation

/-! ### Derivations are read -/

/-- What the reader of one datum does after a token. -/
def resumeDatum (p : Progress) (rest : List Token) : Except Error (Datum × List Token) :=
  match p with
  | .datum d => .ok (d, rest)
  | .within stack => readDatum stack rest

theorem readDatum_cons {stack : List Open} {t : Token} {p : Progress} (h : step stack t = .ok p)
    (rest : List Token) : readDatum stack (t :: rest) = resumeDatum p rest := by
  rw [readDatum, h]
  cases p <;> rfl

/-- A literal is handed over as its datum. -/
theorem Literal.other_eq (l : Literal) (stack : List Open) :
    other stack l.token = .ok (deliver l.value stack) := by
  obtain ⟨t, d, h⟩ := l
  cases t with
  | atom text | yes | no =>
      obtain rfl := Option.some.inj h
      rfl
  | character name =>
      cases hc : character name with
      | error e => simp [literal?, hc, Except.toOption] at h
      | ok c =>
          obtain rfl : c = d := by simpa [literal?, hc, Except.toOption] using h
          simp [other, hc, Except.map]
  | string body =>
      cases hc : unescape body.toList with
      | error e => simp [literal?, hc, Except.toOption] at h
      | ok cs =>
          obtain rfl : .string (String.ofList cs) = d := by
            simpa [literal?, hc, Except.toOption] using h
          simp [other, hc, Except.map]
  | leftParen | rightParen | vectorOpen | bytesOpen | quote | dot => cases h

/-- The literal of a byte is read as a number, which is taken for the byte. -/
theorem ByteLiteral.byte_atom (b : ByteLiteral) : byte (atom b.text) = .ok b.value := by
  obtain ⟨n, hn, hx⟩ := b.converts
  have hlt := b.value.toNat_lt
  have hatom : atom b.text = .number (.integer n) := by rw [atom, hn]
  rw [hatom, byte, if_pos ⟨by omega, by omega⟩, hx, Int.toNat_natCast, UInt8.ofNat_toNat]

theorem mapM_byte_literals (items : List ByteLiteral) :
    (items.map fun b => atom b.text).mapM byte = .ok (items.map (·.value)) := by
  induction items with
  | nil => rfl
  | cons b items ih =>
      rw [List.map_cons, List.mapM_cons, b.byte_atom, ih]
      rfl

theorem readDatum_bytes (items : List ByteLiteral) (acc : List Datum) (stack : List Open)
    (rest : List Token) :
    readDatum (.bytes acc :: stack) ((items.map fun b => .atom b.text) ++ rest) =
      readDatum (.bytes ((items.map fun b => atom b.text).reverse ++ acc) :: stack) rest := by
  induction items generalizing acc with
  | nil => rfl
  | cons b items ih =>
      have hstep : step (.bytes acc :: stack) (.atom b.text) =
          .ok (.within (.bytes (atom b.text :: acc) :: stack)) := rfl
      rw [List.map_cons, List.cons_append, readDatum_cons hstep, resumeDatum, ih, List.map_cons,
        List.reverse_cons, List.append_assoc]
      rfl

namespace Derivation

mutual

/-- The reader hands a derived datum to the innermost open construct. -/
theorem readDatum_tokens (p : Derivation) {stack : List Open} (hs : Takes stack)
    (rest : List Token) :
    readDatum stack (p.tokens ++ rest) = resumeDatum (deliver p.value stack) rest := by
  cases p with
  | literal l =>
      rw [tokens, value, List.singleton_append]
      exact readDatum_cons ((step_eq_other hs _).trans (l.other_eq stack)) rest
  | list items =>
      have hopen : step stack .leftParen = .ok (.within (.list [] :: stack)) := step_eq_other hs _
      have hclose : step (.list (values items).reverse :: stack) .rightParen =
          .ok (deliver (.list (values items)) stack) := by
        rw [step_eq_other (by trivial), other, close, List.reverse_reverse]
      rw [tokens, value, List.cons_append, readDatum_cons hopen, resumeDatum, List.append_assoc,
        readDatum_tokensAll items .list (fun _ _ => rfl) (fun _ => trivial), List.append_nil,
        List.singleton_append, readDatum_cons hclose]
  | dotted first more tail =>
      have hopen : step stack .leftParen = .ok (.within (.list [] :: stack)) := step_eq_other hs _
      have hpoint : step (.list ((values more).reverse ++ [first.value]) :: stack) .dot =
          .ok (.within (.dotted ((values more).reverse ++ [first.value]) none :: stack)) := by
        rw [step_eq_other (by trivial), other]
        cases (values more).reverse <;> rfl
      have hclose : step (.dotted ((values more).reverse ++ [first.value]) (some tail.value) :: stack)
          .rightParen = .ok (deliver (.listWithTail (first.value :: values more) tail.value) stack) := by
        have hitems : ((values more).reverse ++ [first.value]).reverse =
            first.value :: values more := by simp
        rw [← hitems]
        rfl
      simp only [tokens, value, List.cons_append, List.append_assoc, List.nil_append]
      rw [readDatum_cons hopen, resumeDatum, readDatum_tokens first (by trivial), deliver, resumeDatum,
        readDatum_tokensAll more .list (fun _ _ => rfl) (fun _ => trivial), readDatum_cons hpoint,
        resumeDatum, readDatum_tokens tail (by trivial), deliver, resumeDatum, readDatum_cons hclose]
  | vector items =>
      have hopen : step stack .vectorOpen = .ok (.within (.vector [] :: stack)) := step_eq_other hs _
      have hclose : step (.vector (values items).reverse :: stack) .rightParen =
          .ok (deliver (.vector (values items)) stack) := by
        rw [step_eq_other (by trivial), other, close, List.reverse_reverse]
      rw [tokens, value, List.cons_append, readDatum_cons hopen, resumeDatum, List.append_assoc,
        readDatum_tokensAll items .vector (fun _ _ => rfl) (fun _ => trivial), List.append_nil,
        List.singleton_append, readDatum_cons hclose]
  | bytes items =>
      have hopen : step stack .bytesOpen = .ok (.within (.bytes [] :: stack)) := step_eq_other hs _
      have hclose : step (.bytes (items.map fun b => atom b.text).reverse :: stack) .rightParen =
          .ok (deliver (.bytes (items.map (·.value))) stack) := by
        rw [step_eq_other (by trivial), other, close, List.reverse_reverse, mapM_byte_literals]
        rfl
      rw [tokens, value, List.cons_append, readDatum_cons hopen, resumeDatum, List.append_assoc,
        readDatum_bytes, List.append_nil, List.singleton_append, readDatum_cons hclose]
  | quoted datum =>
      have hopen : step stack .quote = .ok (.within (.quote :: stack)) := step_eq_other hs _
      rw [tokens, value, List.cons_append, readDatum_cons hopen, resumeDatum,
        readDatum_tokens datum (by trivial), deliver]

/-- A construct that collects data collects the data of some derivations, last first. -/
theorem readDatum_tokensAll (ps : List Derivation) (construct : List Datum → Open)
    {acc : List Datum} {stack : List Open}
    (hcollects : ∀ acc d, deliver d (construct acc :: stack) = .within (construct (d :: acc) :: stack))
    (htakes : ∀ acc, Takes (construct acc :: stack)) (rest : List Token) :
    readDatum (construct acc :: stack) (tokensAll ps ++ rest) =
      readDatum (construct ((values ps).reverse ++ acc) :: stack) rest := by
  cases ps with
  | nil => rfl
  | cons p ps =>
      rw [tokensAll, values, List.append_assoc, readDatum_tokens p (htakes acc), hcollects, resumeDatum,
        readDatum_tokensAll ps construct hcollects htakes, List.reverse_cons, List.append_assoc,
        List.singleton_append]

end

end Derivation

/-! ### What is read is derived -/

/-- A construct that is open, with the derivations of what has been read in it. -/
inductive Begun where
  | list (items : List Derivation)
  | dotted (first : Derivation) (more : List Derivation) (tail : Option Derivation)
  | vector (items : List Derivation)
  | bytes (items : List Derivation)
  | quote

namespace Begun

open LittleScheme.Reader.Derivation

/-- The tokens that have been read of a construct. -/
def tokens : Begun → List Token
  | list items => .leftParen :: tokensAll items
  | dotted first more tail =>
      .leftParen :: (tokensAll (first :: more) ++ .dot :: tokensAll tail.toList)
  | vector items => .vectorOpen :: tokensAll items
  | bytes items => .bytesOpen :: tokensAll items
  | quote => [.quote]

/-- The construct as it stands on the stack of the reader. -/
def toOpen : Begun → Open
  | list items => .list (values items).reverse
  | dotted first more tail => .dotted (values (first :: more)).reverse (tail.map Derivation.value)
  | vector items => .vector (values items).reverse
  | bytes items => .bytes (values items).reverse
  | quote => .quote

/-- A datum may come next. -/
def Takes : Begun → Prop
  | dotted _ _ (some _) => False
  | _ => True

/-- The tokens that have been read of all open constructs, of which the innermost stands first. -/
def tokensBefore : List Begun → List Token
  | [] => []
  | b :: below => tokensBefore below ++ b.tokens

end Begun

open Begun (tokensBefore)

/-- What the reader has come to is derived from some tokens: a datum, or constructs that have been
begun. Only the innermost of them may have its tail already. -/
def Progress.Derived (ts : List Token) (p : Progress) : Prop :=
  (∃ d : Derivation, p = .datum d.value ∧ ts = d.tokens) ∨
    ∃ stack, p = .within (stack.map Begun.toOpen) ∧ (∀ b ∈ stack.tail, b.Takes) ∧
      ts = tokensBefore stack

theorem derived_deliver (d : Derivation) {stack : List Begun} (hstack : ∀ b ∈ stack, b.Takes) :
    (deliver d.value (stack.map Begun.toOpen)).Derived (tokensBefore stack ++ d.tokens) := by
  induction stack generalizing d with
  | nil => exact .inl ⟨d, rfl, rfl⟩
  | cons b below ih =>
      have hbelow : ∀ b ∈ below, b.Takes := fun b hb => hstack b (List.mem_cons_of_mem _ hb)
      have hsnoc (items : List Derivation) :
          (d.value :: (Derivation.values items).reverse) = (Derivation.values (items ++ [d])).reverse := by
        rw [Derivation.values_append, List.reverse_append]
        rfl
      have htokens (items : List Derivation) :
          Derivation.tokensAll (items ++ [d]) = Derivation.tokensAll items ++ d.tokens := by
        rw [Derivation.tokensAll_append, Derivation.tokensAll, Derivation.tokensAll, List.append_nil]
      cases b with
      | list items =>
          refine .inr ⟨.list (items ++ [d]) :: below, ?_, hbelow, ?_⟩
          · simp [Begun.toOpen, deliver, hsnoc]
          · simp [tokensBefore, Begun.tokens, htokens]
      | vector items =>
          refine .inr ⟨.vector (items ++ [d]) :: below, ?_, hbelow, ?_⟩
          · simp [Begun.toOpen, deliver, hsnoc]
          · simp [tokensBefore, Begun.tokens, htokens]
      | bytes items =>
          refine .inr ⟨.bytes (items ++ [d]) :: below, ?_, hbelow, ?_⟩
          · simp [Begun.toOpen, deliver, hsnoc]
          · simp [tokensBefore, Begun.tokens, htokens]
      | dotted first more tail =>
          cases tail with
          | some tail => exact absurd (hstack _ List.mem_cons_self) id
          | none =>
              refine .inr ⟨.dotted first more (some d) :: below, rfl, hbelow, ?_⟩
              simp [tokensBefore, Begun.tokens, Derivation.tokensAll]
      | quote =>
          have hquoted := ih (.quoted d) hbelow
          rw [Derivation.tokens] at hquoted
          rw [tokensBefore, Begun.tokens, List.append_assoc]
          exact hquoted

theorem number_of_atom {text : String} {n : Number} (h : atom text = .number n) :
    Number.parse? text = some n := by
  unfold atom at h
  split at h
  · rename_i m hm
    rw [hm, Datum.number.inj h]
  · split at h <;> cases h

theorem byte_eq_ok {d : Datum} {b : UInt8} (h : byte d = .ok b) :
    ∃ n : Int64, d = .number (.integer n) ∧ n.toInt = b.toNat := by
  unfold byte at h
  split at h
  · rename_i n
    split at h
    · rename_i hrange
      have hlt : n.toInt.toNat < 256 := by omega
      obtain rfl := Except.ok.inj h
      exact ⟨n, rfl, by rw [UInt8.toNat_ofNat_of_lt' hlt, Int.toNat_of_nonneg hrange.1]⟩
    · cases h
  · cases h

theorem character_eq_ok {name : String} {d : Datum} (h : character name = .ok d) :
    ∃ c, d = .char c := by
  unfold character at h
  split at h
  · exact ⟨_, (Except.ok.inj h).symm⟩
  · dsimp only at h
    split at h
    · exact ⟨_, (Except.ok.inj h).symm⟩
    · cases h

/-- The only literals of numbers are atoms. -/
theorem Literal.atom_of_number {l : Literal} {n : Number} (h : l.value = .number n) :
    ∃ text, l.token = .atom text ∧ Number.parse? text = some n := by
  obtain ⟨t, d, hd⟩ := l
  obtain rfl : d = .number n := h
  cases t with
  | atom text => exact ⟨text, rfl, number_of_atom (Option.some.inj hd)⟩
  | character name =>
      cases hc : character name with
      | error e => simp [literal?, hc, Except.toOption] at hd
      | ok v =>
          obtain ⟨c, rfl⟩ := character_eq_ok hc
          simp [literal?, hc, Except.toOption] at hd
  | string body =>
      cases hc : unescape body.toList <;> simp [literal?, hc, Except.toOption] at hd
  | leftParen | rightParen | vectorOpen | bytesOpen | quote | dot | yes | no => cases hd

/-- What is taken for a byte is the literal of one. -/
theorem exists_byteLiteral {d : Derivation} {b : UInt8} (h : byte d.value = .ok b) :
    ∃ l : ByteLiteral, l.value = b ∧ d.tokens = [.atom l.text] := by
  cases d with
  | literal l =>
      obtain ⟨n, hvalue, hn⟩ := byte_eq_ok h
      obtain ⟨text, htoken, hparse⟩ := l.atom_of_number hvalue
      exact ⟨⟨text, b, n, hparse, hn⟩, rfl, by rw [Derivation.tokens, htoken]⟩
  | list items => cases items <;> cases h
  | dotted | vector | bytes | quoted => cases h

theorem exists_byteLiterals {items : List Derivation} {bs : List UInt8}
    (h : (Derivation.values items).mapM byte = .ok bs) :
    ∃ ls : List ByteLiteral, ls.map (·.value) = bs ∧
      Derivation.tokensAll items = ls.map fun l => .atom l.text := by
  induction items generalizing bs with
  | nil =>
      obtain rfl := Except.ok.inj h
      exact ⟨[], rfl, rfl⟩
  | cons d items ih =>
      rw [Derivation.values, List.mapM_cons] at h
      cases hd : byte d.value with
      | error e => simp [hd, bind, Except.bind] at h
      | ok b =>
          cases hitems : (Derivation.values items).mapM byte with
          | error e => simp [hd, hitems, bind, Except.bind] at h
          | ok rest =>
              obtain rfl : b :: rest = bs := by
                simpa [hd, hitems, bind, Except.bind, pure, Except.pure] using h
              obtain ⟨l, rfl, hl⟩ := exists_byteLiteral hd
              obtain ⟨ls, rfl, hls⟩ := ih hitems
              exact ⟨l :: ls, rfl, by rw [Derivation.tokensAll, hl, hls]; rfl⟩

/-- The end of a construct makes a derivation of it. -/
theorem derived_close {stack : List Begun} {p : Progress} (hstack : ∀ b ∈ stack.tail, b.Takes)
    (h : close (stack.map Begun.toOpen) = .ok p) :
    p.Derived (tokensBefore stack ++ [.rightParen]) := by
  cases stack with
  | nil => cases h
  | cons b below =>
      cases b with
      | list items =>
          obtain rfl := Except.ok.inj h
          have hderived := derived_deliver (.list items) hstack
          rw [List.reverse_reverse]
          simpa [tokensBefore, Begun.tokens, Derivation.tokens, Derivation.value] using hderived
      | dotted first more tail =>
          cases tail with
          | none => cases h
          | some tail =>
              obtain rfl := Except.ok.inj h
              have hderived := derived_deliver (.dotted first more tail) hstack
              rw [List.reverse_reverse]
              simpa [tokensBefore, Begun.tokens, Derivation.tokens, Derivation.tokensAll,
                Derivation.value, Derivation.values] using hderived
      | vector items =>
          obtain rfl := Except.ok.inj h
          have hderived := derived_deliver (.vector items) hstack
          rw [List.reverse_reverse]
          simpa [tokensBefore, Begun.tokens, Derivation.tokens, Derivation.value] using hderived
      | bytes items =>
          change ((Derivation.values items).reverse.reverse.mapM byte).map _ = _ at h
          rw [List.reverse_reverse] at h
          cases hbytes : (Derivation.values items).mapM byte with
          | error e => simp [hbytes, Except.map] at h
          | ok bs =>
              obtain rfl := Except.ok.inj ((congrArg (Except.map _) hbytes).symm.trans h)
              obtain ⟨ls, rfl, hls⟩ := exists_byteLiterals hbytes
              have hderived := derived_deliver (.bytes ls) hstack
              simpa [tokensBefore, Begun.tokens, Derivation.tokens, Derivation.value, hls]
                using hderived
      | quote => cases h

theorem point_cons {items : List Datum} (h : items ≠ []) (stack : List Open) :
    point (.list items :: stack) = .ok (.within (.dotted items none :: stack)) := by
  cases items with
  | nil => exact absurd rfl h
  | cons d items => rfl

/-- A point makes a list that has an element a list with a point. -/
theorem derived_point {stack : List Begun} {p : Progress} (hstack : ∀ b ∈ stack.tail, b.Takes)
    (h : point (stack.map Begun.toOpen) = .ok p) : p.Derived (tokensBefore stack ++ [.dot]) := by
  cases stack with
  | nil => cases h
  | cons b below =>
      cases b with
      | list items =>
          cases items with
          | nil => cases h
          | cons first more =>
              rw [List.map_cons, Begun.toOpen, point_cons (by simp [Derivation.values])] at h
              obtain rfl := Except.ok.inj h
              refine .inr ⟨.dotted first more none :: below, rfl, hstack, ?_⟩
              simp [tokensBefore, Begun.tokens, Derivation.tokensAll]
      | dotted first more tail => cases h
      | vector | bytes | quote => cases h

theorem derived_other {stack : List Begun} {t : Token} {p : Progress}
    (hstack : ∀ b ∈ stack, b.Takes) (h : other (stack.map Begun.toOpen) t = .ok p) :
    p.Derived (tokensBefore stack ++ [t]) := by
  have htail : ∀ b ∈ stack.tail, b.Takes := fun b hb => hstack b (List.mem_of_mem_tail hb)
  have hliteral (l : Literal) (hl : deliver l.value (stack.map Begun.toOpen) = p) :
      p.Derived (tokensBefore stack ++ [l.token]) := by
    subst hl
    have hderived := derived_deliver (.literal l) hstack
    rwa [Derivation.tokens] at hderived
  have hpush (b : Begun) (hb : b.tokens = [t])
      (hp : .within (b.toOpen :: stack.map Begun.toOpen) = p) :
      p.Derived (tokensBefore stack ++ [t]) := by
    subst hp
    exact .inr ⟨b :: stack, rfl, hstack, by rw [tokensBefore, hb]⟩
  cases t with
  | leftParen => exact hpush (.list []) rfl (Except.ok.inj h)
  | vectorOpen => exact hpush (.vector []) rfl (Except.ok.inj h)
  | bytesOpen => exact hpush (.bytes []) rfl (Except.ok.inj h)
  | quote => exact hpush .quote rfl (Except.ok.inj h)
  | rightParen => exact derived_close htail h
  | dot => exact derived_point htail h
  | yes => exact hliteral ⟨.yes, _, rfl⟩ (Except.ok.inj h)
  | no => exact hliteral ⟨.no, _, rfl⟩ (Except.ok.inj h)
  | atom text => exact hliteral ⟨.atom text, _, rfl⟩ (Except.ok.inj h)
  | character name =>
      cases hc : character name with
      | error e => simp [other, hc, Except.map] at h
      | ok d =>
          rw [other, hc] at h
          exact hliteral ⟨.character name, d, by simp [literal?, hc, Except.toOption]⟩ (Except.ok.inj h)
  | string body =>
      cases hc : unescape body.toList with
      | error e => simp [other, hc, Except.map] at h
      | ok cs =>
          rw [other, hc] at h
          exact hliteral ⟨.string body, _, by simp [literal?, hc, Except.toOption]⟩ (Except.ok.inj h)

/-- One token keeps what has been read derived. -/
theorem derived_step {stack : List Begun} {t : Token} {p : Progress}
    (hstack : ∀ b ∈ stack.tail, b.Takes) (h : step (stack.map Begun.toOpen) t = .ok p) :
    p.Derived (tokensBefore stack ++ [t]) := by
  cases stack with
  | nil =>
      rw [step_eq_other (by trivial)] at h
      exact derived_other (by simp) h
  | cons b below =>
      by_cases hb : b.Takes
      · have htakes : Takes ((b :: below).map Begun.toOpen) := by
          cases b with
          | dotted first more tail =>
              cases tail with
              | none => trivial
              | some tail => exact hb.elim
          | _ => trivial
        rw [step_eq_other htakes] at h
        exact derived_other (List.forall_mem_cons.2 ⟨hb, hstack⟩) h
      · cases b with
        | dotted first more tail =>
            cases tail with
            | none => exact absurd trivial hb
            | some tail =>
                cases t with
                | rightParen => exact derived_close hstack h
                | _ => cases h
        | _ => exact absurd trivial hb

/-- What is read is derived from the tokens of the open constructs and those that follow, up to the
rest. -/
theorem readDatum_derived {ts : List Token} {stack : List Begun} {d : Datum} {rest : List Token}
    (hstack : ∀ b ∈ stack.tail, b.Takes)
    (h : readDatum (stack.map Begun.toOpen) ts = .ok (d, rest)) :
    ∃ p : Derivation, p.value = d ∧ tokensBefore stack ++ ts = p.tokens ++ rest := by
  induction ts generalizing stack with
  | nil => cases h
  | cons t ts ih =>
      cases hstep : step (stack.map Begun.toOpen) t with
      | error e => simp [readDatum, hstep] at h
      | ok progress =>
          rw [readDatum_cons hstep] at h
          rcases derived_step hstack hstep with ⟨p, rfl, hp⟩ | ⟨stack', rfl, hstack', hp⟩
          · obtain ⟨rfl, rfl⟩ := Prod.mk.inj (Except.ok.inj h)
            exact ⟨p, rfl, by rw [← hp, List.append_assoc, List.singleton_append]⟩
          · obtain ⟨p, hd, htokens⟩ := ih hstack' h
            exact ⟨p, hd, by rw [← htokens, ← hp, List.append_assoc, List.singleton_append]⟩

/-- Reading all data reads the first one first. -/
theorem readAll_eq_of_readDatum {stack : List Open} {ts : List Token} {d : Datum}
    {rest : List Token} (h : readDatum stack ts = .ok (d, rest)) :
    readAll stack ts = (readAll [] rest).map (d :: ·) := by
  induction ts generalizing stack with
  | nil => cases h
  | cons t ts ih =>
      cases hstep : step stack t with
      | error e => simp [readDatum, hstep] at h
      | ok p =>
          rw [readDatum_cons hstep] at h
          cases p with
          | datum d' =>
              obtain ⟨rfl, rfl⟩ := Prod.mk.inj (Except.ok.inj h)
              rw [readAll, hstep]
          | within stack' =>
              rw [readAll, hstep]
              exact ih h

theorem readDatum_eq_ok_iff {ts : List Token} {d : Datum} {rest : List Token} :
    readDatum [] ts = .ok (d, rest) ↔ ∃ p : Derivation, p.value = d ∧ ts = p.tokens ++ rest := by
  constructor
  · intro h
    exact @readDatum_derived ts [] d rest (by simp) h
  · rintro ⟨p, rfl, rfl⟩
    exact p.readDatum_tokens (by trivial) rest

/-- Reading all data succeeds on the tokens of some derivations, and gives their data in order. -/
theorem readAll_eq_ok_iff {ts : List Token} {ds : List Datum} :
    readAll [] ts = .ok ds ↔
      ∃ ps : List Derivation, ps.map Derivation.value = ds ∧ ts = ps.flatMap Derivation.tokens := by
  induction ds generalizing ts with
  | nil =>
      constructor
      · intro h
        exact ⟨[], rfl, (readAll_eq_ok_nil h).2⟩
      · rintro ⟨ps, hps, rfl⟩
        obtain rfl := List.map_eq_nil_iff.1 hps
        rfl
  | cons d ds ih =>
      constructor
      · intro h
        obtain ⟨rest, hd, hds⟩ := readAll_eq_ok_cons h
        obtain ⟨p, rfl, rfl⟩ := readDatum_eq_ok_iff.1 hd
        obtain ⟨ps, rfl, rfl⟩ := ih.1 hds
        exact ⟨p :: ps, rfl, rfl⟩
      · rintro ⟨ps, hps, rfl⟩
        obtain ⟨p, qs, rfl, rfl, rfl⟩ := List.map_eq_cons_iff.1 hps
        have hd : readDatum [] (p.tokens ++ qs.flatMap Derivation.tokens) =
            .ok (p.value, qs.flatMap Derivation.tokens) := readDatum_eq_ok_iff.2 ⟨p, rfl, rfl⟩
        rw [List.flatMap_cons, readAll_eq_of_readDatum hd, ih.2 ⟨qs, rfl, rfl⟩]
        rfl

/-- A datum takes at least one token. -/
theorem length_lt_of_readDatum {ts : List Token} {d : Datum} {rest : List Token}
    (h : readDatum [] ts = .ok (d, rest)) : rest.length < ts.length := by
  obtain ⟨p, rfl, rfl⟩ := readDatum_eq_ok_iff.1 h
  obtain ⟨more, hmore⟩ := p.tokens_eq_cons
  rw [hmore, List.length_append, List.length_cons]
  omega

theorem parse_eq_ok_iff {text : String} {d : Datum} :
    parse text = .ok d ↔ ∃ p : Derivation, p.value = d ∧ Token.split text = .ok p.tokens := by
  rw [parse]
  cases hsplit : Token.split text with
  | error e => simp [bind, Except.bind]
  | ok ts =>
      have hiff : readDatum [] ts = .ok (d, []) ↔
          ∃ p : Derivation, p.value = d ∧ (.ok ts : Except Error (List Token)) = .ok p.tokens := by
        rw [readDatum_eq_ok_iff]
        simp only [List.append_nil, Except.ok.injEq]
      rw [← hiff]
      cases hread : readDatum [] ts with
      | error e => simp [hread, bind, Except.bind]
      | ok found =>
          obtain ⟨d', rest⟩ := found
          cases rest with
          | nil => simp [hread, bind, Except.bind, pure, Except.pure]
          | cons t rest =>
              simp [hread, bind, Except.bind, throw, throwThe, MonadExceptOf.throw]

theorem parseAll_eq_ok_iff {text : String} {ds : List Datum} :
    parseAll text = .ok ds ↔ ∃ ps : List Derivation, ps.map Derivation.value = ds ∧
      Token.split text = .ok (ps.flatMap Derivation.tokens) := by
  rw [parseAll]
  cases hsplit : Token.split text with
  | error e => simp [bind, Except.bind]
  | ok ts =>
      simp only [bind, Except.bind, Except.ok.injEq]
      exact readAll_eq_ok_iff

/-- The reader accepts exactly the grammar of data. A datum and the rest are read from tokens exactly
when these are the tokens of a derivation of the datum, followed by the rest, and no other derivation
stands there; the rest is shorter. A text is one datum when its tokens are those of a derivation, and
the data of a text are those of the derivations whose tokens, one after the other, it consists of. -/
theorem reads_exactly_the_grammar :
    (∀ (ts rest : List Token) (d : Datum), readDatum [] ts = .ok (d, rest) ↔
      ∃ p : Derivation, p.value = d ∧ ts = p.tokens ++ rest) ∧
    (∀ (p q : Derivation) (rest rest' : List Token),
      p.tokens ++ rest = q.tokens ++ rest' → p = q ∧ rest = rest') ∧
    (∀ (ts rest : List Token) (d : Datum),
      readDatum [] ts = .ok (d, rest) → rest.length < ts.length) ∧
    (∀ (text : String) (d : Datum), parse text = .ok d ↔
      ∃ p : Derivation, p.value = d ∧ Token.split text = .ok p.tokens) ∧
    ∀ (text : String) (ds : List Datum), parseAll text = .ok ds ↔
      ∃ ps : List Derivation, ps.map Derivation.value = ds ∧
        Token.split text = .ok (ps.flatMap Derivation.tokens) :=
  ⟨fun _ _ _ => readDatum_eq_ok_iff, fun p q _ _ h => p.eq_of_tokens q h,
    fun _ _ _ h => length_lt_of_readDatum h, fun _ _ => parse_eq_ok_iff,
    fun _ _ => parseAll_eq_ok_iff⟩

/-- A list with a point and a quoted tail, of which the closing parenthesis after it is no part. -/
theorem reads_exactly_the_grammar_dotted :
    readDatum [] [.leftParen, .atom "a", .dot, .quote, .atom "b", .rightParen, .rightParen] =
      .ok (.listWithTail [atom "a"] (atom "b").quoted, [.rightParen]) :=
  (reads_exactly_the_grammar.1 _ _ _).2
    ⟨.dotted (.literal ⟨.atom "a", _, rfl⟩) [] (.quoted (.literal ⟨.atom "b", _, rfl⟩)), rfl, rfl⟩

end LittleScheme.Reader
