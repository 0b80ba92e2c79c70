import LittleScheme.Proofs.Literals
import Mathlib.Data.List.Forall2

/-!
# Reading what was written

The text of a datum falls into the tokens `tokensAs` lists, in front of any text that a token cannot
run into, and the reader, given these tokens, hands the datum over to whatever is open. Both facts
follow the tree of the datum, in its two modes: a datum of its own, and the tail of an open list.
-/
namespace LittleScheme

namespace Datum

mutual

/-- A datum that the reader can produce: its symbols have names that read as symbols. -/
def Readable : Datum → Prop
  | .symbol name => Reader.IsSymbolName name
  | .pair car cdr => car.Readable ∧ cdr.Readable
  | .vector items => AllReadable items
  | _ => True

/-- All of some data can be read. -/
def AllReadable : List Datum → Prop
  | [] => True
  | d :: rest => d.Readable ∧ AllReadable rest

end

mutual

/-- The text of every real in the datum denotes the same real. -/
def RealsReadBack : Datum → Prop
  | .number (.real x) => Number.parse? (Inexact.text x) = some (.real x)
  | .pair car cdr => car.RealsReadBack ∧ cdr.RealsReadBack
  | .vector items => AllRealsReadBack items
  | _ => True

/-- The text of every real in some data denotes the same real. -/
def AllRealsReadBack : List Datum → Prop
  | [] => True
  | d :: rest => d.RealsReadBack ∧ AllRealsReadBack rest

end

theorem allReadable_iff {items : List Datum} : AllReadable items ↔ ∀ d ∈ items, d.Readable := by
  induction items with
  | nil => simp [AllReadable]
  | cons d items ih => simp [AllReadable, ih]

theorem allRealsReadBack_iff {items : List Datum} :
    AllRealsReadBack items ↔ ∀ d ∈ items, d.RealsReadBack := by
  induction items with
  | nil => simp [AllRealsReadBack]
  | cons d items ih => simp [AllRealsReadBack, ih]

/-- The point before a tail that is not a list. -/
def pointBefore (asTail : Bool) : List Token := if asTail then [.dot] else []

mutual

/-- The tokens of the text of a datum. As the tail of a pair, it goes on with an open list. -/
def tokensAs (asTail : Bool) : Datum → List Token
  | .nil => if asTail then [] else [.leftParen, .rightParen]
  | .pair car cdr =>
      let inner := tokensAs false car ++ tokensAs true cdr
      if asTail then inner else .leftParen :: (inner ++ [.rightParen])
  | .bool b => pointBefore asTail ++ [if b then .yes else .no]
  | .number n => pointBefore asTail ++ [.atom n.text]
  | .char c => pointBefore asTail ++ [.character (Text.charName c)]
  | .string s => pointBefore asTail ++ [.string (String.ofList (s.toList.flatMap Text.escapeChar))]
  | .symbol name => pointBefore asTail ++ [.atom name]
  | .keyword k => pointBefore asTail ++ [.atom k.name]
  | .vector items => pointBefore asTail ++ .vectorOpen :: (tokensAll items ++ [.rightParen])
  | .bytes items =>
      pointBefore asTail ++ .bytesOpen :: (items.map (fun b => .atom (toString b.toNat)) ++
        [.rightParen])

/-- The tokens of the texts of some data. -/
def tokensAll : List Datum → List Token
  | [] => []
  | d :: rest => tokensAs false d ++ tokensAll rest

end

theorem tokensAll_eq (items : List Datum) :
    tokensAll items = (items.map (tokensAs false)).flatten := by
  induction items with
  | nil => rfl
  | cons d items ih => rw [tokensAll, ih, List.map_cons, List.flatten_cons]

end Datum

namespace Text

/-- Texts with a separator between any two of them, the one after text `i` at place `i`. -/
def joined (sep : Nat → Char) : List String → String
  | [] => ""
  | [t] => t
  | t :: u :: rest => t ++ String.singleton (sep 0) ++ joined (fun i => sep (i + 1)) (u :: rest)

theorem spaced_eq_joined (texts : List String) : spaced texts = joined (fun _ => ' ') texts := by
  induction texts with
  | nil => rfl
  | cons t texts ih =>
      cases texts with
      | nil => simp [spaced, joined]
      | cons u texts =>
          rw [joined, ← ih]
          simp [spaced, -String.toList_intercalate]

end Text

/-! ### From texts to tokens -/

namespace Token

/-- A text falls into the given tokens, whatever delimited text comes after it. -/
def Lexes (text : List Char) (ts : List Token) : Prop :=
  ∀ rest, Delimited rest → tokens (text ++ rest) = (tokens rest).map (ts ++ ·)

/-- A text that a token before it cannot run into. -/
def Apart (text : List Char) : Prop := ∀ rest, Delimited rest → Delimited (text ++ rest)

theorem apart_nil : Apart [] := fun _ h => h

theorem apart_cons {c : Char} (h : c = ' ' ∨ c = '\n' ∨ c = ')') (cs : List Char) :
    Apart (c :: cs) := fun rest _ => delimited_cons h (cs ++ rest)

theorem map_map_append (x : Except Error (List Token)) (ts us : List Token) :
    (x.map (us ++ ·)).map (ts ++ ·) = x.map ((ts ++ us) ++ ·) := by
  cases x <;> simp [Except.map]

theorem lexes_nil : Lexes [] [] := by
  intro rest _
  cases h : tokens rest <;> simp [Except.map, h]

theorem Lexes.append {a b : List Char} {ts us : List Token} (ha : Lexes a ts) (hb : Lexes b us)
    (happ : Apart b) : Lexes (a ++ b) (ts ++ us) := by
  intro rest hr
  rw [List.append_assoc, ha _ (happ rest hr), hb rest hr, map_map_append]

/-- A token that ends by itself may stand before anything. -/
theorem Lexes.cons {c : List Char} {t : Token}
    (hc : ∀ rest, tokens (c ++ rest) = (tokens rest).map (t :: ·)) {b : List Char}
    {us : List Token} (hb : Lexes b us) : Lexes (c ++ b) (t :: us) := by
  intro rest hr
  rw [List.append_assoc, hc, hb rest hr]
  cases tokens rest <;> rfl

theorem lexes_close : Lexes [')'] [.rightParen] := by
  intro rest _
  rw [List.singleton_append, tokens_rightParen]
  rfl

theorem Lexes.skip {c : Char} (hc : isSkipped c = true) {b : List Char} {us : List Token}
    (hb : Lexes b us) : Lexes (c :: b) us := by
  intro rest hr
  rw [List.cons_append, tokens_skip hc, hb rest hr]

/-- A text after a point. -/
theorem Lexes.before {b : List Char} {us : List Token} (asTail : Bool) (hb : Lexes b us) :
    Lexes ((Datum.before asTail).toList ++ b) (Datum.pointBefore asTail ++ us) := by
  cases asTail
  · exact hb
  · exact Lexes.cons (c := [' ', '.', ' ']) tokens_dot hb

/-- Texts that are kept apart by blanks or line ends. -/
theorem Lexes.joined {texts : List String} {tss : List (List Token)} {sep : Nat → Char}
    (h : List.Forall₂ (fun t ts => Lexes t.toList ts) texts tss)
    (hsep : ∀ i, sep i = ' ' ∨ sep i = '\n') :
    Lexes (Text.joined sep texts).toList tss.flatten := by
  induction h generalizing sep with
  | nil => exact lexes_nil
  | @cons t ts texts tss ht _ ih =>
      cases texts with
      | nil =>
          cases tss with
          | nil => simpa [Text.joined] using ht
          | cons => contradiction
      | cons u texts =>
          have hskip : isSkipped (sep 0) = true := by
            rcases hsep 0 with h | h <;> rw [h] <;> decide
          have hapart : sep 0 = ' ' ∨ sep 0 = '\n' ∨ sep 0 = ')' := by
            rcases hsep 0 with h | h <;> simp [h]
          have happ : (Text.joined sep (t :: u :: texts)).toList =
              t.toList ++ sep 0 :: (Text.joined (fun i => sep (i + 1)) (u :: texts)).toList := by
            simp [Text.joined]
          rw [happ, List.flatten_cons]
          exact ht.append ((ih fun i => hsep (i + 1)).skip hskip) (apart_cons hapart _)

theorem Lexes.spaced {texts : List String} {tss : List (List Token)}
    (h : List.Forall₂ (fun t ts => Lexes t.toList ts) texts tss) :
    Lexes (Text.spaced texts).toList tss.flatten := by
  rw [Text.spaced_eq_joined]
  exact Lexes.joined h fun _ => .inl rfl

/-- A text of one token that ends where the text is delimited. -/
theorem lexes_of_tokens {text : List Char} {t : Token}
    (h : ∀ rest, Delimited rest → tokens (text ++ rest) = (tokens rest).map (t :: ·)) :
    Lexes text [t] := h

theorem lexes_atom {text : String} (h : IsAtom text.toList) : Lexes text.toList [.atom text] := by
  refine lexes_of_tokens fun rest hr => ?_
  rw [tokens_atom h hr, String.ofList_toList]

theorem isAtom_number (n : Number) : IsAtom n.text.toList := by
  cases n with
  | integer n => exact (Number.integer_text n).1
  | real x => exact Inexact.isAtom_text x

theorem lexes_bytes (items : List UInt8) :
    Lexes (Text.spaced (items.map fun b => toString b.toNat)).toList
      (items.map fun b => .atom (toString b.toNat)) := by
  have hall : List.Forall₂ (fun (t : String) ts => Lexes t.toList ts)
      (items.map fun b => toString b.toNat) (items.map fun b => [.atom (toString b.toNat)]) := by
    rw [List.forall₂_map_left_iff, List.forall₂_map_right_iff, List.forall₂_same]
    exact fun b _ => lexes_atom (Reader.byte_text b).1
  have h := Lexes.spaced hall
  rwa [← List.flatMap_def, ← List.map_eq_flatMap] at h

/-- A tail of a list is kept apart from what stands before it. -/
theorem apart_tail (d : Datum) : Apart (d.textAs .write true).toList := by
  cases d <;> simp only [Datum.textAs, Datum.before, if_true, String.toList_append] <;>
    first | exact apart_nil | exact apart_cons (.inl rfl) _

mutual

/-- The text of a datum falls into its tokens. -/
theorem lexes_text (asTail : Bool) (d : Datum) (h : d.Readable) :
    Lexes (d.textAs .write asTail).toList (d.tokensAs asTail) := by
  cases d with
  | nil =>
      cases asTail
      · exact Lexes.cons (c := ['(']) tokens_leftParen lexes_close
      · exact lexes_nil
  | bool b =>
      simp only [Datum.textAs, Datum.tokensAs, String.toList_append]
      exact Lexes.before asTail (lexes_of_tokens fun rest hr => tokens_bool b hr)
  | number n =>
      simp only [Datum.textAs, Datum.tokensAs, String.toList_append]
      exact Lexes.before asTail (lexes_atom (isAtom_number n))
  | char c =>
      simp only [Datum.textAs, Datum.tokensAs, String.toList_append]
      exact Lexes.before asTail (lexes_of_tokens fun rest hr => tokens_char c hr)
  | string s =>
      simp only [Datum.textAs, Datum.tokensAs, String.toList_append]
      exact Lexes.before asTail (lexes_of_tokens fun rest _ => tokens_string s rest)
  | symbol name =>
      simp only [Datum.textAs, Datum.tokensAs, String.toList_append]
      exact Lexes.before asTail (lexes_atom (Reader.IsSymbolName.spelling h))
  | keyword k =>
      simp only [Datum.textAs, Datum.tokensAs, String.toList_append]
      exact Lexes.before asTail (lexes_atom (Reader.isAtom_keyword k))
  | pair car cdr =>
      have hcar := lexes_text false car h.1
      have hcdr := lexes_text true cdr h.2
      have hinner := hcar.append hcdr (apart_tail cdr)
      cases asTail
      · simp only [Datum.textAs, Datum.tokensAs, Bool.false_eq_true, if_false,
          String.toList_append]
        rw [List.append_assoc]
        exact Lexes.cons (c := ['(']) tokens_leftParen
          (hinner.append lexes_close (apart_cons (.inr (.inr rfl)) []))
      · simp only [Datum.textAs, Datum.tokensAs, if_true, String.toList_append]
        exact hinner.skip (by decide)
  | vector items =>
      have hitems := Lexes.spaced (lexes_texts items h)
      rw [← Datum.tokensAll_eq] at hitems
      simp only [Datum.textAs, Datum.tokensAs, String.toList_append]
      rw [List.append_assoc, List.append_assoc]
      exact Lexes.before asTail (Lexes.cons (c := ['#', '(']) tokens_vectorOpen
        (hitems.append lexes_close (apart_cons (.inr (.inr rfl)) [])))
  | bytes items =>
      simp only [Datum.textAs, Datum.tokensAs, String.toList_append]
      rw [List.append_assoc, List.append_assoc]
      exact Lexes.before asTail (Lexes.cons (c := ['#', 'v', 'u', '8', '(']) tokens_bytesOpen
        ((lexes_bytes items).append lexes_close (apart_cons (.inr (.inr rfl)) [])))

/-- The texts of the elements of a vector fall into their tokens. -/
theorem lexes_texts (items : List Datum) (h : Datum.AllReadable items) :
    List.Forall₂ (fun t ts => Lexes t.toList ts) (Datum.texts .write items)
      (items.map (Datum.tokensAs false)) := by
  cases items with
  | nil => exact .nil
  | cons d items => exact .cons (lexes_text false d h.1) (lexes_texts items h.2)

end

end Token

/-! ### From tokens to data -/

namespace Reader

/-- What becomes of the tokens that are left after one has been dealt with. -/
def resume (p : Progress) (rest : List Token) : Except Error (List Datum) :=
  match p with
  | .datum d => (readAll [] rest).map (d :: ·)
  | .within stack => readAll stack rest

theorem readAll_cons {stack : List Open} {t : Token} {p : Progress} (h : step stack t = .ok p)
    (rest : List Token) : readAll stack (t :: rest) = resume p rest := by
  rw [readAll, h]
  cases p <;> rfl

/-- A datum may come next: the innermost construct is no dotted list that has its tail. -/
def Takes : List Open → Prop
  | .dotted _ (some _) :: _ => False
  | _ => True

theorem step_eq_other {stack : List Open} (h : Takes stack) (t : Token) :
    step stack t = other stack t := by
  unfold step
  split
  · simp [Takes] at h
  · simp [Takes] at h
  · rfl

/-- The reader, given the tokens of a datum, hands it to the innermost open construct. -/
def Reads (d : Datum) : Prop :=
  ∀ stack rest, Takes stack → readAll stack (d.tokensAs false ++ rest) = resume (deliver d stack) rest

/-- The reader, given the tokens of the tail of an open list and the end of the list, hands over the
list with this tail. -/
def ReadsTail (d : Datum) : Prop :=
  ∀ items stack rest, items ≠ [] →
    readAll (.list items :: stack) (d.tokensAs true ++ .rightParen :: rest) =
      resume (deliver (.listWithTail items.reverse d) stack) rest

theorem reads_single {d : Datum} {t : Token} (ht : d.tokensAs false = [t])
    (h : ∀ stack, other stack t = .ok (deliver d stack)) : Reads d := by
  intro stack rest hs
  rw [ht, List.singleton_append]
  exact readAll_cons ((step_eq_other hs t).trans (h stack)) rest

/-- A tail that stands after a point. -/
theorem Reads.tail {d : Datum} (h : Reads d) (ht : d.tokensAs true = .dot :: d.tokensAs false) :
    ReadsTail d := by
  intro items stack rest hne
  have hpoint : step (.list items :: stack) .dot = .ok (.within (.dotted items none :: stack)) := by
    cases items with
    | nil => contradiction
    | cons => rfl
  have hclose : step (.dotted items (some d) :: stack) .rightParen =
      .ok (deliver (.listWithTail items.reverse d) stack) := rfl
  rw [ht, List.cons_append, readAll_cons hpoint, resume,
    h (.dotted items none :: stack) _ trivial, deliver, resume, readAll_cons hclose]

theorem readsTail_nil : ReadsTail .nil := by
  intro items stack rest _
  exact readAll_cons rfl rest

theorem reads_nil : Reads .nil := by
  intro stack rest hs
  have hopen : step stack .leftParen = .ok (.within (.list [] :: stack)) :=
    step_eq_other hs .leftParen
  have hclose : step (.list [] :: stack) .rightParen = .ok (deliver .nil stack) := rfl
  rw [Datum.tokensAs, if_neg Bool.false_ne_true, List.cons_append, readAll_cons hopen, resume]
  exact readAll_cons hclose rest

theorem readsTail_pair {car cdr : Datum} (hcar : Reads car) (hcdr : ReadsTail cdr) :
    ReadsTail (.pair car cdr) := by
  intro items stack rest _
  rw [Datum.tokensAs, if_pos rfl, List.append_assoc, hcar (.list items :: stack) _ trivial, deliver,
    resume, hcdr _ _ _ (List.cons_ne_nil _ _), List.reverse_cons]
  simp [Datum.listWithTail]

theorem reads_pair {car cdr : Datum} (hcar : Reads car) (hcdr : ReadsTail cdr) :
    Reads (.pair car cdr) := by
  intro stack rest hs
  have hopen : step stack .leftParen = .ok (.within (.list [] :: stack)) :=
    step_eq_other hs .leftParen
  have hone : Datum.listWithTail [car].reverse cdr = .pair car cdr := rfl
  rw [Datum.tokensAs, if_neg Bool.false_ne_true, List.cons_append, readAll_cons hopen, resume,
    List.append_assoc, List.append_assoc, hcar (.list [] :: stack) _ trivial, deliver, resume,
    List.singleton_append, hcdr _ _ _ (List.cons_ne_nil _ _), hone]

/-- The elements of a vector are collected last first. -/
theorem readAll_elements {items : List Datum} (h : ∀ d ∈ items, Reads d) (acc : List Datum)
    (stack : List Open) (rest : List Token) :
    readAll (.vector acc :: stack) (Datum.tokensAll items ++ rest) =
      readAll (.vector (items.reverse ++ acc) :: stack) rest := by
  induction items generalizing acc with
  | nil => rfl
  | cons d items ih =>
      have hd : Reads d := h d (by simp)
      rw [Datum.tokensAll, List.append_assoc, hd (.vector acc :: stack) _ trivial, deliver, resume,
        ih (fun e he => h e (by simp [he])), List.reverse_cons, List.append_assoc]
      rfl

theorem reads_vector {items : List Datum} (h : ∀ d ∈ items, Reads d) : Reads (.vector items) := by
  intro stack rest hs
  have hopen : step stack .vectorOpen = .ok (.within (.vector [] :: stack)) :=
    step_eq_other hs .vectorOpen
  have hclose : step (.vector items.reverse :: stack) .rightParen =
      .ok (deliver (.vector items) stack) := by
    have : other (.vector items.reverse :: stack) .rightParen =
        .ok (deliver (.vector items.reverse.reverse) stack) := rfl
    have htakes : Takes (.vector items.reverse :: stack) := trivial
    rw [step_eq_other htakes, this, List.reverse_reverse]
  simp only [Datum.tokensAs, Datum.pointBefore, Bool.false_eq_true, if_false, List.nil_append,
    List.cons_append, List.append_assoc]
  rw [readAll_cons hopen, resume, readAll_elements h, List.append_nil, readAll_cons hclose]

/-- The elements of a bytevector are read as numbers first. -/
theorem readAll_bytes (items : List UInt8) (acc : List Datum) (stack : List Open)
    (rest : List Token) :
    readAll (.bytes acc :: stack) (items.map (fun b => .atom (toString b.toNat)) ++ rest) =
      readAll (.bytes ((items.map fun b => atom (toString b.toNat)).reverse ++ acc) :: stack)
        rest := by
  induction items generalizing acc with
  | nil => rfl
  | cons b items ih =>
      have hstep : step (.bytes acc :: stack) (.atom (toString b.toNat)) =
          .ok (.within (.bytes (atom (toString b.toNat) :: acc) :: stack)) := rfl
      rw [List.map_cons, List.cons_append, readAll_cons hstep, resume, ih, List.map_cons,
        List.reverse_cons, List.append_assoc]
      rfl

theorem mapM_byte (items : List UInt8) :
    (items.map fun b => atom (toString b.toNat)).mapM byte = .ok items := by
  induction items with
  | nil => rfl
  | cons b items ih =>
      rw [List.map_cons, List.mapM_cons, (byte_text b).2, ih]
      rfl

theorem reads_bytes (items : List UInt8) : Reads (.bytes items) := by
  intro stack rest hs
  have hopen : step stack .bytesOpen = .ok (.within (.bytes [] :: stack)) :=
    step_eq_other hs .bytesOpen
  have hclose : step (.bytes (items.map fun b => atom (toString b.toNat)).reverse :: stack)
      .rightParen = .ok (deliver (.bytes items) stack) := by
    change Except.map _ (List.mapM byte (List.reverse (List.reverse _))) = _
    rw [List.reverse_reverse, mapM_byte]
    rfl
  simp only [Datum.tokensAs, Datum.pointBefore, Bool.false_eq_true, if_false, List.nil_append,
    List.cons_append, List.append_assoc]
  rw [readAll_cons hopen, resume, readAll_bytes, List.append_nil, readAll_cons hclose]

theorem reads_number {n : Number} (h : (Datum.number n).RealsReadBack) : Reads (.number n) := by
  refine reads_single rfl fun stack => ?_
  have hatom : atom n.text = .number n := by
    cases n with
    | integer n => simp [atom, (Number.integer_text n).2]
    | real x =>
        have hx : Number.parse? (Number.text (.real x)) = some (.real x) := h
        simp [atom, hx]
  rw [other, hatom]

mutual

/-- Reading inverts writing, for a datum of its own and for the tail of a list. -/
theorem reads_readable (d : Datum) (h : d.Readable) (hr : d.RealsReadBack) :
    Reads d ∧ ReadsTail d := by
  cases d with
  | nil => exact ⟨reads_nil, readsTail_nil⟩
  | bool b =>
      have hd : Reads (.bool b) := by
        refine reads_single rfl fun stack => ?_
        cases b <;> rfl
      exact ⟨hd, hd.tail rfl⟩
  | number n => exact ⟨reads_number hr, (reads_number hr).tail rfl⟩
  | char c =>
      have hd : Reads (.char c) := by
        refine reads_single rfl fun stack => ?_
        rw [other, character_charName]
        rfl
      exact ⟨hd, hd.tail rfl⟩
  | string s =>
      have hd : Reads (.string s) := by
        refine reads_single rfl fun stack => ?_
        rw [other, String.toList_ofList, unescape_escaped]
        simp [Except.map]
      exact ⟨hd, hd.tail rfl⟩
  | symbol name =>
      have hd : Reads (.symbol name) := by
        refine reads_single rfl fun stack => ?_
        rw [other, IsSymbolName.atom_eq h]
      exact ⟨hd, hd.tail rfl⟩
  | keyword k =>
      have hd : Reads (.keyword k) := by
        refine reads_single rfl fun stack => ?_
        rw [other, atom_keyword]
      exact ⟨hd, hd.tail rfl⟩
  | pair car cdr =>
      have hcar := (reads_readable car h.1 hr.1).1
      have hcdr := (reads_readable cdr h.2 hr.2).2
      exact ⟨reads_pair hcar hcdr, readsTail_pair hcar hcdr⟩
  | vector items =>
      have hd := reads_vector (reads_allReadable items h hr)
      exact ⟨hd, hd.tail rfl⟩
  | bytes items => exact ⟨reads_bytes items, (reads_bytes items).tail rfl⟩

theorem reads_allReadable (items : List Datum) (h : Datum.AllReadable items)
    (hr : Datum.AllRealsReadBack items) : ∀ d ∈ items, Reads d := by
  cases items with
  | nil => simp
  | cons d items =>
      exact List.forall_mem_cons.2
        ⟨(reads_readable d h.1 hr.1).1, reads_allReadable items h.2 hr.2⟩

end

end Reader
end LittleScheme
