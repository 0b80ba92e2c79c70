import LittleScheme.Proofs.Readable
import LittleScheme.Proofs.Represents

/-!
# Writing and reading back

A value that is a tree of readable data is written as the tree is, the text falls into the tokens of
the tree, and the reader makes the tree of them. So the data of a text, written one after another
with blanks or line ends between them, read as the same data.
-/
namespace LittleScheme

namespace Reader

theorem readAll_tokensAll {ds : List Datum} (h : Datum.AllReadable ds)
    (hr : Datum.AllRealsReadBack ds) : readAll [] (Datum.tokensAll ds) = .ok ds := by
  induction ds with
  | nil => rfl
  | cons d ds ih =>
      rw [Datum.tokensAll, (reads_readable d h.1 hr.1).1 [] _ trivial]
      simp [resume, deliver, ih h.2 hr.2, Except.map]

theorem parseAll_joined {ds : List Datum} {sep : Nat → Char} (h : Datum.AllReadable ds)
    (hr : Datum.AllRealsReadBack ds) (hsep : ∀ i, sep i = ' ' ∨ sep i = '\n') :
    parseAll (Text.joined sep (Datum.texts .write ds)) = .ok ds := by
  have hlex := Token.Lexes.joined (Token.lexes_texts ds h) hsep
  have htokens := hlex [] Token.delimited_nil
  rw [← Datum.tokensAll_eq, List.append_nil, Token.tokens_nil] at htokens
  rw [parseAll, Token.split_eq_tokens, htokens]
  simpa [Except.map, bind, Except.bind] using readAll_tokensAll h hr

end Reader

namespace Store

theorem RepresentsAll.parseAll_written {s : Store} {ds : List Datum} {vs : List Value}
    {sep : Nat → Char} (hv : s.RepresentsAll ds vs) (h : Datum.AllReadable ds)
    (hr : Datum.AllRealsReadBack ds) (hsep : ∀ i, sep i = ' ' ∨ sep i = '\n') :
    Reader.parseAll (Text.joined sep (vs.map s.written)) = .ok ds := by
  have htexts : vs.map s.written = Datum.texts .write ds := hv.texts_eq .write
  rw [htexts, Reader.parseAll_joined h hr hsep]

theorem Represents.parse_written {s : Store} {d : Datum} {v : Value} (hv : s.Represents d v)
    (h : d.Readable) (hr : d.RealsReadBack) : Reader.parse (s.written v) = .ok d := by
  have hvs : s.RepresentsAll [d] [v] := ⟨v, [], rfl, hv, rfl⟩
  have hall := hvs.parseAll_written ⟨h, trivial⟩ ⟨hr, trivial⟩ fun _ => .inl rfl
  exact Reader.parse_eq_of_parseAll hall

/-- Data that are written with single blanks or line ends between them read as the same data. One
datum alone reads as itself, and all that was read from a text reads as itself once it is loaded and
written. -/
theorem read_of_written (s : Store) :
    (∀ (ds : List Datum) (vs : List Value) (sep : Nat → Char), s.RepresentsAll ds vs →
      Datum.AllReadable ds → Datum.AllRealsReadBack ds → (∀ i, sep i = ' ' ∨ sep i = '\n') →
        Reader.parseAll (Text.joined sep (vs.map s.written)) = .ok ds) ∧
    (∀ (d : Datum) (v : Value), s.Represents d v → d.Readable → d.RealsReadBack →
      Reader.parse (s.written v) = .ok d) ∧
    (∀ (text : String) (d : Datum), Reader.parse text = .ok d →
      d.Readable ∧ (d.RealsReadBack →
        Reader.parse ((s.load d).2.written (s.load d).1) = Reader.parse text)) := by
  refine ⟨fun ds vs sep hv h hr hsep => hv.parseAll_written h hr hsep,
    fun d v hv h hr => hv.parse_written h hr, fun text d hd => ?_⟩
  have h : d.Readable := Reader.parse_readable hd
  refine ⟨h, fun hr => ?_⟩
  rw [hd, (load_represents s d).2.parse_written h hr]

/-- A dotted list with a reserved word, a string that needs escapes, a named character and a symbol
is written before a vector on the next line. -/
theorem read_of_written_lines :
    let ds : List Datum := [.pair (.keyword .ifThen) (.pair (.string "a\"\\\n") (.pair (.char ' ')
      (.symbol "else?"))), .vector [.number (.integer (-7)), .bytes [0, 255], .nil]]
    let loaded := loadAll {} ds
    Reader.parseAll (Text.joined (fun _ => '\n') (loaded.1.map loaded.2.written)) = .ok ds := by
  have hname : Reader.IsSymbolName "else?" :=
    ⟨⟨'e', ['l', 's', 'e', '?'], by decide, Token.plain_of_all (by decide), .inl (by decide)⟩,
      by decide, by decide⟩
  refine (read_of_written _).1 _ _ _ (loadAll_represents {} _).2 ?_ ?_ fun _ => .inr rfl
  · exact ⟨⟨trivial, trivial, trivial, hname⟩, ⟨trivial, trivial, trivial, trivial⟩, trivial⟩
  · exact ⟨⟨trivial, trivial, trivial, trivial⟩, ⟨trivial, trivial, trivial, trivial⟩, trivial⟩

end Store
end LittleScheme
