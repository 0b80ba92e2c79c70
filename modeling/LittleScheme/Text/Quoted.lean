import LittleScheme.Text.Combining
import LittleScheme.Text.Unprintable

/-!
# Quoted texts

The way a piece of source text is shown inside a message: in double quotes, with an escape for every
character that could not be read off the page.
-/
namespace LittleScheme.Text

/-- The escape of a character by its code point in hexadecimal. -/
def codeEscape (c : Char) : List Char :=
  "\\u\x7b".toList ++ Nat.toDigits 16 c.toNat ++ ['\x7d']

/-- A character as it stands between the quotes. -/
def quoteChar (c : Char) : List Char :=
  match c with
  | '\x00' => ['\\', '0']
  | '\t' => ['\\', 't']
  | '\r' => ['\\', 'r']
  | '\n' => ['\\', 'n']
  | '"' => ['\\', '"']
  | '\\' => ['\\', '\\']
  | c => if isCombining c || isUnprintable c then codeEscape c else [c]

/-- A file name in double quotes, where an apostrophe has an escape too. -/
def quoteName (s : String) : String :=
  let quoted := s.toList.flatMap fun c => if c = '\'' then ['\\', c] else quoteChar c
  "\"" ++ String.ofList quoted ++ "\""

/-- A text in double quotes. -/
def quote (s : String) : String :=
  "\"" ++ String.ofList (s.toList.flatMap quoteChar) ++ "\""

end LittleScheme.Text
