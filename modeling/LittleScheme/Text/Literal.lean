/-!
# Characters and strings as they are written

The text of a character or string comes in two styles: `write`, which the reader takes back, and
`display`, which is the bare contents.
-/
namespace LittleScheme.Text

/-- The two ways of turning a value into text. -/
inductive Style where
  | write
  | display
  deriving DecidableEq, Repr

/-- The characters that have a name. The first name of a character is the one written. -/
def charNames : List (String × Char) :=
  [("space", ' '), ("newline", '\n'), ("tab", '\t'), ("return", '\r'), ("nul", '\x00'),
  ("alarm", '\x07'), ("backspace", '\x08'), ("delete", '\x7f'), ("escape", '\x1b'),
  ("linefeed", '\n')]

/-- The character with the given name. -/
def namedChar? (name : String) : Option Char := charNames.lookup name

/-- What stands after `#\` for a character. -/
def charName (c : Char) : String :=
  match charNames.find? fun entry => entry.2 == c with
  | some entry => entry.1
  | none => String.singleton c

/-- A character in the given style. -/
def charText : Style → Char → String
  | .write, c => "#\\" ++ charName c
  | .display, c => String.singleton c

/-- A character inside a string literal. -/
def escapeChar (c : Char) : List Char :=
  match c with
  | '"' => ['\\', '"']
  | '\\' => ['\\', '\\']
  | '\n' => ['\\', 'n']
  | '\r' => ['\\', 'r']
  | '\t' => ['\\', 't']
  | c => [c]

/-- A string in the given style. -/
def stringText : Style → String → String
  | .write, s => "\"" ++ String.ofList (s.toList.flatMap escapeChar) ++ "\""
  | .display, s => s

/-- Texts separated by single spaces. -/
def spaced (texts : List String) : String := " ".intercalate texts

end LittleScheme.Text
