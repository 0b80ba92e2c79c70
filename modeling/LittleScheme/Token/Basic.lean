import LittleScheme.Text.Quoted

/-!
# Tokens

The pieces into which a source text falls. Characters, strings and atoms keep their text as it stood
in the source; what it denotes is decided by the reader.
-/
namespace LittleScheme

/-- One token. A character keeps what follows `#\`, a string what stands between its quotes. -/
inductive Token where
  | leftParen
  | rightParen
  | vectorOpen
  | bytesOpen
  | quote
  | dot
  | yes
  | no
  | character (name : String)
  | string (body : String)
  | atom (text : String)
  deriving DecidableEq, Repr

/-- The way a token is named in a message. -/
def Token.describe : Token → String
  | leftParen => "LeftParen"
  | rightParen => "RightParen"
  | vectorOpen => "VectorOpen"
  | bytesOpen => "ByteVectorOpen"
  | quote => "Quote"
  | dot => "Dot"
  | yes => "True"
  | no => "False"
  | character name => "Character(" ++ Text.quote ("#\\" ++ name) ++ ")"
  | string body => "Str(" ++ Text.quote ("\"" ++ body ++ "\"") ++ ")"
  | atom text => "Atom(" ++ Text.quote text ++ ")"

end LittleScheme
