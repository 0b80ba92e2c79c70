import LittleScheme.Error

/-!
# From text to tokens

At every place the longest token is taken. Blanks and comments between tokens are skipped; they are
needed only to keep two tokens apart. The whole text is split before any of it is read.
-/
namespace LittleScheme.Token

/-- A blank that is skipped. Other white space is no part of any token, nor skipped. -/
def isSkipped (c : Char) : Bool :=
  c == ' ' || c == '\t' || c == '\r' || c == '\n' || c == '\x0c'

/-- A character at which an atom ends. -/
def endsAtom (c : Char) : Bool :=
  Text.isBlank c || c == '(' || c == ')' || c == '\'' || c == '"' || c == ';'

/-- A character with which an atom starts. One that starts with a point is longer than the point. -/
def startsAtom (c : Char) : Bool := !endsAtom c && c != '#' && c != '.'

/-- The rest of an atom and what follows it. -/
def atomRest (cs : List Char) : List Char × List Char :=
  (cs.takeWhile fun c => !endsAtom c, cs.dropWhile fun c => !endsAtom c)

/-- What stands before the closing quote of a string, and what follows it. A backslash stands
together with the character after it, which is not a line end. -/
def stringBody : List Char → Option (List Char × List Char)
  | [] => none
  | '"' :: rest => some ([], rest)
  | '\\' :: rest =>
      match rest with
      | [] => none
      | c :: rest =>
          if c = '\n' then none
          else (stringBody rest).map fun (body, after) => ('\\' :: c :: body, after)
  | c :: rest => (stringBody rest).map fun (body, after) => (c :: body, after)

/-- The token that goes on after `#`. -/
def scanHash : List Char → Option (Token × List Char)
  | '(' :: rest => some (.vectorOpen, rest)
  | 'v' :: 'u' :: '8' :: '(' :: rest => some (.bytesOpen, rest)
  | 't' :: 'r' :: 'u' :: 'e' :: rest => some (.yes, rest)
  | 't' :: rest => some (.yes, rest)
  | 'f' :: 'a' :: 'l' :: 's' :: 'e' :: rest => some (.no, rest)
  | 'f' :: rest => some (.no, rest)
  | '\\' :: c :: rest =>
      if c = '\n' then none
      else some (.character (String.ofList (c :: rest.takeWhile Char.isAlphanum)),
        rest.dropWhile Char.isAlphanum)
  | _ => none

/-- The token at the front of a text and what follows it. -/
def scan : List Char → Option (Token × List Char)
  | [] => none
  | '(' :: rest => some (.leftParen, rest)
  | ')' :: rest => some (.rightParen, rest)
  | '\'' :: rest => some (.quote, rest)
  | '"' :: rest => (stringBody rest).map fun (body, after) => (.string (String.ofList body), after)
  | '#' :: rest => scanHash rest
  | '.' :: rest =>
      match atomRest rest with
      | ([], after) => some (.dot, after)
      | (word, after) => some (.atom (String.ofList ('.' :: word)), after)
  | c :: rest =>
      if startsAtom c then
        let (word, after) := atomRest rest
        some (.atom (String.ofList (c :: word)), after)
      else none

/-- The tokens of a text. Every turn takes at least one character, so the length of the text bounds
the number of turns. A string that never ends is a text that goes on. -/
def splitWithin : Nat → List Char → Except Error (List Token)
  | 0, _ => .ok []
  | _ + 1, [] => .ok []
  | n + 1, c :: cs =>
      if isSkipped c then splitWithin n cs
      else if c = ';' then splitWithin n (cs.dropWhile fun c => c != '\n')
      else
        match scan (c :: cs) with
        | some (token, rest) =>
            match splitWithin n rest with
            | .ok tokens => .ok (token :: tokens)
            | .error e => .error e
        | none =>
            if c = '"' then .error .incomplete
            else .error (.malformed (.invalidToken (String.singleton c)))

/-- The tokens of a text. -/
def split (text : String) : Except Error (List Token) :=
  splitWithin text.toList.length text.toList

end LittleScheme.Token
