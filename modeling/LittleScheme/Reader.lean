import LittleScheme.Datum.Printer
import LittleScheme.Number.Literal
import LittleScheme.Token.Lexer

/-!
# From tokens to data

The reader goes through the tokens once, with a stack of the constructs that are open. A token opens
a construct, closes the innermost one, or is a datum of its own; a finished datum is handed to the
innermost open construct. A text is incomplete when constructs are open at its end.
-/
namespace LittleScheme.Reader

/-- A construct whose end has not been read yet. Its elements are kept last first. -/
inductive Open where
  | list (items : List Datum)
  /-- A list whose point has been read, and maybe its tail. -/
  | dotted (items : List Datum) (tail : Option Datum)
  | vector (items : List Datum)
  | bytes (items : List Datum)
  | quote
  deriving Repr

/-- The reader after a token: it has finished a datum outside all constructs, or goes on. -/
inductive Progress where
  | datum (d : Datum)
  | within (stack : List Open)
  deriving Repr

/-- Hand a finished datum to the innermost open construct. -/
def deliver (d : Datum) : List Open → Progress
  | [] => .datum d
  | .list items :: stack => .within (.list (d :: items) :: stack)
  | .dotted items _ :: stack => .within (.dotted items (some d) :: stack)
  | .vector items :: stack => .within (.vector (d :: items) :: stack)
  | .bytes items :: stack => .within (.bytes (d :: items) :: stack)
  | .quote :: stack => deliver d.quoted stack

/-- The datum that an atom denotes: a number, a keyword or a symbol. -/
def atom (text : String) : Datum :=
  match Number.parse? text with
  | some n => .number n
  | none =>
      match Keyword.ofName? text with
      | some k => .keyword k
      | none => .symbol text

/-- The value of a hexadecimal digit. -/
def hexDigit? (c : Char) : Option Nat :=
  if '0' ≤ c ∧ c ≤ '9' then some (c.toNat - '0'.toNat)
  else if 'a' ≤ c ∧ c ≤ 'f' then some (c.toNat - 'a'.toNat + 10)
  else if 'A' ≤ c ∧ c ≤ 'F' then some (c.toNat - 'A'.toNat + 10)
  else none

/-- The number that hexadecimal digits denote. -/
def hexNumber? (digits : List Char) : Option Nat :=
  digits.foldl (fun n c => do return 16 * (← n) + (← hexDigit? c)) (some 0)

/-- The character with the given code point. -/
def charOfCode? (code : Nat) : Option Char :=
  if h : code.isValidChar then some (Char.ofNatAux code h) else none

/-- The character that stands after `#\` by itself, by name or by its code point. -/
def character (name : String) : Except Error Datum :=
  match name.toList with
  | [c] => .ok (.char c)
  | cs =>
      let byCode := match cs with
        | 'x' :: digits => (hexNumber? digits).bind charOfCode?
        | _ => none
      match (Text.namedChar? name).or byCode with
      | some c => .ok (.char c)
      | none => .error (.malformed (.unknownCharacter name))

/-- The character that a backslash and `c` denote in a string. -/
def escape? (c : Char) : Option Char :=
  match c with
  | 'n' => some '\n'
  | 'r' => some '\r'
  | 't' => some '\t'
  | '"' => some '"'
  | '\\' => some '\\'
  | '0' => some '\x00'
  | _ => none

/-- The contents of a string. -/
def unescape : List Char → Except Error (List Char)
  | [] => .ok []
  | '\\' :: rest =>
      match rest with
      | [] => .error .incomplete
      | c :: rest =>
          match escape? c with
          | some c => (unescape rest).map (c :: ·)
          | none => .error (.malformed (.unknownEscape c))
  | c :: rest => (unescape rest).map (c :: ·)

/-- An element of a bytevector. -/
def byte : Datum → Except Error UInt8
  | .number (.integer n) =>
      if 0 ≤ n.toInt ∧ n.toInt < 256 then .ok (UInt8.ofNat n.toInt.toNat)
      else .error (.malformed (.byteOutOfRange n.toInt))
  | d => .error (.malformed (.notByteElement (d.text .write)))

/-- Close the innermost construct. -/
def close : List Open → Except Error Progress
  | .list items :: stack => .ok (deliver (.list items.reverse) stack)
  | .dotted items (some tail) :: stack => .ok (deliver (.listWithTail items.reverse tail) stack)
  | .vector items :: stack => .ok (deliver (.vector items.reverse) stack)
  | .bytes items :: stack =>
      (items.reverse.mapM byte).map fun bytes => deliver (.bytes bytes) stack
  | _ => .error (.malformed .unexpectedClose)

/-- A point: it stands in a list, after at least one element. -/
def point : List Open → Except Error Progress
  | .list [] :: _ => .error (.malformed .dotWithoutHead)
  | .list items :: stack => .ok (.within (.dotted items none :: stack))
  | _ => .error (.malformed .unexpectedDot)

/-- A token that is neither a closing parenthesis nor a point. -/
def other (stack : List Open) : Token → Except Error Progress
  | .leftParen => .ok (.within (.list [] :: stack))
  | .vectorOpen => .ok (.within (.vector [] :: stack))
  | .bytesOpen => .ok (.within (.bytes [] :: stack))
  | .quote => .ok (.within (.quote :: stack))
  | .yes => .ok (deliver (.bool true) stack)
  | .no => .ok (deliver (.bool false) stack)
  | .character name => (character name).map fun d => deliver d stack
  | .string body =>
      (unescape body.toList).map fun cs => deliver (.string (String.ofList cs)) stack
  | .atom text => .ok (deliver (atom text) stack)
  | .rightParen => close stack
  | .dot => point stack

/-- One token. After the tail of a dotted list only its end may come. -/
def step (stack : List Open) (token : Token) : Except Error Progress :=
  match stack, token with
  | .dotted _ (some _) :: _, .rightParen => close stack
  | .dotted _ (some _) :: _, token => .error (.malformed (.expectedClose token))
  | _, token => other stack token

/-- The first datum of some tokens, and the tokens after it. -/
def readDatum (stack : List Open) : List Token → Except Error (Datum × List Token)
  | [] => .error .incomplete
  | token :: rest =>
      match step stack token with
      | .ok (.datum d) => .ok (d, rest)
      | .ok (.within stack) => readDatum stack rest
      | .error e => .error e

/-- All data of some tokens. -/
def readAll (stack : List Open) : List Token → Except Error (List Datum)
  | [] => if stack.isEmpty then .ok [] else .error .incomplete
  | token :: rest =>
      match step stack token with
      | .ok (.datum d) => (readAll [] rest).map (d :: ·)
      | .ok (.within stack) => readAll stack rest
      | .error e => .error e

/-- The one datum of a text. -/
def parse (text : String) : Except Error Datum := do
  let (d, rest) ← readDatum [] (← Token.split text)
  match rest with
  | [] => return d
  | token :: _ => throw (.malformed (.trailingInput token))

/-- The data of a text. -/
def parseAll (text : String) : Except Error (List Datum) := do
  readAll [] (← Token.split text)

end LittleScheme.Reader
