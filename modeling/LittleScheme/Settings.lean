import LittleScheme.Interpreter

/-!
# Settings

The settings of an interpreter and their form in a file. A file holds a JSON object with any of the
three settings, each at most once, or a JSON array of the first few of them in order. A setting that
is left out has its default. Each reader takes the front of a text and gives back what follows.
-/
namespace LittleScheme

/-- The settings of an interpreter. -/
structure Settings where
  strategy : Strategy := .stack
  /-- Whether the library procedures are defined. -/
  prelude : Bool := true
  /-- How many pending frames an error shows. -/
  traceLimit : Nat := 16
  deriving DecidableEq, Repr

namespace Settings

/-- The evaluator that the settings ask for. -/
def evaluator (c : Settings) : Evaluator := { strategy := c.strategy, traceLimit := c.traceLimit }

/-- The name of a setting. -/
inductive Field where
  | strategy
  | prelude
  | traceLimit
  deriving DecidableEq, Repr

/-- The settings in the order of an array. -/
def Field.all : List Field := [.strategy, .prelude, .traceLimit]

/-- The key of a setting. -/
def Field.key : Field → String
  | .strategy => "strategy"
  | .prelude => "prelude"
  | .traceLimit => "trace_limit"

/-- Blanks between the parts of a file. -/
def isBlank (c : Char) : Bool := c == ' ' || c == '\t' || c == '\n' || c == '\r'

/-- A text without the blanks in front. -/
def skipBlanks (cs : List Char) : List Char := cs.dropWhile isBlank

/-- The front of a text is a word. -/
def word (w : List Char) (cs : List Char) : Option (List Char) :=
  if w.isPrefixOf cs then some (cs.drop w.length) else none

/-- The front of a text, after blanks, is a character. -/
def mark (c : Char) (cs : List Char) : Option (List Char) := word [c] (skipBlanks cs)

/-- The number that four hexadecimal digits denote. -/
def hex4? (a b c d : Char) : Option Nat := Reader.hexNumber? [a, b, c, d]

/-- The first half of a character that is written in two. -/
def isHighHalf (n : Nat) : Bool := decide (0xd800 ≤ n) && decide (n < 0xdc00)

/-- The second half of a character that is written in two. -/
def isLowHalf (n : Nat) : Bool := decide (0xdc00 ≤ n) && decide (n < 0xe000)

/-- The character that an escape of one letter denotes. -/
def escape? (c : Char) : Option Char :=
  match c with
  | '"' => some '"'
  | '\\' => some '\\'
  | '/' => some '/'
  | 'b' => some '\x08'
  | 'f' => some '\x0c'
  | 'n' => some '\n'
  | 'r' => some '\r'
  | 't' => some '\t'
  | _ => none

/-- The front of a text as a string whose opening quote has been read. -/
def stringRest : List Char → Option (List Char × List Char)
  | [] => none
  | '"' :: rest => some ([], rest)
  | '\\' :: 'u' :: a :: b :: c :: d :: rest => do
      let code ← hex4? a b c d
      if isHighHalf code then
        match rest with
        | '\\' :: 'u' :: e :: f :: g :: h :: rest => do
            let low ← hex4? e f g h
            if isLowHalf low then
              let front ← Reader.charOfCode? (0x10000 + (code - 0xd800) * 0x400 + (low - 0xdc00))
              let (more, rest) ← stringRest rest
              return (front :: more, rest)
            else none
        | _ => none
      else
        let front ← Reader.charOfCode? code
        let (more, rest) ← stringRest rest
        return (front :: more, rest)
  | '\\' :: c :: rest => do
      let front ← escape? c
      let (more, rest) ← stringRest rest
      return (front :: more, rest)
  | c :: rest => do
      if c.toNat < 0x20 || c == '\\' then none
      let (more, rest) ← stringRest rest
      return (c :: more, rest)

/-- The front of a text as a string. -/
def string (cs : List Char) : Option (String × List Char) := do
  let (body, rest) ← stringRest (← mark '"' cs)
  return (String.ofList body, rest)

/-- The front of a text as a truth value. -/
def bool (cs : List Char) : Option (Bool × List Char) :=
  let cs := skipBlanks cs
  match word "true".toList cs with
  | some rest => some (true, rest)
  | none => (word "false".toList cs).map fun rest => (false, rest)

/-- The first natural number that does not fit in 64 bits. -/
def countLimit : Nat := 18446744073709551616

/-- The front of a text as a natural number of 64 bits. It has no leading zero, sign, fraction or
exponent. -/
def natural (cs : List Char) : Option (Nat × List Char) :=
  let cs := skipBlanks cs
  let digits := cs.takeWhile Number.isDigit
  let rest := cs.dropWhile Number.isDigit
  let n := Number.ofDigits digits
  let goesOn := rest.head?.any fun c => c == '.' || c == 'e' || c == 'E'
  let padded := digits.head? == some '0' && digits.length != 1
  if digits.isEmpty || goesOn || padded || decide (countLimit ≤ n) then none else some (n, rest)

/-- The strategy with the given name. -/
def strategyOfName? (name : String) : Option Strategy :=
  if name == "recursive" then some .recursive
  else if name == "stack" then some .stack
  else none

/-- The front of a text as a strategy: its name, or an object with its name and nothing else. -/
def strategyValue (cs : List Char) : Option (Strategy × List Char) :=
  match mark '\x7b' cs with
  | some rest => do
      let (name, rest) ← string rest
      let strategy ← strategyOfName? name
      let rest ← word "null".toList (skipBlanks (← mark ':' rest))
      return (strategy, ← mark '\x7d' rest)
  | none => do
      let (name, rest) ← string cs
      return (← strategyOfName? name, rest)

/-- The front of a text as the value of a setting. -/
def value (c : Settings) (cs : List Char) : Field → Option (Settings × List Char)
  | .strategy => (strategyValue cs).map fun (v, rest) => ({ c with strategy := v }, rest)
  | .prelude => (bool cs).map fun (v, rest) => ({ c with prelude := v }, rest)
  | .traceLimit => (natural cs).map fun (v, rest) => ({ c with traceLimit := v }, rest)

/-- The settings of an object up to its end, at most `n` of them. None of those seen comes again, so
there are no more than there are fields. -/
def members : Nat → List Field → Settings → List Char → Option (Settings × List Char)
  | 0, _, _, _ => none
  | n + 1, seen, c, cs => do
      let (key, rest) ← string cs
      let field ← Field.all.find? fun field => field.key == key
      if seen.contains field then none
      let (c, rest) ← value c (← mark ':' rest) field
      match mark ',' rest with
      | some rest => members n (field :: seen) c rest
      | none => return (c, ← mark '\x7d' rest)

/-- The settings of an array up to its end. -/
def elements : List Field → Settings → List Char → Option (Settings × List Char)
  | [], _, _ => none
  | field :: fields, c, cs => do
      let (c, rest) ← value c cs field
      match mark ',' rest with
      | some rest => elements fields c rest
      | none => return (c, ← mark ']' rest)

/-- The front of a text as settings. -/
def settings (cs : List Char) : Option (Settings × List Char) :=
  match mark '\x7b' cs with
  | some rest =>
      match mark '\x7d' rest with
      | some rest => some ({}, rest)
      | none => members Field.all.length [] {} rest
  | none => do
      let rest ← mark '[' cs
      match mark ']' rest with
      | some rest => return ({}, rest)
      | none => elements Field.all {} rest

/-- The settings that a file holds. -/
def parse? (text : String) : Option Settings := do
  let (c, rest) ← settings text.toList
  if (skipBlanks rest).isEmpty then return c else none

end Settings
end LittleScheme
