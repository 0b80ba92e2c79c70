import LittleScheme.Arity
import LittleScheme.Keyword
import LittleScheme.Number.Basic
import LittleScheme.Token.Basic

/-!
# Errors

What can go wrong, as causes. The wording of every cause is in one place, and an error raised while
a stack of frames was pending carries a trace of that stack. Values are kept in causes as the text
they had when the error arose, since they may change afterwards.
-/
namespace LittleScheme

/-- A fault in the form of a text or of an expression. -/
inductive SyntaxFault where
  | invalidToken (text : String)
  | unknownCharacter (name : String)
  | unknownEscape (c : Char)
  | unexpectedClose
  | unexpectedDot
  | dotWithoutHead
  | expectedClose (found : Token)
  | byteOutOfRange (n : Int)
  | notByteElement (text : String)
  | trailingInput (found : Token)
  | malformedForm (form : Keyword) (operands : String)
  | boundKeyword (keyword : Keyword)
  | notIdentifier (text : String)
  | duplicateParameter (name : String)
  | emptyBody (text : String)
  | notClause (text : String)
  | notBinding (text : String)
  | keywordExpression (keyword : Keyword)
  | strayOtherwise
  deriving Repr

/-- The text of a fault of form. -/
def SyntaxFault.message : SyntaxFault → String
  | invalidToken text => "invalid token " ++ Text.quote text
  | unknownCharacter name => "unknown character #\\" ++ name
  | unknownEscape c => "unknown escape \\" ++ String.singleton c ++ " in string"
  | unexpectedClose => "unexpected )"
  | unexpectedDot => "unexpected ."
  | dotWithoutHead => "dotted pair without a head"
  | expectedClose found => "expected ) after dotted tail, found " ++ found.describe
  | byteOutOfRange n => "byte out of range: " ++ toString n
  | notByteElement text => "bytevector element must be a byte, got " ++ text
  | trailingInput found => "unexpected input after datum: " ++ found.describe
  | malformedForm form operands =>
      "malformed " ++ form.name ++ ": (" ++ form.name ++ " " ++ operands ++ ")"
  | boundKeyword keyword => "cannot bind the keyword " ++ keyword.name
  | notIdentifier text => "expected an identifier, got " ++ text
  | duplicateParameter name => "duplicate parameter " ++ name
  | emptyBody text => "procedure body must be a non-empty list, got " ++ text
  | notClause text => "cond clause must be a list, got " ++ text
  | notBinding text => "let binding must be (name value), got " ++ text
  | keywordExpression keyword => "keyword " ++ keyword.name ++ " used as an expression"
  | strayOtherwise => "else outside of cond"

/-- What a procedure wanted in the place of the argument it got. -/
inductive Expected where
  | number
  | integer
  | pair
  | properList
  | string
  | character
  | characterList
  | symbol
  | vector
  | bytevector
  | port
  | procedure
  | spreadList
  deriving DecidableEq, Repr

/-- The expectation in words. -/
def Expected.describe : Expected → String
  | number => "a number"
  | integer => "an integer"
  | pair => "a pair"
  | properList => "a proper list"
  | string => "a string"
  | character => "a character"
  | characterList => "a list of characters"
  | symbol => "a symbol"
  | vector => "a vector"
  | bytevector => "a bytevector"
  | port => "a port"
  | procedure => "a procedure"
  | spreadList => "a proper list as the last argument"

/-- A failure of an operation on a port. -/
inductive PortFault where
  | closed
  | notInput
  | notOutput
  | notStringOutput
  deriving DecidableEq, Repr

/-- The text of a port failure. -/
def PortFault.message : PortFault → String
  | closed => "port is closed"
  | notInput => "not an input port"
  | notOutput => "not an output port"
  | notStringOutput => "not a string output port"

/-- A failure of an evaluation. The procedure at fault is given by its name. -/
inductive Fault where
  | arithmetic (fault : ArithmeticFault)
  | port (fault : PortFault)
  | arity (name : String) (arity : Arity) (count : Nat)
  | wrongType (name : String) (expected : Expected) (got : String)
  | outOfRange (name : String) (index : Int)
  | shortList (list : String) (count : Nat)
  | startAfterEnd (start stop : Nat)
  | notCharacter (code : Int)
  | negativeLength (name : String) (length : Int)
  | notByte (name : String) (n : Int)
  | notProcedure (got : String)
  | notList (got : String)
  | raised (text : String)
  deriving Repr

/-- The text of a failure. -/
def Fault.message : Fault → String
  | arithmetic fault => fault.message
  | port fault => fault.message
  | arity name accepted count =>
      name ++ ": expected " ++ accepted.describe ++ " arguments, got " ++ toString count
  | wrongType name expected got => name ++ ": expected " ++ expected.describe ++ ", got " ++ got
  | outOfRange name index => name ++ ": index " ++ toString index ++ " out of range"
  | shortList list count =>
      "list-tail: list " ++ list ++ " is shorter than " ++ toString count
  | startAfterEnd start stop =>
      "substring: start " ++ toString start ++ " is after end " ++ toString stop
  | notCharacter code => "integer->char: " ++ toString code ++ " is not a character"
  | negativeLength name length => name ++ ": negative length " ++ toString length
  | notByte name n => name ++ ": " ++ toString n ++ " is not a byte"
  | notProcedure got => "not a procedure: " ++ got
  | notList got => "expected a proper list, got " ++ got
  | raised text => text

/-- The pending frames shown with an error, innermost first, and how many more there were. -/
structure Trace where
  shown : List String := []
  omitted : Nat := 0
  deriving DecidableEq, Repr

namespace Trace

/-- The trace of an error raised where no frames are kept. -/
def none : Trace := ⟨[], 0⟩

/-- A trace that shows nothing. -/
def isEmpty (trace : Trace) : Bool := trace.shown.isEmpty && trace.omitted == 0

/-- The lines that follow the message of an error. -/
def text (trace : Trace) : String :=
  String.join (trace.shown.map fun line => "\n  in " ++ line) ++
    (if trace.omitted = 0 then "" else "\n  ... " ++ toString trace.omitted ++ " more frames")

end Trace

/-- An error of the language. -/
inductive Error where
  /-- The text or the expression has no meaning. -/
  | malformed (fault : SyntaxFault)
  /-- The text ends too early. -/
  | incomplete
  /-- A variable has no binding. -/
  | unbound (name : String) (trace : Trace)
  /-- The evaluation failed. -/
  | failed (fault : Fault) (trace : Trace)
  deriving Repr

namespace Error

/-- The text of an error. -/
def message : Error → String
  | malformed fault => "syntax error: " ++ fault.message
  | incomplete => "syntax error: unexpected end of input"
  | unbound name trace => "unbound variable: " ++ name ++ trace.text
  | failed fault trace => fault.message ++ trace.text

/-- Attach a trace to an error that can carry one and has none yet. -/
def withTrace (trace : Trace) : Error → Error
  | unbound name old => unbound name (if old.isEmpty then trace else old)
  | failed fault old => failed fault (if old.isEmpty then trace else old)
  | error => error

end Error
end LittleScheme
