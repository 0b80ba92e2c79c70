import LittleScheme.Arity

/-!
# The native procedures

Every native procedure by name, in six families, with the number of arguments it takes. What they do
is told in one module a family.
-/
namespace LittleScheme
namespace Native

/-- Arithmetic and the order of numbers. -/
inductive Numeric where
  | add
  | sub
  | mul
  | div
  | quotient
  | remainder
  | modulo
  | equal
  | less
  | greater
  | lessEqual
  | greaterEqual
  | abs
  | min
  | max
  | isNumber
  | isInteger
  | isReal
  | isZero
  | toInexact
  | toExact
  | floor
  | ceiling
  | round
  | truncate
  | sqrt
  | expt
  deriving DecidableEq, Repr

namespace Numeric

/-- The procedures of the family. -/
def all : List Numeric :=
  [add, sub, mul, div, quotient, remainder, modulo, equal, less, greater, lessEqual, greaterEqual,
  abs, min, max, isNumber, isInteger, isReal, isZero, toInexact, toExact, floor, ceiling, round,
  truncate, sqrt, expt]

/-- The name a program calls the procedure by. -/
def name : Numeric → String
  | add => "+"
  | sub => "-"
  | mul => "*"
  | div => "/"
  | quotient => "quotient"
  | remainder => "remainder"
  | modulo => "modulo"
  | equal => "="
  | less => "<"
  | greater => ">"
  | lessEqual => "<="
  | greaterEqual => ">="
  | abs => "abs"
  | min => "min"
  | max => "max"
  | isNumber => "number?"
  | isInteger => "integer?"
  | isReal => "real?"
  | isZero => "zero?"
  | toInexact => "exact->inexact"
  | toExact => "inexact->exact"
  | floor => "floor"
  | ceiling => "ceiling"
  | round => "round"
  | truncate => "truncate"
  | sqrt => "sqrt"
  | expt => "expt"

/-- The number of arguments. -/
def arity : Numeric → Arity
  | add | mul => .atLeast 0
  | sub | div | equal | less | greater | lessEqual | greaterEqual | min | max => .atLeast 1
  | quotient | remainder | modulo | expt => .exactly 2
  | abs | isNumber | isInteger | isReal | isZero | toInexact | toExact | floor | ceiling | round
  | truncate | sqrt => .exactly 1

end Numeric

/-- Pairs, lists and equality. -/
inductive Lists where
  | cons
  | car
  | cdr
  | setCar
  | setCdr
  | list
  | length
  | append
  | reverse
  | listTail
  | isNull
  | isPair
  | isList
  | eq
  | eqv
  | equal
  | not
  deriving DecidableEq, Repr

namespace Lists

/-- The procedures of the family. -/
def all : List Lists :=
  [cons, car, cdr, setCar, setCdr, list, length, append, reverse, listTail, isNull, isPair, isList,
  eq, eqv, equal, .not]

/-- The name a program calls the procedure by. -/
def name : Lists → String
  | cons => "cons"
  | car => "car"
  | cdr => "cdr"
  | setCar => "set-car!"
  | setCdr => "set-cdr!"
  | list => "list"
  | length => "length"
  | append => "append"
  | reverse => "reverse"
  | listTail => "list-tail"
  | isNull => "null?"
  | isPair => "pair?"
  | isList => "list?"
  | eq => "eq?"
  | eqv => "eqv?"
  | equal => "equal?"
  | not => "not"

/-- The number of arguments. -/
def arity : Lists → Arity
  | cons | setCar | setCdr | listTail | eq | eqv | equal => .exactly 2
  | car | cdr | length | reverse | isNull | isPair | isList | not => .exactly 1
  | list | append => .atLeast 0

end Lists

/-- Strings, symbols and characters. -/
inductive Texts where
  | isString
  | stringLength
  | stringRef
  | stringAppend
  | substring
  | stringEqual
  | stringLess
  | stringToSymbol
  | symbolToString
  | stringToNumber
  | numberToString
  | stringToList
  | listToString
  | isSymbol
  | isChar
  | charToInteger
  | integerToChar
  | charEqual
  | charLess
  deriving DecidableEq, Repr

namespace Texts

/-- The procedures of the family. -/
def all : List Texts :=
  [isString, stringLength, stringRef, stringAppend, substring, stringEqual, stringLess,
  stringToSymbol, symbolToString, stringToNumber, numberToString, stringToList, listToString,
  isSymbol, isChar, charToInteger, integerToChar, charEqual, charLess]

/-- The name a program calls the procedure by. -/
def name : Texts → String
  | isString => "string?"
  | stringLength => "string-length"
  | stringRef => "string-ref"
  | stringAppend => "string-append"
  | substring => "substring"
  | stringEqual => "string=?"
  | stringLess => "string<?"
  | stringToSymbol => "string->symbol"
  | symbolToString => "symbol->string"
  | stringToNumber => "string->number"
  | numberToString => "number->string"
  | stringToList => "string->list"
  | listToString => "list->string"
  | isSymbol => "symbol?"
  | isChar => "char?"
  | charToInteger => "char->integer"
  | integerToChar => "integer->char"
  | charEqual => "char=?"
  | charLess => "char<?"

/-- The number of arguments. -/
def arity : Texts → Arity
  | isString | stringLength | stringToSymbol | symbolToString | stringToNumber | numberToString
  | stringToList | listToString | isSymbol | isChar | charToInteger | integerToChar => .exactly 1
  | stringRef => .exactly 2
  | stringAppend => .atLeast 0
  | substring => .between 2 3
  | stringEqual | stringLess | charEqual | charLess => .atLeast 1

end Texts

/-- Vectors and bytevectors. -/
inductive Vectors where
  | vector
  | makeVector
  | isVector
  | vectorLength
  | vectorRef
  | vectorSet
  | vectorToList
  | listToVector
  | bytevector
  | makeBytevector
  | isBytevector
  | bytevectorLength
  | bytevectorRef
  | bytevectorSet
  deriving DecidableEq, Repr

namespace Vectors

/-- The procedures of the family. -/
def all : List Vectors :=
  [vector, makeVector, isVector, vectorLength, vectorRef, vectorSet, vectorToList, listToVector,
  bytevector, makeBytevector, isBytevector, bytevectorLength, bytevectorRef, bytevectorSet]

/-- The name a program calls the procedure by. -/
def name : Vectors → String
  | vector => "vector"
  | makeVector => "make-vector"
  | isVector => "vector?"
  | vectorLength => "vector-length"
  | vectorRef => "vector-ref"
  | vectorSet => "vector-set!"
  | vectorToList => "vector->list"
  | listToVector => "list->vector"
  | bytevector => "bytevector"
  | makeBytevector => "make-bytevector"
  | isBytevector => "bytevector?"
  | bytevectorLength => "bytevector-length"
  | bytevectorRef => "bytevector-u8-ref"
  | bytevectorSet => "bytevector-u8-set!"

/-- The number of arguments. -/
def arity : Vectors → Arity
  | vector | bytevector => .atLeast 0
  | makeVector | makeBytevector => .between 1 2
  | isVector | vectorLength | vectorToList | listToVector | isBytevector
  | bytevectorLength => .exactly 1
  | vectorRef | bytevectorRef => .exactly 2
  | vectorSet | bytevectorSet => .exactly 3

end Vectors

/-- Input and output. -/
inductive Ports where
  | display
  | write
  | newline
  | writeChar
  | readChar
  | peekChar
  | charReady
  | closePort
  | isInputPort
  | isOutputPort
  | openInputString
  | openOutputString
  | getOutputString
  | currentOutputPort
  | eofObject
  | isEofObject
  deriving DecidableEq, Repr

namespace Ports

/-- The procedures of the family. -/
def all : List Ports :=
  [display, write, newline, writeChar, readChar, peekChar, charReady, closePort, isInputPort,
  isOutputPort, openInputString, openOutputString, getOutputString, currentOutputPort, eofObject,
  isEofObject]

/-- The name a program calls the procedure by. -/
def name : Ports → String
  | display => "display"
  | write => "write"
  | newline => "newline"
  | writeChar => "write-char"
  | readChar => "read-char"
  | peekChar => "peek-char"
  | charReady => "char-ready?"
  | closePort => "close-port"
  | isInputPort => "input-port?"
  | isOutputPort => "output-port?"
  | openInputString => "open-input-string"
  | openOutputString => "open-output-string"
  | getOutputString => "get-output-string"
  | currentOutputPort => "current-output-port"
  | eofObject => "eof-object"
  | isEofObject => "eof-object?"

/-- The number of arguments. -/
def arity : Ports → Arity
  | display | write | writeChar => .between 1 2
  | newline | readChar | peekChar | charReady => .between 0 1
  | closePort | isInputPort | isOutputPort | openInputString | getOutputString
  | isEofObject => .exactly 1
  | openOutputString | currentOutputPort | eofObject => .exactly 0

end Ports

/-- Procedures and failures. -/
inductive Control where
  | isProcedure
  | apply
  | error
  deriving DecidableEq, Repr

namespace Control

/-- The procedures of the family. -/
def all : List Control :=
  [isProcedure, apply, error]

/-- The name a program calls the procedure by. -/
def name : Control → String
  | isProcedure => "procedure?"
  | apply => "apply"
  | error => "error"

/-- The number of arguments. -/
def arity : Control → Arity
  | isProcedure => .exactly 1
  | apply | error => .atLeast 1

end Control

end Native

/-- A native procedure. -/
inductive Native where
  | numeric (p : Native.Numeric)
  | lists (p : Native.Lists)
  | texts (p : Native.Texts)
  | vectors (p : Native.Vectors)
  | ports (p : Native.Ports)
  | control (p : Native.Control)
  deriving DecidableEq, Repr

namespace Native

/-- Every native procedure. -/
def all : List Native :=
  Numeric.all.map numeric ++
    Lists.all.map lists ++
    Texts.all.map texts ++
    Vectors.all.map vectors ++
    Ports.all.map ports ++
    Control.all.map control

/-- The name a program calls a native procedure by. -/
def name : Native → String
  | numeric p => p.name
  | lists p => p.name
  | texts p => p.name
  | vectors p => p.name
  | ports p => p.name
  | control p => p.name

/-- The number of arguments a native procedure takes. -/
def arity : Native → Arity
  | numeric p => p.arity
  | lists p => p.arity
  | texts p => p.arity
  | vectors p => p.arity
  | ports p => p.arity
  | control p => p.arity

end Native
end LittleScheme
