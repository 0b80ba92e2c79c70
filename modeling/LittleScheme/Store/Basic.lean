import LittleScheme.Datum.Basic
import LittleScheme.Port
import LittleScheme.Value
import Std.Data.TreeMap

/-!
# The store

All objects of a running program, in one table a kind. An object is never removed, so a reference
that was made stays good. A read at a place that holds nothing gives an empty object, and a write
there does nothing.
-/
namespace LittleScheme

/-- Two values, both of which can be changed. -/
structure Pair where
  car : Value
  cdr : Value
  deriving Repr, Inhabited

/-- A procedure made by a program: its parameters, the list of its body expressions and the scope in
which it was made. -/
structure Closure where
  name : Option String
  params : List String
  rest : Option String
  body : Value
  scope : Ref
  deriving Repr, Inhabited

/-- One frame of lexical scope. The scope of a named `let` knows the loop procedure by its name; the
scope of a call knows the procedure that was called. -/
structure Scope where
  bindings : Std.TreeMap String Value := ∅
  parent : Option Ref := none
  loop : Option (String × Ref) := none
  caller : Option Ref := none
  deriving Inhabited

/-- The objects of a program and its console. -/
structure Store where
  pairs : Array Pair := #[]
  strings : Array String := #[]
  vectors : Array (Array Value) := #[]
  bytes : Array (Array UInt8) := #[]
  closures : Array Closure := #[]
  scopes : Array Scope := #[]
  ports : Array Port := #[{ kind := .stdout }, { kind := .stdin [] }]
  console : Console := {}

namespace Store

/-- The place of the standard output port. -/
def stdout : Ref := 0

/-- The place of the standard input port. -/
def stdin : Ref := 1

/-- The store of a program that has only its standard ports. -/
def ofConsole (console : Console) : Store := { console }

/-- The pair at a place. -/
def pair (s : Store) (r : Ref) : Pair := s.pairs.getD r ⟨.nil, .nil⟩

/-- The first part of a pair. -/
def car (s : Store) (r : Ref) : Value := (s.pair r).car

/-- The second part of a pair. -/
def cdr (s : Store) (r : Ref) : Value := (s.pair r).cdr

/-- Change the first part of a pair. -/
def setCar (s : Store) (r : Ref) (v : Value) : Store :=
  { s with pairs := s.pairs.modify r fun p => { p with car := v } }

/-- Change the second part of a pair. -/
def setCdr (s : Store) (r : Ref) (v : Value) : Store :=
  { s with pairs := s.pairs.modify r fun p => { p with cdr := v } }

/-- The place of the next pair. -/
def nextPair (s : Store) : Ref := s.pairs.size

/-- A new pair at the place `nextPair`. -/
def pushPair (s : Store) (car cdr : Value) : Store := { s with pairs := s.pairs.push ⟨car, cdr⟩ }

/-- A new pair. -/
def cons (s : Store) (car cdr : Value) : Value × Store :=
  let r := s.nextPair
  (.pair r, s.pushPair car cdr)

/-- New pairs that hold `items` in front of `tail`. -/
def listWithTail (s : Store) (items : List Value) (tail : Value) : Value × Store :=
  items.foldr (fun item (rest, s) => s.cons item rest) (tail, s)

/-- A new proper list. -/
def list (s : Store) (items : List Value) : Value × Store := s.listWithTail items .nil

/-- The contents of a string. -/
def string (s : Store) (r : Ref) : String := s.strings.getD r ""

/-- A new string. -/
def newString (s : Store) (text : String) : Value × Store :=
  let r := s.strings.size
  (.string r, { s with strings := s.strings.push text })

/-- The elements of a vector. -/
def vector (s : Store) (r : Ref) : Array Value := s.vectors.getD r #[]

/-- A new vector. -/
def newVector (s : Store) (items : Array Value) : Value × Store :=
  let r := s.vectors.size
  (.vector r, { s with vectors := s.vectors.push items })

/-- Change one element of a vector. -/
def setVector (s : Store) (r index : Nat) (v : Value) : Store :=
  { s with vectors := s.vectors.modify r fun items => items.setIfInBounds index v }

/-- The elements of a bytevector. -/
def bytevector (s : Store) (r : Ref) : Array UInt8 := s.bytes.getD r #[]

/-- A new bytevector. -/
def newBytes (s : Store) (items : Array UInt8) : Value × Store :=
  let r := s.bytes.size
  (.bytes r, { s with bytes := s.bytes.push items })

/-- Change one element of a bytevector. -/
def setBytes (s : Store) (r index : Nat) (b : UInt8) : Store :=
  { s with bytes := s.bytes.modify r fun items => items.setIfInBounds index b }

/-- The closure at a place. -/
def closure (s : Store) (r : Ref) : Closure := s.closures.getD r default

/-- A new closure. -/
def newClosure (s : Store) (c : Closure) : Value × Store :=
  let r := s.closures.size
  (.closure r, { s with closures := s.closures.push c })

/-- The port at a place. -/
def port (s : Store) (r : Ref) : Port := s.ports.getD r { kind := .stdout, closed := true }

/-- A new port. -/
def newPort (s : Store) (p : Port) : Value × Store :=
  let r := s.ports.size
  (.port r, { s with ports := s.ports.push p })

/-- Change the port at a place. -/
def setPort (s : Store) (r : Ref) (p : Port) : Store :=
  { s with ports := s.ports.setIfInBounds r p }

/-- Change the console. -/
def setConsole (s : Store) (console : Console) : Store := { s with console }

/-- Add to standard output. -/
def print (s : Store) (text : String) : Store := { s with console := s.console.print text }

mutual

/-- Bring a datum into the store. Every part of it is a new object. -/
def load (s : Store) : Datum → Value × Store
  | .nil => (.nil, s)
  | .bool b => (.bool b, s)
  | .number n => (.number n, s)
  | .char c => (.char c, s)
  | .string text => s.newString text
  | .symbol name => (.symbol name, s)
  | .keyword k => (.keyword k, s)
  | .pair car cdr =>
      let (car, s) := s.load car
      let (cdr, s) := s.load cdr
      s.cons car cdr
  | .vector items =>
      let (items, s) := s.loadAll items
      s.newVector items.toArray
  | .bytes items => s.newBytes items.toArray

/-- Bring some data into the store. -/
def loadAll (s : Store) : List Datum → List Value × Store
  | [] => ([], s)
  | d :: rest =>
      let (v, s) := s.load d
      let (vs, s) := s.loadAll rest
      (v :: vs, s)

end

end Store
end LittleScheme
