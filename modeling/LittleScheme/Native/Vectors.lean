import LittleScheme.Native.Argument

/-!
# Native procedures on vectors and bytevectors

While an element is being changed the object is held. If the position is no integer, the message
shows it, and when that would show the held object itself the computation is aborted.
-/
namespace LittleScheme.Native.Vectors

open Argument

/-- The vector that an argument refers to. -/
def vectorArg (name : String) : Value → Eval Ref
  | .vector r => return r
  | v => wrongType name .vector v

/-- The bytevector that an argument refers to. -/
def bytesArg (name : String) : Value → Eval Ref
  | .bytes r => return r
  | v => wrongType name .bytevector v

/-- A position in an object that is held. -/
def heldIndex (name : String) (held : Value) (bound : Nat) (position : Value) : Eval Nat := do
  unless position matches .number _ do
    if ← Eval.ask fun s => s.mentions held position then throw .aborted
  index name bound position

/-- An element of a vector. -/
def element (target position : Value) : Eval Value := do
  let r ← vectorArg "vector-ref" target
  let items ← Eval.ask fun s => s.vector r
  let i ← index "vector-ref" items.size position
  return items.getD i .nil

/-- Change an element of a vector. -/
def setElement (target position v : Value) : Eval Value := do
  let r ← vectorArg "vector-set!" target
  let size ← Eval.ask fun s => (s.vector r).size
  let i ← heldIndex "vector-set!" target size position
  Eval.update fun s => s.setVector r i v
  return .void

/-- A vector with equal elements. -/
def filled (size fill : Value) : Eval Value := do
  let n ← length "make-vector" size
  Eval.make fun s => s.newVector (Array.replicate n fill)

/-- An element of a bytevector. -/
def byteAt (target position : Value) : Eval Value := do
  let r ← bytesArg "bytevector-u8-ref" target
  let items ← Eval.ask fun s => s.bytevector r
  let i ← index "bytevector-u8-ref" items.size position
  return .ofNat (items.getD i 0).toNat

/-- Change an element of a bytevector. The new element is checked before the position. -/
def setByte (target position v : Value) : Eval Value := do
  let r ← bytesArg "bytevector-u8-set!" target
  let b ← byte "bytevector-u8-set!" v
  let size ← Eval.ask fun s => (s.bytevector r).size
  let i ← heldIndex "bytevector-u8-set!" target size position
  Eval.update fun s => s.setBytes r i b
  return .void

/-- A bytevector with equal elements. -/
def filledBytes (size : Value) (fill : Option Value) : Eval Value := do
  let n ← length "make-bytevector" size
  let b ← match fill with
    | some v => byte "make-bytevector" v
    | none => pure 0
  Eval.make fun s => s.newBytes (Array.replicate n b)

/-- What the procedures do. -/
def run (p : Vectors) (args : List Value) : Eval Value :=
  match p, args with
  | .vector, args => Eval.make fun s => s.newVector args.toArray
  | .makeVector, [size] => filled size (.integer 0)
  | .makeVector, [size, fill] => filled size fill
  | .isVector, [v] => return .bool (v matches .vector _)
  | .vectorLength, [v] => do
      let r ← vectorArg "vector-length" v
      return .ofNat (← Eval.ask fun s => (s.vector r).size)
  | .vectorRef, [target, position] => element target position
  | .vectorSet, [target, position, v] => setElement target position v
  | .vectorToList, [v] => do
      let r ← vectorArg "vector->list" v
      Eval.make fun s => s.list (s.vector r).toList
  | .listToVector, [v] => do
      let items ← properList "list->vector" .properList v
      Eval.make fun s => s.newVector items.toArray
  | .bytevector, args => do
      let bytes ← args.mapM (byte "bytevector")
      Eval.make fun s => s.newBytes bytes.toArray
  | .makeBytevector, [size] => filledBytes size none
  | .makeBytevector, [size, fill] => filledBytes size (some fill)
  | .isBytevector, [v] => return .bool (v matches .bytes _)
  | .bytevectorLength, [v] => do
      let r ← bytesArg "bytevector-length" v
      return .ofNat (← Eval.ask fun s => (s.bytevector r).size)
  | .bytevectorRef, [target, position] => byteAt target position
  | .bytevectorSet, [target, position, v] => setByte target position v
  | p, args => wrongCount p.name p.arity args

end LittleScheme.Native.Vectors
