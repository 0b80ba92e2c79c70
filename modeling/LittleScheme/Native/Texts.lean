import LittleScheme.Native.Argument
import LittleScheme.Number.Literal
import LittleScheme.Reader

/-!
# Native procedures on strings, symbols and characters

Strings are counted in characters. A symbol made from a string is the keyword of that name where
there is one, as in the reader.
-/
namespace LittleScheme.Native.Texts

open Argument

/-- The symbol or keyword with a name. -/
def symbolOf (name : String) : Value :=
  match Keyword.ofName? name with
  | some k => .keyword k
  | none => .symbol name

/-- A character of a string. -/
def charAt (text position : Value) : Eval Value := do
  let cs := (← string "string-ref" text).toList
  let i ← index "string-ref" cs.length position
  match cs[i]? with
  | some c => return .char c
  | none => Eval.fail (.outOfRange "string-ref" i)

/-- The part of a string between two positions, the second of which may be left out. -/
def slice (text start : Value) (stop : Option Value) : Eval Value := do
  let cs := (← string "substring" text).toList
  let start ← index "substring" (cs.length + 1) start
  let stop ← match stop with
    | some stop => index "substring" (cs.length + 1) stop
    | none => pure cs.length
  if stop < start then Eval.fail (.startAfterEnd start stop)
  Eval.make fun s => s.newString (String.ofList ((cs.drop start).take (stop - start)))

/-- The string of a list of characters. -/
def ofCharacters (v : Value) : Eval Value := do
  let items ← properList "list->string" .characterList v
  let cs ← items.mapM (char "list->string")
  Eval.make fun s => s.newString (String.ofList cs)

/-- The character with a code point. -/
def charOfInteger (v : Value) : Eval Value := do
  let n ← integer "integer->char" v
  match if 0 ≤ n then Reader.charOfCode? n.toNat else none with
  | some c => return .char c
  | none => Eval.fail (.notCharacter n)

/-- What the procedures do. -/
def run (p : Texts) (args : List Value) : Eval Value :=
  match p, args with
  | .isString, [v] => return .bool (v matches .string _)
  | .stringLength, [v] => do return .ofNat (← string "string-length" v).length
  | .stringRef, [text, position] => charAt text position
  | .stringAppend, args => do
      let texts ← args.mapM (string "string-append")
      Eval.make fun s => s.newString (String.join texts)
  | .substring, [text, start] => slice text start none
  | .substring, [text, start, stop] => slice text start (some stop)
  | .stringEqual, args => do
      return .bool (ascending (· == ·) (← args.mapM (string "string=?")))
  | .stringLess, args => do
      return .bool (ascending (fun a b => decide (a < b)) (← args.mapM (string "string<?")))
  | .stringToSymbol, [v] => do return symbolOf (← string "string->symbol" v)
  | .symbolToString, [v] =>
      match v with
      | .symbol name => Eval.make fun s => s.newString name
      | .keyword k => Eval.make fun s => s.newString k.name
      | v => wrongType "symbol->string" .symbol v
  | .stringToNumber, [v] => do
      let text ← string "string->number" v
      match Number.parse? (String.ofList (Text.trim text.toList)) with
      | some n => return .number n
      | none => return .bool false
  | .numberToString, [v] => do
      let n ← number "number->string" v
      Eval.make fun s => s.newString n.text
  | .stringToList, [v] => do
      let text ← string "string->list" v
      Eval.make fun s => s.list (text.toList.map .char)
  | .listToString, [v] => ofCharacters v
  | .isSymbol, [v] => return .bool (v matches .symbol _ | .keyword _)
  | .isChar, [v] => return .bool (v matches .char _)
  | .charToInteger, [v] => do return .ofNat (← char "char->integer" v).toNat
  | .integerToChar, [v] => charOfInteger v
  | .charEqual, args => do
      return .bool (ascending (· == ·) (← args.mapM (char "char=?")))
  | .charLess, args => do
      return .bool (ascending (fun a b => decide (a < b)) (← args.mapM (char "char<?")))
  | p, args => wrongCount p.name p.arity args

end LittleScheme.Native.Texts
