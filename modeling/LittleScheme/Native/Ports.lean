import LittleScheme.Native.Argument

/-!
# Native procedures for input and output

A port that is left out is the standard one. Reading past the end gives the end-of-file value.
-/
namespace LittleScheme.Native.Ports

open Argument

/-- The port at the front of the arguments, or the standard one. -/
def portRef (name : String) (standard : Ref) : List Value → Eval Ref
  | [] => return standard
  | .port r :: _ => return r
  | v :: _ => wrongType name .port v

/-- Write a text to a port. -/
def writeTo (r : Ref) (text : String) : Eval Value := do
  let p ← Eval.ask fun s => s.port r
  let (p, printed) ← Eval.ofPort (p.write text)
  Eval.update fun s => (s.setPort r p).print printed
  return .void

/-- Take a character from a port with one of its operations. -/
def takeFrom (r : Ref)
    (op : Port → Console → Except Port.Stop (Option Char × Port × Console)) : Eval Value := do
  let p ← Eval.ask fun s => s.port r
  match op p (← Eval.ask fun s => s.console) with
  | .ok (c, p, console) =>
      Eval.update fun s => (s.setPort r p).setConsole console
      match c with
      | some c => return .char c
      | none => return .eof
  | .error (.fault fault) => Eval.fail (.port fault)
  | .error .waiting => throw .waiting

/-- The argument is a port of some kind. -/
def isPort (test : Port → Bool) : Value → Eval Value
  | .port r => do return .bool (test (← Eval.ask fun s => s.port r))
  | _ => return .bool false

/-- What the procedures do. -/
def run (p : Ports) (args : List Value) : Eval Value :=
  match p, args with
  | .display, v :: more => do
      let r ← portRef "display" Store.stdout more
      writeTo r (← Eval.ask fun s => s.displayed v)
  | .write, v :: more => do
      let r ← portRef "write" Store.stdout more
      writeTo r (← Eval.written v)
  | .newline, more => do writeTo (← portRef "newline" Store.stdout more) "\n"
  | .writeChar, v :: more => do
      let c ← char "write-char" v
      writeTo (← portRef "write-char" Store.stdout more) (String.singleton c)
  | .readChar, more => do takeFrom (← portRef "read-char" Store.stdin more) Port.read
  | .peekChar, more => do takeFrom (← portRef "peek-char" Store.stdin more) Port.peek
  | .charReady, more => do
      let r ← portRef "char-ready?" Store.stdin more
      Eval.ofPort (← Eval.ask fun s => s.port r).ready
      return .bool true
  | .closePort, [.port r] => do
      Eval.update fun s => s.setPort r (s.port r).close
      return .void
  | .closePort, [v] => wrongType "close-port" .port v
  | .isInputPort, [v] => isPort Port.isInput v
  | .isOutputPort, [v] => isPort Port.isOutput v
  | .openInputString, [v] => do
      let text ← string "open-input-string" v
      Eval.make fun s => s.newPort (Port.ofText text)
  | .openOutputString, [] => Eval.make fun s => s.newPort Port.collector
  | .getOutputString, [.port r] => do
      let text ← Eval.ofPort (← Eval.ask fun s => s.port r).output
      Eval.make fun s => s.newString text
  | .getOutputString, [v] => wrongType "get-output-string" .port v
  | .currentOutputPort, [] => return .port Store.stdout
  | .eofObject, [] => return .eof
  | .isEofObject, [v] => return .bool (v matches .eof)
  | p, args => wrongCount p.name p.arity args

end LittleScheme.Native.Ports
