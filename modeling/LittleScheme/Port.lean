import LittleScheme.Error

/-!
# Ports

A port is a stream of characters, read or written. Input and output ports over strings hold their
text themselves; the two standard ports share the console. Standard input is taken a line at a time,
so what one reader has not consumed of a line is lost to the next.
-/
namespace LittleScheme

/-- The standard streams: what is left of standard input, whether more of it may still arrive, and
what has been written to standard output. -/
structure Console where
  unread : List Char := []
  ended : Bool := true
  written : String := ""
  deriving Repr

namespace Console

/-- The console of a program with the given standard input. -/
def ofText (text : String) : Console := { unread := text.toList }

/-- The next line of standard input with its line end, empty at the end of the input. There is no
answer as long as the line may still go on. -/
def takeLine (c : Console) : Option (List Char × Console) :=
  match c.unread.dropWhile fun ch => ch != '\n' with
  | ch :: rest =>
      some ((c.unread.takeWhile fun ch => ch != '\n') ++ [ch], { c with unread := rest })
  | [] => if c.ended then some (c.unread, { c with unread := [] }) else none

/-- Add to standard output. -/
def print (c : Console) (text : String) : Console := { c with written := c.written ++ text }

end Console

/-- The kinds of ports. An input port keeps the characters it has not delivered. -/
inductive Port.Kind where
  | input (pending : List Char)
  | output (written : String)
  | stdout
  | stdin (pending : List Char)
  deriving Repr

/-- A port, open until it is closed for good. -/
structure Port where
  kind : Port.Kind
  closed : Bool := false
  deriving Repr

namespace Port

/-- A port that delivers the characters of a text. -/
def ofText (text : String) : Port := { kind := .input text.toList }

/-- A port that collects what is written to it. -/
def collector : Port := { kind := .output "" }

/-- Why an operation on a port did not succeed: it failed, or has to wait for standard input. -/
inductive Stop where
  | fault (fault : PortFault)
  | waiting
  deriving Repr

/-- The port can be read. -/
def isInput (p : Port) : Bool := p.kind matches .input _ | .stdin _

/-- The port can be written. -/
def isOutput (p : Port) : Bool := p.kind matches .output _ | .stdout

/-- Close the port. -/
def close (p : Port) : Port := { p with closed := true }

/-- The characters at the front of an input port. Standard input takes a new line when the last one
is used up. -/
def pending (p : Port) (c : Console) : Except Stop (List Char × Console) :=
  if p.closed then .error (.fault .closed)
  else
    match p.kind with
    | .input cs => .ok (cs, c)
    | .stdin [] =>
        match c.takeLine with
        | some (line, c) => .ok (line, c)
        | none => .error .waiting
    | .stdin cs => .ok (cs, c)
    | _ => .error (.fault .notInput)

/-- The port with other characters pending. -/
def withPending (p : Port) (cs : List Char) : Port :=
  match p.kind with
  | .input _ => { p with kind := .input cs }
  | .stdin _ => { p with kind := .stdin cs }
  | _ => p

/-- Take the next character, nothing at the end of the input. -/
def read (p : Port) (c : Console) : Except Stop (Option Char × Port × Console) :=
  match p.pending c with
  | .ok (cs, c) => .ok (cs.head?, p.withPending cs.tail, c)
  | .error stop => .error stop

/-- The next character, which stays. -/
def peek (p : Port) (c : Console) : Except Stop (Option Char × Port × Console) :=
  match p.pending c with
  | .ok (cs, c) => .ok (cs.head?, p.withPending cs, c)
  | .error stop => .error stop

/-- An open input port is always ready: at worst a read waits for the rest of a line. -/
def ready (p : Port) : Except PortFault Unit :=
  if p.closed then .error .closed
  else if p.isInput then .ok ()
  else .error .notInput

/-- Write a text. What goes to standard output is returned beside the port. -/
def write (p : Port) (text : String) : Except PortFault (Port × String) :=
  if p.closed then .error .closed
  else
    match p.kind with
    | .output written => .ok ({ p with kind := .output (written ++ text) }, "")
    | .stdout => .ok (p, text)
    | _ => .error .notOutput

/-- Everything written so far to a port over a string, also after it was closed. -/
def output (p : Port) : Except PortFault String :=
  match p.kind with
  | .output written => .ok written
  | _ => .error .notStringOutput

end Port
end LittleScheme
