import LittleScheme.Settings

/-!
# The command line

Without files the interpreter reads and answers line by line; with files it runs them in order. The
whole session is a function of its input, so that it can be run again when more input has arrived.
-/
namespace LittleScheme.CommandLine

/-- What a session is started with. A file that cannot be read has the reason in its place. -/
structure Invocation where
  args : List String
  /-- The name of the settings file. -/
  settingsFile : Option String
  read : String → Except String String

/-- Why a session ends early: what was being done, and what went wrong with it. -/
structure Failure where
  context : String
  cause : String
  deriving DecidableEq, Repr

/-- A text with every line moved to the right. -/
def indented (text : String) : String :=
  "    " ++ String.ofList (text.toList.flatMap fun c => if c = '\n' then "\n    ".toList else [c])

/-- The report of a failure. -/
def Failure.report (f : Failure) : String :=
  "Error: " ++ f.context ++ "\n\nCaused by:\n" ++ indented f.cause ++ "\n"

/-- The settings of a session. -/
def loadSettings (inv : Invocation) : Except Failure Settings :=
  match inv.settingsFile with
  | none => .ok {}
  | some path =>
      let context := "reading configuration from " ++ Text.quoteName path
      match inv.read path with
      | .error cause => .error ⟨context, cause⟩
      | .ok text =>
          match Settings.parse? text with
          | some settings => .ok settings
          | none => .error ⟨context, "invalid configuration"⟩

/-- One argument: a flag that chooses the strategy, or a file. -/
def readArgument (state : Settings × List String) (arg : String) : Settings × List String :=
  match arg with
  | "--recursive" => ({ state.1 with strategy := .recursive }, state.2)
  | "--stack" => ({ state.1 with strategy := .stack }, state.2)
  | file => (state.1, state.2 ++ [file])

/-- The settings after the flags, and the files. -/
def readArguments (settings : Settings) (args : List String) : Settings × List String :=
  args.foldl readArgument (settings, [])

/-- Write to standard output. -/
def print (text : String) : Eval Unit := Eval.update fun s => s.print text

/-- The next line of standard input, empty at its end. -/
def takeLine : Eval (List Char) := fun s =>
  match s.console.takeLine with
  | some (line, console) => .ok line (s.setConsole console)
  | none => .error .waiting s

/-- The outcome of a text that was typed in: what is shown of it, or nothing yet when it goes on. -/
def answer (i : Interpreter) (fuel : Nat) (text : String) : Eval (Option String) := fun s =>
  match i.evalText fuel text s with
  | .ok .void s => .ok (some "") s
  | .ok v s => .ok (some (s.written v ++ "\n")) s
  | .error (.error .incomplete) s => .ok none s
  | .error (.error e) s => .ok (some ("Error: " ++ e.message ++ "\n")) s
  | .error stop s => .error stop s

/-- Read lines until they make a complete text, show its value and start over, at most `n` times. -/
def converse (i : Interpreter) (fuel : Nat) : Nat → String → Eval Unit
  | 0, _ => return ()
  | n + 1, buffer => do
      print (if buffer.isEmpty then "> " else "... ")
      let line ← takeLine
      unless line.isEmpty do
        let buffer := buffer ++ String.ofList line
        match ← answer i fuel buffer with
        | none => converse i fuel n buffer
        | some shown =>
            print shown
            converse i fuel n ""

/-- Run a file. Its value is not shown. -/
def runFile (i : Interpreter) (fuel : Nat) (inv : Invocation) (file : String) :
    Eval (Except Failure Unit) := fun s =>
  match inv.read file with
  | .error cause => .ok (.error ⟨"reading " ++ file, cause⟩) s
  | .ok text =>
      match i.evalText fuel text s with
      | .ok _ s => .ok (.ok ()) s
      | .error (.error e) s => .ok (.error ⟨"evaluating " ++ file, e.message⟩) s
      | .error stop s => .error stop s

/-- Run files in order, up to the first that fails. -/
def runFiles (i : Interpreter) (fuel : Nat) (inv : Invocation) :
    List String → Eval (Except Failure Unit)
  | [] => return .ok ()
  | file :: files => do
      match ← runFile i fuel inv file with
      | .ok () => runFiles i fuel inv files
      | .error failure => return .error failure

/-- A session from start to end. Every line takes at least one character of the input. -/
def session (inv : Invocation) (fuel : Nat) : Eval (Except Failure Unit) := do
  match loadSettings inv with
  | .error failure => return .error failure
  | .ok settings =>
      let (settings, files) := readArguments settings inv.args
      let i ← Interpreter.new settings.evaluator settings.prelude fuel
      if files.isEmpty then
        let lines ← Eval.ask fun s => s.console.unread.length + 1
        converse i fuel lines ""
        return .ok ()
      else runFiles i fuel inv files

/-- What a session left behind: its output, its report of a failure and its exit code. -/
structure Report where
  stdout : String
  stderr : String
  code : Nat
  deriving DecidableEq, Repr

/-- The outcome of a session on the input known so far. -/
inductive Outcome where
  | ended (report : Report)
  /-- More input has to arrive; this has been written by then. -/
  | waiting (stdout : String)
  deriving Repr

/-- The exit code of a session that was broken off. -/
def brokenOff : Nat := 101

/-- Run a session on a console. -/
def run (inv : Invocation) (console : Console) (fuel : Nat) : Outcome :=
  match session inv fuel (Store.ofConsole console) with
  | .ok (.ok ()) s => .ended ⟨s.console.written, "", 0⟩
  | .ok (.error failure) s => .ended ⟨s.console.written, failure.report, 1⟩
  | .error .waiting s => .waiting s.console.written
  | .error (.error e) s => .ended ⟨s.console.written, "Error: " ++ e.message ++ "\n", 1⟩
  | .error _ s => .ended ⟨s.console.written, "", brokenOff⟩

end LittleScheme.CommandLine
