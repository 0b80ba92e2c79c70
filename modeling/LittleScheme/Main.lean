import LittleScheme.CommandLine

/-!
# The program

Reads files and standard input and writes what the session has to say. Lines are read only when the
session waits for them; it is then run again on the longer input, and what it writes beyond the last
time is printed.
-/
namespace LittleScheme

/-- The environment variable that names the settings file. -/
def settingsVariable : String := "LITTLE_SCHEME_CONFIG"

/-- More steps than any session takes. -/
def mainFuel : Nat := 1000000000000000000

/-- The contents of a file, or why it cannot be read. -/
def readText (path : String) : IO (Except String String) := do
  try
    return .ok (← IO.FS.readFile path)
  catch e =>
    match e with
    | .noFileOrDirectory .. => return .error "No such file or directory (os error 2)"
    | e => return .error (toString e)

/-- The files a session may ask for. -/
def readFiles (paths : List String) : IO (List (String × Except String String)) :=
  paths.mapM fun path => do return (path, ← readText path)

/-- Print a text without the part that was printed before. -/
def printBeyond (printed : Nat) (text : String) : IO Nat := do
  let out ← IO.getStdout
  out.putStr (String.ofList (text.toList.drop printed))
  out.flush
  return text.length

/-- Run a session on the input so far, and again with a further line as long as it waits. -/
partial def converseWith (inv : CommandLine.Invocation) (input : String) (ended : Bool)
    (printed : Nat) : IO UInt32 := do
  match CommandLine.run inv { unread := input.toList, ended } mainFuel with
  | .ended report =>
      let _ ← printBeyond printed report.stdout
      (← IO.getStderr).putStr report.stderr
      return report.code.toUInt32
  | .waiting stdout =>
      let printed ← printBeyond printed stdout
      let line ← (← IO.getStdin).getLine
      converseWith inv (input ++ line) line.isEmpty printed

/-- Run the interpreter on the given arguments. -/
def runProgram (args : List String) : IO UInt32 := do
  let settingsFile ← IO.getEnv settingsVariable
  let files ← readFiles (args ++ settingsFile.toList)
  let missing := Except.error "No such file or directory (os error 2)"
  let inv : CommandLine.Invocation :=
    { args, settingsFile, read := fun path => (files.lookup path).getD missing }
  converseWith inv "" false 0

end LittleScheme

/-- Run the interpreter on the given arguments. -/
def main (args : List String) : IO UInt32 := LittleScheme.runProgram args
