import FiniteState.Command.Answer

/-!
# The program

Writes the catalog, or a dataset for a target language, into a directory.
-/

namespace FiniteState

/-- How the program is used. -/
def usage : String :=
  "usage: export --out DIR\n" ++
  "       generate (--class CLASS --index INDEX | --fst FILE) --out DIR [--seed SEED]\n" ++
  "         [--short-min N] [--short-max N] [--long-min N] [--long-max N] [--train N]\n" ++
  "         [--dup-dev N] [--dup-test N] [--dev N] [--test N] [--long-test N]\n" ++
  "         [--adversarial N] [--retries N]"

/-- Reads a file as text. -/
def readTextFile (path : String) : IO (Except Error String) := do
  try
    return .ok (← IO.FS.readFile path)
  catch _ =>
    return .error (.file path)

/-- Makes a change to the files of the machine. -/
def makeChange : FileChange → IO Unit
  | .makeDirectory path => do
    try
      IO.FS.createDir path
    catch
      -- if this is a file, the next change in it fails
      | .alreadyExists .. => return ()
      | e => throw e
  | .write path text => IO.FS.writeFile path text
  | .move source target => IO.FS.rename source target

/-- Makes changes up to the first that fails. -/
def makeChanges : List FileChange → IO (Except Error Unit)
  | [] => return .ok ()
  | change :: rest => do
    try
      makeChange change
    catch _ =>
      return .error (.file change.path)
    makeChanges rest

/-- Answers a request by changing files. -/
def carryOut (request : Request) : IO (Except Error Unit) := do
  let input ← match request.input? with
    | some path => readTextFile path
    | none => pure (.ok "")
  match request.answer (fun _ => input) with
  | .ok changes => makeChanges changes
  | .error e => return .error e

/-- Runs the program on its arguments. -/
def runProgram (args : List String) : IO UInt32 := do
  match Request.ofArguments args with
  | .error .displayHelp => do
    IO.println usage
    return 0
  | .error _ => do
    IO.eprintln usage
    return 2
  | .ok request => do
    match ← carryOut request with
    | .ok () => return 0
    | .error e => do
      IO.eprintln e.message
      return 1

end FiniteState

def main (args : List String) : IO UInt32 := FiniteState.runProgram args
