import DocQuery.Command

/-! # The program

Reads the command line and the file that it names, and prints what comes of it. -/

open DocQuery Command

def readFile (name : String) : IO (Except FileFault String) := do
  try
    return .ok (← IO.FS.readFile name)
  catch
    | .noFileOrDirectory .. => return .error .notFound
    | e => return .error (.other e.toString)

def filesOf : Invocation → IO Files
  | .get g =>
    match g.settings.key g.file with
    | .ok key => do
      let content ← readFile key
      return fun _ => content
    | .error _ => return fun _ => .error .notFound
  | _ => return fun _ => .error .notFound

def main (words : List String) : IO UInt32 := do
  let invocation := Invocation.ofWords words
  let outcome := invocation.run (← filesOf invocation)
  (← IO.getStdout).putStr outcome.stdout
  (← IO.getStderr).putStr outcome.stderr
  return UInt32.ofNat outcome.exit
