import Munch.CommandLine.Answer

/-!
The outer layer on a system: it reads the files that its arguments name, logs events and prints the
answer.
-/

set_option autoImplicit false

namespace Munch.CommandLine

open Program (FileError Request)

/-- The number of a system error, which some calls give with its sign changed. -/
def errorNumber (code : UInt32) : UInt32 :=
  min code (0 - code)

def fileError : IO.Error → FileError
  | .noFileOrDirectory .. => .missing
  | .permissionDenied .. => .denied
  | .inappropriateType _ code _ => if errorNumber code = 20 then .notFolder else .folder
  | e@(.invalidArgument _ code _) =>
      if errorNumber code = 36 then .nameTooLong else .other (toString e)
  | e => .other (toString e)

def readFile (path : String) : IO (String × Except FileError ByteArray) := do
  try
    let bytes ← IO.FS.readBinFile path
    return (path, .ok bytes)
  catch e =>
    return (path, .error (fileError e))

def paths (r : Request) : List String :=
  match r.command with
  | .scan input => [r.rules, input]
  | _ => [r.rules]

end Munch.CommandLine

open Munch Munch.CommandLine in
def main (args : List String) : IO UInt32 := do
  let request := request? args
  let contents ← ((request.map paths).getD []).mapM readFile
  let files : Program.Files := fun path => (contents.lookup path).getD (.error .missing)
  let report := run files args
  let logged := (request.map (Program.journal files)).getD []
  (← IO.getStdout).putStr report.output
  logged.forM fun e => do (← IO.getStderr).putStrLn e.line
  (← IO.getStderr).putStr report.errors
  return report.exitCode.toUInt32
