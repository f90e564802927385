import Inlining.Runner

/-!
# The command line

Reads the files that the arguments name and prints the report, or the fault on standard error.
-/

namespace Inlining

def ArgumentFault.message : ArgumentFault → String
  | missingRequired => "a program and at least one method are required"
  | invalidValue => "an option has no value or an impossible one"
  | notANumber => "an option needs a number of 32 bits"
  | unknownArgument => "unexpected argument"
  | givenTwice => "an option is given twice"
  | unexpectedValue => "a flag takes no value"
  | helpRequested =>
    "usage: --program FILE --method NAME... [--config FILE] [--max-depth N]\n" ++
      "       [--max-total-size N] [--no-profiles] [--format text|json] [--verbose]"
  | versionRequested => "0.1.0"

/-- The contents of a file, if it can be read. -/
def contents? (file : String) : IO (Option String) := do
  try return some (← IO.FS.readFile file)
  catch _ => return none

/-- Runs the command line on the files that it names. -/
def runArguments (a : Arguments) : IO (Except RunFault String) := do
  let names := a.program :: a.config.toList
  let texts ← names.mapM fun name => do return (name, ← contents? name)
  let files (name : String) : Option String := (texts.find? (·.1 == name)).bind (·.2)
  return do (← Runner.load files a).render a.methods a.format

end Inlining

def main (args : List String) : IO UInt32 := do
  match Inlining.Arguments.ofWords args with
  | .error fault =>
    if fault = .helpRequested ∨ fault = .versionRequested then
      IO.println fault.message
      return 0
    else
      IO.eprintln fault.message
      return 2
  | .ok a =>
    match ← Inlining.runArguments a with
    | .ok output =>
      IO.print output
      return 0
    | .error fault =>
      IO.eprintln fault.message
      return 1
