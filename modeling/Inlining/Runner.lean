import Inlining.Arguments
import Inlining.Report.Json
import Inlining.Report.Text

/-!
# Running a command line

A run loads the program and the configuration that the arguments name, explores the named
methods one after the other within one compilation, and prints the report. Files are given as
a function from names to contents.
-/

namespace Inlining

/-- Why a run has no output. -/
inductive RunFault where
  | unreadable (file : String)
  | invalidConfiguration
  | description (fault : DescriptionFault)
  | step (fault : Fault)
  | unknownMethod (name : String)
deriving DecidableEq

def RunFault.message : RunFault → String
  | unreadable file => "could not read '" ++ file ++ "': No such file or directory (os error 2)"
  | invalidConfiguration => "invalid configuration"
  | description fault => fault.message
  | step fault => fault.message
  | unknownMethod name => "no method named '" ++ name ++ "'"

/-- What a run works on. -/
structure Runner where
  program : Program
  config : Configuration
  useProfiles : Bool

namespace Runner

/-- The contents of a file. -/
def readFile (files : String → Option String) (file : String) : Except RunFault String :=
  match files file with
  | some text => .ok text
  | none => .error (.unreadable file)

/-- Loads the program first, then the configuration, which the arguments may override. -/
def load (files : String → Option String) (a : Arguments) : Except RunFault Runner := do
  let program ← (Program.ofText (← readFile files a.program)).mapError .description
  let config ← match a.config with
    | none => pure Configuration.standard
    | some file =>
      match Configuration.ofText? (← readFile files file) with
      | some config => pure config
      | none => throw .invalidConfiguration
  return {
    program
    config := { config with
      depthLimit := (a.maxDepth.map UInt32.ofNat).getD config.depthLimit
      maxTotalSize := (a.maxTotalSize.map (Saturating.ofNat _)).getD config.maxTotalSize }
    useProfiles := !a.noProfiles }

variable (r : Runner)

def environment : Environment where
  program := r.program
  config := r.config
  advice := if r.useProfiles then .ofProgram r.program else .unprofiled

/-- Explores methods, given by name, and reports. All names are looked up first. -/
def explore (methods : List String) : Except RunFault Report := do
  let ids ← methods.mapM fun name =>
    match r.program.methodNamed? name with
    | some m => pure m
    | none => throw (.unknownMethod name)
  let run := ids.forM fun m => discard (Exploration.explore r.environment m)
  match run.run (.start r.config []) with
  | (.ok (), c) => return c.report r.program r.config
  | (.error fault, _) => throw (.step fault)

/-- Explores methods and prints the report. -/
def render (methods : List String) (format : OutputFormat) : Except RunFault String := do
  let report ← r.explore methods
  return match format with
    | .text => report.text
    | .json => report.jsonText

end Runner

end Inlining
