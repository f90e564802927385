/-!
# Command-line arguments

Options are written long, `--program p.json` or `--program=p.json`, or short, `-p p.json`,
`-pp.json` or `-p=p.json`; short flags may share one dash. A word that does not start with a
dash is the value of the option before it. An option that waits for its value, or has a value
that was not looked at yet, is settled when the next option is met, so a word that fits
nothing is reported first.
-/

namespace Inlining

/-- How a report is printed. -/
inductive OutputFormat where
  | text
  | json
deriving DecidableEq, Repr

namespace OutputFormat

def all : List OutputFormat := [text, json]

def name : OutputFormat → String
  | text => "text"
  | json => "json"

end OutputFormat

/-- What the command line asks for. -/
structure Arguments where
  program : String
  config : Option String := none
  methods : List String
  maxDepth : Option Nat := none
  maxTotalSize : Option Nat := none
  noProfiles : Bool := false
  format : OutputFormat := .text
  /-- how often more output was asked for -/
  verbose : Nat := 0
deriving DecidableEq, Repr

/-- Why there are no arguments to work with. -/
inductive ArgumentFault where
  | missingRequired
  /-- a value is missing or not one of those that are possible -/
  | invalidValue
  /-- a value is no number of the option's range -/
  | notANumber
  | unknownArgument
  /-- an option that may be given once is given again -/
  | givenTwice
  /-- a flag is given a value -/
  | unexpectedValue
  | helpRequested
  | versionRequested
deriving DecidableEq, Repr

namespace Arguments

/-- An option with a value. -/
inductive ValueOption where
  | program
  | config
  | method
  | maxDepth
  | maxTotalSize
  | format
deriving DecidableEq, Repr

/-- An option without a value. -/
inductive Flag where
  | noProfiles
  | verbose
  | help
  | version
deriving DecidableEq, Repr

/-- The option of a long name. -/
def longOption? : String → Option (ValueOption ⊕ Flag)
  | "program" => some (.inl .program)
  | "config" => some (.inl .config)
  | "method" => some (.inl .method)
  | "max-depth" => some (.inl .maxDepth)
  | "max-total-size" => some (.inl .maxTotalSize)
  | "format" => some (.inl .format)
  | "no-profiles" => some (.inr .noProfiles)
  | "verbose" => some (.inr .verbose)
  | "help" => some (.inr .help)
  | "version" => some (.inr .version)
  | _ => none

/-- The option of a letter. -/
def shortOption? : Char → Option (ValueOption ⊕ Flag)
  | 'p' => some (.inl .program)
  | 'c' => some (.inl .config)
  | 'm' => some (.inl .method)
  | 'f' => some (.inl .format)
  | 'v' => some (.inr .verbose)
  | 'h' => some (.inr .help)
  | 'V' => some (.inr .version)
  | _ => none

/-- What was read so far. -/
structure Partial where
  program : Option String := none
  config : Option String := none
  methods : List String := []
  maxDepth : Option Nat := none
  maxTotalSize : Option Nat := none
  noProfiles : Bool := false
  format : Option OutputFormat := none
  verbose : Nat := 0
  /-- an option that is not settled yet, with its value if there is one -/
  pending : Option (ValueOption × Option String) := none

/-- The number of 32 bits that a text names; a sign may stand in front. -/
def number? (text : String) : Option Nat :=
  let (negative, digits) := match text.toList with
    | '-' :: rest => (true, rest)
    | '+' :: rest => (false, rest)
    | cs => (false, cs)
  if digits.isEmpty || !digits.all Char.isDigit then none
  else
    let n := Nat.ofDigitChars 10 digits 0
    if n ≤ 4294967295 ∧ (negative → n = 0) then some n else none

/-- The value of an option that may be given once. -/
def once {α : Type} (before : Option α) (fault : ArgumentFault) (value : Option α) :
    Except ArgumentFault (Option α) :=
  if before.isSome then .error .givenTwice
  else match value with
    | some x => .ok (some x)
    | none => .error fault

/-- A file name; it has at least one character. -/
def fileName? (value : String) : Option String := if value.isEmpty then none else some value

namespace Partial

variable (a : Partial)

/-- Takes the value of an option. -/
def accept (value : String) : ValueOption → Except ArgumentFault Partial
  | .program => do return { a with program := ← once a.program .invalidValue (fileName? value) }
  | .config => do return { a with config := ← once a.config .invalidValue (fileName? value) }
  | .method => .ok { a with methods := a.methods ++ [value] }
  | .maxDepth => do return { a with maxDepth := ← once a.maxDepth .notANumber (number? value) }
  | .maxTotalSize => do
    return { a with maxTotalSize := ← once a.maxTotalSize .notANumber (number? value) }
  | .format => do
    let format := OutputFormat.all.find? (·.name == value)
    return { a with format := ← once a.format .invalidValue format }

/-- Settles the pending option. -/
def settle : Except ArgumentFault Partial :=
  match a.pending with
  | none => .ok a
  | some (_, none) => .error .invalidValue
  | some (option, some value) => accept { a with pending := none } value option

/-- Meets an option, with a value if one is attached to it. -/
def meet (option : ValueOption) (attached : Option String) : Except ArgumentFault Partial := do
  let a ← a.settle
  match attached with
  | some value => a.accept value option
  | none => return { a with pending := some (option, none) }

/-- Meets a flag. -/
def raise (flag : Flag) : Except ArgumentFault Partial := do
  let a ← a.settle
  match flag with
  | .noProfiles =>
    if a.noProfiles then .error .givenTwice else return { a with noProfiles := true }
  | .verbose => return { a with verbose := min (a.verbose + 1) 255 }
  | .help => .error .helpRequested
  | .version => .error .versionRequested

/-- Reads the letters behind one dash. -/
def letters : Partial → List Char → Except ArgumentFault Partial
  | a, [] => .ok a
  | a, c :: rest =>
    match shortOption? c with
    | none => .error .unknownArgument
    | some (.inr flag) => do letters (← a.raise flag) rest
    | some (.inl option) =>
      match rest with
      | [] => a.meet option none
      | '=' :: value => a.meet option (some (String.ofList value))
      | value => a.meet option (some (String.ofList value))

/-- Reads the word behind two dashes. -/
def long (word : List Char) : Except ArgumentFault Partial :=
  let name := String.ofList (word.takeWhile (· != '='))
  let attached := match word.dropWhile (· != '=') with
    | [] => none
    | _ :: value => some (String.ofList value)
  match longOption? name, attached with
  | none, _ => .error .unknownArgument
  | some (.inl option), _ => a.meet option attached
  | some (.inr flag), none => a.raise flag
  | some (.inr _), some _ => .error .unexpectedValue

/-- Reads all words. Behind a lone double dash no word fits anything. -/
def words : Partial → List String → Except ArgumentFault Partial
  | a, [] => a.settle
  | a, word :: rest =>
    match word.toList with
    | ['-', '-'] => if rest.isEmpty then a.settle else .error .unknownArgument
    | '-' :: '-' :: name => do words (← a.long name) rest
    | '-' :: c :: cs => do words (← a.letters (c :: cs)) rest
    | _ =>
      match a.pending with
      | some (option, none) => words { a with pending := some (option, some word) } rest
      | _ => .error .unknownArgument

/-- The arguments, if all that must be there is. -/
def finish : Except ArgumentFault Arguments :=
  match a.program, a.methods with
  | some program, _ :: _ => .ok
    { program
      config := a.config
      methods := a.methods
      maxDepth := a.maxDepth
      maxTotalSize := a.maxTotalSize
      noProfiles := a.noProfiles
      format := a.format.getD .text
      verbose := a.verbose }
  | _, _ => .error .missingRequired

end Partial

/-- Reads the words of a command line. -/
def ofWords (words : List String) : Except ArgumentFault Arguments := do
  (← Partial.words {} words).finish

/-- The part of the log that is shown by default. -/
def logDirective (a : Arguments) : String :=
  match a.verbose with
  | 0 => "warn"
  | 1 => "inliner=debug"
  | _ => "inliner=trace"

end Arguments

end Inlining
