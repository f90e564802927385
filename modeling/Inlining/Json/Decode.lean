import Inlining.Json.Basic

/-!
# Decoding JSON values

A decoder turns a value into a datum of the library or refuses it. It is told how many levels
of arrays and objects the value may still nest; `nestingLimit` is the number of levels of a
whole document, the limit of the JSON package that the inliner links. An object is decoded
through its `Fields`: a field may be required, have a default or be optional, a field that is
asked for may not occur twice, and members that nobody asks for are skipped whatever they
hold, unless a tag decides what is asked for (`Decoder.tagged`).
-/

namespace Inlining.Json

/-- Reads a value that nests at most the given number of levels. -/
abbrev Decoder (α : Type) := Nat → Json → Option α

/-- The levels of arrays and objects that a document may nest. -/
def nestingLimit : Nat := 127

/-- The members of an object, with the levels that their values may nest. -/
structure Fields where
  levels : Nat
  members : List (String × Json)

namespace Decoder

variable {α β : Type}

/-- An integer from `low` to `high`. -/
def intBetween (low high : Int) : Decoder Int
  | _, .number n => n.int?.filter fun i => low ≤ i && i ≤ high
  | _, _ => none

/-- A natural up to `high`. -/
def natUpTo (high : Nat) : Decoder Nat := fun n x => (intBetween 0 high n x).map Int.toNat

/-- A signed integer of 32 bits. -/
def int32 : Decoder Int := intBetween (-2147483648) 2147483647

/-- A signed integer of 64 bits. -/
def int64 : Decoder Int := intBetween (-9223372036854775808) 9223372036854775807

/-- A natural of 32 bits. -/
def nat32 : Decoder Nat := natUpTo 4294967295

/-- A natural of 64 bits. -/
def nat64 : Decoder Nat := natUpTo 18446744073709551615

def bool : Decoder Bool
  | _, .bool b => some b
  | _, _ => none

def string : Decoder String
  | _, .string text => text
  | _, _ => none

def single : Decoder Single
  | _, .number n => n.single?
  | _, _ => none

def double : Decoder Double
  | _, .number n => n.double?
  | _, _ => none

/-- One of the things that have a name, by its name. -/
def named (name : α → String) (all : List α) : Decoder α
  | _, .string (some text) => all.find? (name · == text)
  | _, _ => none

/-- Null for nothing. -/
def option (decode : Decoder α) : Decoder (Option α)
  | _, .null => some none
  | n, x => (decode n x).map some

def list (decode : Decoder α) : Decoder (List α)
  | n + 1, .array xs => xs.mapM (decode n)
  | _, _ => none

/-- An array of exactly two values. -/
def pair (first : Decoder α) (second : Decoder β) : Decoder (α × β)
  | n + 1, .array [x, y] => do return (← first n x, ← second n y)
  | _, _ => none

/-- An object, every key of which is a text. -/
def fields : Decoder Fields
  | n + 1, .object members => do
    let members ← members.mapM fun (key, x) => key.map (·, x)
    return ⟨n, members⟩
  | _, _ => none

/-- An object, decoded through its fields. -/
def object (decode : Fields → Option α) : Decoder α := fun n x => (fields n x).bind decode

def map (f : α → β) (decode : Decoder α) : Decoder β := fun n x => (decode n x).map f

end Decoder

namespace Fields

variable {α : Type} (f : Fields)

/-- The values of a field. -/
def values (key : String) : List Json := (f.members.filter (·.1 == key)).map (·.2)

/-- A field that must be there. -/
def required (key : String) (decode : Decoder α) : Option α :=
  match f.values key with
  | [x] => decode f.levels x
  | _ => none

/-- A field that has the given value when it is missing. -/
def withDefault (key : String) (decode : Decoder α) (default : α) : Option α :=
  match f.values key with
  | [] => some default
  | [x] => decode f.levels x
  | _ => none

/-- A field that may be missing or null. -/
def optional (key : String) (decode : Decoder α) : Option (Option α) :=
  f.withDefault key (Decoder.option decode) none

end Fields

/-- The value can be kept until it is known what it is read as: its numbers are in range, its
strings are texts, and it nests at most the given number of levels. -/
def isPlain : Nat → Json → Bool
  | _, .null | _, .bool _ => true
  | _, .number n => n.double?.isSome
  | _, .string text => text.isSome
  | n + 1, .array xs => xs.all (isPlain n)
  | n + 1, .object members => members.all fun (key, x) => key.isSome && isPlain n x
  | 0, _ => false

/-- An object, one field of which says what it describes. That field may come last, so all
fields are kept until it is found. -/
def Decoder.tagged {α : Type} (key : String) (decode : String → Fields → Option α) : Decoder α :=
  fun n x => do
    if !x.isPlain n then none
    else
      let f ← Decoder.fields n x
      decode (← f.required key .string) f

/-- Decodes a whole document. -/
def decode? {α : Type} (decode : Decoder α) (x : Json) : Option α := decode nestingLimit x

end Inlining.Json
