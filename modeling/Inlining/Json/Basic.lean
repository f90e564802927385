import Inlining.Decimal.Shortest

/-!
# JSON values

A value keeps its numbers as numerals and its members in order, repeated keys included, so
that a reader of the value decides what a number may be and whether a repeated key is an
error. A string whose escapes leave a surrogate unpaired is well-formed JSON but denotes no
text; its contents are `none`.

Where JSON leaves a choice, it is made here as in the JSON package that the inliner links:
which texts are refused, how numbers are read and written, how deep values may nest and how
a text is laid out.
-/

namespace Inlining

/-- A JSON value. -/
inductive Json where
  | null
  | bool (b : Bool)
  | number (n : Numeral)
  | string (text : Option String)
  | array (items : List Json)
  | object (members : List (Option String × Json))
deriving Inhabited

namespace Json

/-- The value of a text. -/
def str (s : String) : Json := .string (some s)

/-- The value of a natural. -/
def nat (n : Nat) : Json := .number (.ofNat n)

/-- The value of an integer. -/
def int (n : Int) : Json := .number (.ofInt n)

/-- The object with the given members. -/
def obj (members : List (String × Json)) : Json :=
  .object (members.map fun (key, value) => (some key, value))

/-- The array of the images of a list. -/
def list {α : Type} (f : α → Json) (xs : List α) : Json := .array (xs.map f)

/-- Null for nothing. -/
def option {α : Type} (f : α → Json) : Option α → Json
  | none => .null
  | some x => f x

end Json

end Inlining
