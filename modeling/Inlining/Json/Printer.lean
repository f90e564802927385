import Inlining.Json.Basic

/-!
# Writing JSON

`compact` writes a value on one line without blanks, `pretty` one item a line, indented by two
blanks a level, with empty arrays and objects closed at once. Only quotes, backslashes and
control characters are escaped. Both layouts and the escapes are those of the JSON package
that the inliner links; its numerals are made in `Binary.toJson`.
-/

namespace Inlining.Json

/-- A character as it stands in a string. -/
def escaped (c : Char) : List Char :=
  match c with
  | '"' => ['\\', '"']
  | '\\' => ['\\', '\\']
  | '\x08' => ['\\', 'b']
  | '\x0c' => ['\\', 'f']
  | '\n' => ['\\', 'n']
  | '\r' => ['\\', 'r']
  | '\t' => ['\\', 't']
  | _ =>
    if c < ' ' then
      ['\\', 'u', '0', '0', Nat.digitChar (c.toNat / 16), Nat.digitChar (c.toNat % 16)]
    else [c]

/-- A text in quotes. -/
def quoted (s : String) : List Char := '"' :: s.toList.flatMap escaped ++ ['"']

mutual

/-- The value on one line. -/
def compact : Json → List Char
  | .null => ['n', 'u', 'l', 'l']
  | .bool true => ['t', 'r', 'u', 'e']
  | .bool false => ['f', 'a', 'l', 's', 'e']
  | .number n => n.toList
  | .string s => quoted (s.getD "")
  | .array [] => ['[', ']']
  | .array (x :: xs) => '[' :: compact x ++ compactItems xs
  | .object [] => ['\x7b', '\x7d']
  | .object ((key, x) :: ms) =>
    '\x7b' :: quoted (key.getD "") ++ ':' :: compact x ++ compactMembers ms

def compactItems : List Json → List Char
  | [] => [']']
  | x :: xs => ',' :: compact x ++ compactItems xs

def compactMembers : List (Option String × Json) → List Char
  | [] => ['\x7d']
  | (key, x) :: ms => ',' :: quoted (key.getD "") ++ ':' :: compact x ++ compactMembers ms

end

/-- A new line at an indentation level. -/
def newLine (level : Nat) : List Char := '\n' :: List.replicate (2 * level) ' '

mutual

/-- The value over several lines, its own lines indented from `level` on. -/
def pretty (level : Nat) : Json → List Char
  | .null => ['n', 'u', 'l', 'l']
  | .bool true => ['t', 'r', 'u', 'e']
  | .bool false => ['f', 'a', 'l', 's', 'e']
  | .number n => n.toList
  | .string s => quoted (s.getD "")
  | .array [] => ['[', ']']
  | .array (x :: xs) =>
    '[' :: newLine (level + 1) ++ pretty (level + 1) x ++ prettyItems level xs
  | .object [] => ['\x7b', '\x7d']
  | .object ((key, x) :: ms) =>
    '\x7b' :: newLine (level + 1) ++ quoted (key.getD "") ++ ':' :: ' ' ::
      pretty (level + 1) x ++ prettyMembers level ms

def prettyItems (level : Nat) : List Json → List Char
  | [] => newLine level ++ [']']
  | x :: xs => ',' :: newLine (level + 1) ++ pretty (level + 1) x ++ prettyItems level xs

def prettyMembers (level : Nat) : List (Option String × Json) → List Char
  | [] => newLine level ++ ['\x7d']
  | (key, x) :: ms =>
    ',' :: newLine (level + 1) ++ quoted (key.getD "") ++ ':' :: ' ' ::
      pretty (level + 1) x ++ prettyMembers level ms

end

/-- The value as a text on one line. -/
def compactText (x : Json) : String := String.ofList (compact x)

/-- The value as a text over several lines. -/
def prettyText (x : Json) : String := String.ofList (pretty 0 x)

end Inlining.Json
