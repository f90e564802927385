import Inlining.Json.Basic

/-!
# Reading JSON

Strict JSON: no comments, no trailing commas, no leading zeros, no raw control characters in
strings. The lexical parts are functions on the characters left to read that return what
follows; `value` puts them together, with as many steps as there are characters, which is
enough because every step takes one.

What is accepted is what the JSON package that the inliner links accepts. A number is only
spelled here; what it is read as is said by `Numeral.double?` and decided by the decoder.
-/

namespace Inlining.Json

/-- The characters allowed between tokens. -/
def isBlank (c : Char) : Bool := c == ' ' || c == '\n' || c == '\t' || c == '\r'

def skipBlank (cs : List Char) : List Char := cs.dropWhile isBlank

def hexDigit? (c : Char) : Option Nat :=
  if '0' ≤ c ∧ c ≤ '9' then some (c.toNat - '0'.toNat)
  else if 'a' ≤ c ∧ c ≤ 'f' then some (c.toNat - 'a'.toNat + 10)
  else if 'A' ≤ c ∧ c ≤ 'F' then some (c.toNat - 'A'.toNat + 10)
  else none

/-- The 16-bit unit that four hexadecimal digits stand for. -/
def unit? (a b c d : Char) : Option Nat := do
  let a ← hexDigit? a
  let b ← hexDigit? b
  let c ← hexDigit? c
  let d ← hexDigit? d
  return ((a * 16 + b) * 16 + c) * 16 + d

/-- The character that a backslash and one letter stand for. -/
def escape? : Char → Option Char
  | '"' => some '"'
  | '\\' => some '\\'
  | '/' => some '/'
  | 'b' => some '\x08'
  | 'f' => some '\x0c'
  | 'n' => some '\n'
  | 'r' => some '\r'
  | 't' => some '\t'
  | _ => none

/-- A character of a string, or a 16-bit unit that was written in hexadecimal. -/
inductive Piece where
  | char (c : Char)
  | unit (n : Nat)

/-- The pieces of a string up to its closing quote, and what follows the quote. -/
def stringPieces : List Char → Option (List Piece × List Char)
  | [] => none
  | '"' :: rest => some ([], rest)
  | '\\' :: 'u' :: a :: b :: c :: d :: rest => do
    let n ← unit? a b c d
    let (pieces, rest) ← stringPieces rest
    return (.unit n :: pieces, rest)
  | '\\' :: letter :: rest => do
    let c ← escape? letter
    let (pieces, rest) ← stringPieces rest
    return (.char c :: pieces, rest)
  | c :: rest =>
    if c < ' ' ∨ c = '\\' then none
    else do
      let (pieces, rest) ← stringPieces rest
      return (.char c :: pieces, rest)

def isLeadingSurrogate (n : Nat) : Bool := 0xD800 ≤ n && n ≤ 0xDBFF

def isTrailingSurrogate (n : Nat) : Bool := 0xDC00 ≤ n && n ≤ 0xDFFF

/-- The text of the pieces; `none` when a surrogate stands alone. -/
def pairSurrogates : List Piece → Option (List Char)
  | [] => some []
  | .char c :: rest => (pairSurrogates rest).map (c :: ·)
  | .unit hi :: .unit lo :: rest =>
    if isLeadingSurrogate hi then
      if isTrailingSurrogate lo then
        (pairSurrogates rest).map
          (Char.ofNat (0x10000 + (hi - 0xD800) * 0x400 + (lo - 0xDC00)) :: ·)
      else none
    else if isTrailingSurrogate hi then none
    else (pairSurrogates (.unit lo :: rest)).map (Char.ofNat hi :: ·)
  | .unit n :: rest =>
    if isLeadingSurrogate n || isTrailingSurrogate n then none
    else (pairSurrogates rest).map (Char.ofNat n :: ·)

/-- A string after its opening quote. -/
def string? (cs : List Char) : Option (Option String × List Char) := do
  let (pieces, rest) ← stringPieces cs
  return ((pairSurrogates pieces).map String.ofList, rest)

/-- A maximal run of at least one digit. -/
def digits? (cs : List Char) : Option (List Char × List Char) :=
  match cs.takeWhile Char.isDigit with
  | [] => none
  | ds => some (ds, cs.dropWhile Char.isDigit)

/-- The digits behind a point, none without a point. -/
def fraction? : List Char → Option (List Char × List Char)
  | '.' :: rest => digits? rest
  | cs => some ([], cs)

/-- The power of ten behind an `e`. -/
def power? (cs : List Char) : Option (Int × List Char) := do
  let (negative, cs) := match cs with
    | '-' :: rest => (true, rest)
    | '+' :: rest => (false, rest)
    | _ => (false, cs)
  let (ds, rest) ← digits? cs
  let n := Nat.ofDigitChars 10 ds 0
  return (if negative then -n else n, rest)

def exponent? (cs : List Char) : Option (Option Int × List Char) :=
  match cs with
  | 'e' :: rest => (power? rest).map fun (n, rest) => (some n, rest)
  | 'E' :: rest => (power? rest).map fun (n, rest) => (some n, rest)
  | _ => some (none, cs)

/-- A numeral; its first digit is zero only if it is the only digit before the point. -/
def numeral? (cs : List Char) : Option (Numeral × List Char) := do
  let (negative, cs) := match cs with
    | '-' :: rest => (true, rest)
    | _ => (false, cs)
  let (whole, cs) ← digits? cs
  if whole.head? = some '0' && 1 < whole.length then none
  else
    let (fraction, cs) ← fraction? cs
    let (exponent, cs) ← exponent? cs
    return (⟨negative, whole, fraction, exponent⟩, cs)

mutual

/-- A value and what follows it, within the given number of steps. -/
def value : Nat → List Char → Option (Json × List Char)
  | 0, _ => none
  | n + 1, cs =>
    match skipBlank cs with
    | 'n' :: 'u' :: 'l' :: 'l' :: rest => some (.null, rest)
    | 't' :: 'r' :: 'u' :: 'e' :: rest => some (.bool true, rest)
    | 'f' :: 'a' :: 'l' :: 's' :: 'e' :: rest => some (.bool false, rest)
    | '"' :: rest => (string? rest).map fun (s, rest) => (.string s, rest)
    | '[' :: rest =>
      match skipBlank rest with
      | ']' :: rest => some (.array [], rest)
      | rest => (items n rest).map fun (xs, rest) => (.array xs, rest)
    | '\x7b' :: rest =>
      match skipBlank rest with
      | '\x7d' :: rest => some (.object [], rest)
      | rest => (members n rest).map fun (ms, rest) => (.object ms, rest)
    | rest => (numeral? rest).map fun (x, rest) => (.number x, rest)

/-- The values of an array, from one of them to the closing bracket. -/
def items : Nat → List Char → Option (List Json × List Char)
  | 0, _ => none
  | n + 1, cs => do
    let (x, rest) ← value n cs
    match skipBlank rest with
    | ']' :: rest => return ([x], rest)
    | ',' :: rest =>
      let (xs, rest) ← items n rest
      return (x :: xs, rest)
    | _ => none

/-- The members of an object, from one of them to the closing brace. -/
def members : Nat → List Char → Option (List (Option String × Json) × List Char)
  | 0, _ => none
  | n + 1, cs => do
    let '"' :: rest := skipBlank cs | none
    let (key, rest) ← string? rest
    let ':' :: rest := skipBlank rest | none
    let (x, rest) ← value n rest
    match skipBlank rest with
    | '\x7d' :: rest => return ([(key, x)], rest)
    | ',' :: rest =>
      let (ms, rest) ← members n rest
      return ((key, x) :: ms, rest)
    | _ => none

end

/-- The value that a text holds, with nothing but blanks around it. -/
def parse? (text : String) : Option Json := do
  let cs := text.toList
  let (x, rest) ← value (2 * cs.length + 2) cs
  if rest.all isBlank then return x else none

end Inlining.Json
