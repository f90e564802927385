import Mathlib
import Inlining.Json.Printer
import Inlining.Json.Reader

/-!
# Reading what was written

Both ways of writing a value are one, with other blanks between the tokens (`padded`). The reader skips
blanks, so what it reads from such a text is the value (`Written.reads`): a numeral ends where no digit,
point or exponent follows, and the pieces of an escaped text are its characters (`string?_quoted`). Every
token takes a character of the text, so the steps never run out.
-/

namespace Inlining

namespace Json

/-! ## Strings -/

/-- What the reader takes a character of an escaped text for. -/
def piece (c : Char) : Piece :=
  if c ∈ ['\x08', '\x0c', '\n', '\r', '\t'] then .char c
  else if c < ' ' then .unit c.toNat
  else .char c

theorem hexDigit?_digitChar : ∀ n < 16, hexDigit? (Nat.digitChar n) = some n := by decide

theorem unit?_digits {n : Nat} (small : n < 32) :
    unit? '0' '0' (Nat.digitChar (n / 16)) (Nat.digitChar (n % 16)) = some n := by
  have zero : hexDigit? '0' = some 0 := by decide
  have high := hexDigit?_digitChar (n / 16) (by omega)
  have low := hexDigit?_digitChar (n % 16) (Nat.mod_lt _ (by decide))
  have parts : n / 16 * 16 + n % 16 = n := Nat.div_add_mod' n 16
  simp [unit?, zero, high, low, parts]

theorem toNat_lt_of_lt_blank {c : Char} (h : c < ' ') : c.toNat < 32 := h

/-- An escaped character is read as one piece. -/
theorem stringPieces_escaped (c : Char) (rest : List Char) :
    stringPieces (escaped c ++ rest) = (stringPieces rest).map fun p => (piece c :: p.1, p.2) := by
  unfold escaped
  split
  case h_8 noQuote noBackslash h₁ h₂ h₃ h₄ h₅ =>
    have apart : c ∉ ['\x08', '\x0c', '\n', '\r', '\t'] := by
      simp only [List.mem_cons, List.not_mem_nil, or_false, not_or]
      exact ⟨h₁, h₂, h₃, h₄, h₅⟩
    rw [piece, if_neg apart]
    split
    next control =>
      rw [List.cons_append, List.cons_append, List.cons_append, List.cons_append, List.cons_append,
        List.cons_append, List.nil_append, stringPieces, unit?_digits (toNat_lt_of_lt_blank control)]
      cases stringPieces rest <;> rfl
    next printed =>
      have whole : ¬ (c < ' ' ∨ c = '\\') := not_or.2 ⟨printed, noBackslash⟩
      rw [List.cons_append, List.nil_append, stringPieces.eq_5 _ _ noQuote
        (fun _ _ _ _ _ same _ => noBackslash same) (fun _ _ same _ => noBackslash same), if_neg whole]
      cases stringPieces rest <;> rfl
  all_goals
    rw [List.cons_append, List.cons_append, List.nil_append,
      stringPieces.eq_4 _ _ (fun _ _ _ _ _ other _ => absurd other (by decide))]
    cases stringPieces rest <;> rfl

theorem stringPieces_flatMap (cs rest : List Char) :
    stringPieces (cs.flatMap escaped ++ '"' :: rest) = some (cs.map piece, rest) := by
  induction cs with
  | nil => rfl
  | cons c cs ih =>
    rw [List.flatMap_cons, List.append_assoc, stringPieces_escaped, ih]
    rfl

/-- A unit that is no surrogate is a character, whatever follows it. -/
theorem pairSurrogates_unit {n : Nat} (low : n < 0xD800) (pieces : List Piece) :
    pairSurrogates (.unit n :: pieces) = (pairSurrogates pieces).map (Char.ofNat n :: ·) := by
  have notLeading : isLeadingSurrogate n = false := by simp [isLeadingSurrogate]; omega
  have notTrailing : isTrailingSurrogate n = false := by simp [isTrailingSurrogate]; omega
  match pieces with
  | [] | .char _ :: _ | .unit _ :: _ => simp [pairSurrogates, notLeading, notTrailing]

theorem pairSurrogates_piece (c : Char) (pieces : List Piece) :
    pairSurrogates (piece c :: pieces) = (pairSurrogates pieces).map (c :: ·) := by
  unfold piece
  split
  · rfl
  · split
    next control =>
      have small := toNat_lt_of_lt_blank control
      rw [pairSurrogates_unit (by omega), Char.ofNat_toNat]
    next => rfl

theorem pairSurrogates_map (cs : List Char) : pairSurrogates (cs.map piece) = some cs := by
  induction cs with
  | nil => rfl
  | cons c cs ih => rw [List.map_cons, pairSurrogates_piece, ih]; rfl

/-- A text in quotes is read back. -/
theorem string?_quoted (s : String) (rest : List Char) :
    string? (s.toList.flatMap escaped ++ '"' :: rest) = some (some s, rest) := by
  simp [string?, stringPieces_flatMap, pairSurrogates_map]

/-! ## Numerals -/

/-- A text that does not go on as a numeral. -/
def Ends (cs : List Char) : Prop := ∀ c, cs.head? = some c → ¬ c.isDigit ∧ c ≠ '.' ∧ c ≠ 'e' ∧ c ≠ 'E'

end Json

/-- The numeral is one of JSON: there are digits before the point, the first of which is not zero if there
are others. -/
structure Numeral.Spelled (x : Numeral) : Prop where
  some : x.whole ≠ []
  whole : ∀ c ∈ x.whole, c.isDigit
  fraction : ∀ c ∈ x.fraction, c.isDigit
  first : x.whole.head? = Option.some '0' → x.whole.length = 1

namespace Json

theorem takeWhile_digits {ds rest : List Char} (digits : ∀ c ∈ ds, c.isDigit)
    (stop : ∀ c, rest.head? = some c → ¬ c.isDigit) :
    (ds ++ rest).takeWhile Char.isDigit = ds ∧ (ds ++ rest).dropWhile Char.isDigit = rest := by
  rw [List.takeWhile_append_of_pos digits, List.dropWhile_append_of_pos digits]
  cases rest with
  | nil => simp
  | cons c cs => simp [stop c rfl]

theorem digits?_append {ds rest : List Char} (some : ds ≠ []) (digits : ∀ c ∈ ds, c.isDigit)
    (stop : ∀ c, rest.head? = Option.some c → ¬ c.isDigit) : digits? (ds ++ rest) = Option.some (ds, rest) := by
  have parts := takeWhile_digits digits stop
  unfold digits?
  rw [parts.1, parts.2]
  cases ds with
  | nil => exact absurd rfl some
  | cons => rfl

theorem Ends.notDigit {rest : List Char} (ends : Ends rest) (c : Char) (h : rest.head? = some c) : ¬ c.isDigit :=
  (ends c h).1

/-- The digits behind the point as they stand in a text. -/
def fractionText (ds : List Char) : List Char := if ds.isEmpty then [] else '.' :: ds

theorem fraction?_append {ds rest : List Char} (digits : ∀ c ∈ ds, c.isDigit)
    (stop : ∀ c, rest.head? = some c → ¬ c.isDigit ∧ c ≠ '.') :
    fraction? (fractionText ds ++ rest) = some (ds, rest) := by
  cases ds with
  | nil =>
    match rest, stop with
    | [], _ => rfl
    | c :: cs, stop =>
      have noPoint := (stop c rfl).2
      simp [fractionText, fraction?, noPoint]
  | cons d ds => exact digits?_append (List.cons_ne_nil d ds) digits fun c h => (stop c h).1

/-- The exponent as it stands in a text. -/
def exponentText : Option Int → List Char
  | none => []
  | some e => 'e' :: (if e < 0 then '-' else '+') :: Nat.toDigits 10 e.natAbs

theorem exponent?_append (e : Option Int) {rest : List Char} (ends : Ends rest) :
    exponent? (exponentText e ++ rest) = some (e, rest) := by
  cases e with
  | none =>
    match rest, ends with
    | [], _ => rfl
    | c :: cs, ends =>
      obtain ⟨-, -, small, big⟩ := ends c rfl
      simp [exponentText, exponent?, small, big]
  | some e =>
    have digits : digits? (Nat.toDigits 10 e.natAbs ++ rest) = some (Nat.toDigits 10 e.natAbs, rest) :=
      digits?_append Nat.toDigits_ne_nil (fun c => Nat.isDigit_of_mem_toDigits (by decide) (by decide))
        ends.notDigit
    have value : Nat.ofDigitChars 10 (Nat.toDigits 10 e.natAbs) 0 = e.natAbs :=
      Nat.ofDigitChars_toDigits (by decide) (by decide)
    rcases Int.lt_or_le e 0 with negative | positive
    · simp only [exponentText, negative, if_true, List.cons_append, exponent?, power?, digits]
      simp [value, abs_of_neg negative]
    · simp only [exponentText, Int.not_lt.2 positive, if_false, List.cons_append, exponent?, power?, digits]
      simp [value, abs_of_nonneg positive]

theorem head_exponentText {e : Option Int} {rest : List Char} (ends : Ends rest) (c : Char)
    (h : (exponentText e ++ rest).head? = some c) : ¬ c.isDigit ∧ c ≠ '.' := by
  cases e with
  | none => exact ⟨(ends c h).1, (ends c h).2.1⟩
  | some e =>
    obtain rfl : 'e' = c := Option.some.inj h
    decide

/-- A numeral is read back where it ends. -/
theorem numeral?_toList {x : Numeral} (spelled : x.Spelled) {rest : List Char} (ends : Ends rest) :
    numeral? (x.toList ++ rest) = some (x, rest) := by
  obtain ⟨negative, whole, fraction, exponent⟩ := x
  obtain ⟨some, wholeDigits, fractionDigits, first⟩ := spelled
  dsimp only at some wholeDigits fractionDigits first
  have text : (Numeral.mk negative whole fraction exponent).toList ++ rest =
      (if negative then ['-'] else []) ++ (whole ++ (fractionText fraction ++ (exponentText exponent ++ rest))) := by
    simp only [Numeral.toList, List.append_assoc]
    rfl
  have exponentRead := exponent?_append exponent ends
  have afterFraction := head_exponentText (e := exponent) ends
  generalize exponentText exponent ++ rest = cs at *
  have fractionRead := fraction?_append fractionDigits afterFraction
  have afterWhole (c : Char) (h : (fractionText fraction ++ cs).head? = Option.some c) : ¬ c.isDigit := by
    cases fraction with
    | nil => exact (afterFraction c h).1
    | cons d ds =>
      obtain rfl : '.' = c := Option.some.inj h
      decide
  generalize fractionText fraction ++ cs = cs' at *
  have wholeRead := digits?_append some wholeDigits afterWhole
  rw [text]
  cases negative with
  | true =>
    have noSuperfluous : ¬ (whole.head? = Option.some '0' ∧ 1 < whole.length) := fun h => by
      have := first h.1
      omega
    generalize whole ++ cs' = cs at *
    simp [numeral?, wholeRead, fractionRead, exponentRead, noSuperfluous]
  | false =>
    obtain ⟨d, ds, rfl⟩ := List.exists_cons_of_ne_nil some
    have digit : d ≠ '-' := by
      rintro rfl
      exact absurd (wholeDigits '-' (List.mem_cons_self ..)) (by decide)
    rw [List.cons_append] at wholeRead
    simp only [Bool.false_eq_true, if_false, List.nil_append, List.cons_append]
    generalize ds ++ cs' = cs at *
    simpa [numeral?, digit, wholeRead, fractionRead, exponentRead] using first

/-! ## Values -/

mutual

/-- The value with blanks between the tokens: those of a line before each item and a gap behind each colon. -/
def padded (line : Nat → List Char) (gap : List Char) (level : Nat) : Json → List Char
  | .null => ['n', 'u', 'l', 'l']
  | .bool true => ['t', 'r', 'u', 'e']
  | .bool false => ['f', 'a', 'l', 's', 'e']
  | .number n => n.toList
  | .string s => quoted (s.getD "")
  | .array [] => ['[', ']']
  | .array (x :: xs) =>
    '[' :: line (level + 1) ++ padded line gap (level + 1) x ++ paddedItems line gap level xs
  | .object [] => ['\x7b', '\x7d']
  | .object ((key, x) :: ms) =>
    '\x7b' :: line (level + 1) ++ quoted (key.getD "") ++ ':' :: gap ++
      padded line gap (level + 1) x ++ paddedMembers line gap level ms

def paddedItems (line : Nat → List Char) (gap : List Char) (level : Nat) : List Json → List Char
  | [] => line level ++ [']']
  | x :: xs =>
    ',' :: line (level + 1) ++ padded line gap (level + 1) x ++ paddedItems line gap level xs

def paddedMembers (line : Nat → List Char) (gap : List Char) (level : Nat) :
    List (Option String × Json) → List Char
  | [] => line level ++ ['\x7d']
  | (key, x) :: ms =>
    ',' :: line (level + 1) ++ quoted (key.getD "") ++ ':' :: gap ++
      padded line gap (level + 1) x ++ paddedMembers line gap level ms

end

mutual

theorem compact_eq (level : Nat) : ∀ x, compact x = padded (fun _ => []) [] level x
  | .null | .bool true | .bool false | .number _ | .string _ | .array [] | .object [] => by
    simp only [compact, padded]
  | .array (x :: xs) => by
    rw [compact, padded, compact_eq (level + 1) x, compactItems_eq level xs]
    rfl
  | .object ((key, x) :: ms) => by
    rw [compact, padded, compact_eq (level + 1) x, compactMembers_eq level ms]
    simp

theorem compactItems_eq (level : Nat) : ∀ xs, compactItems xs = paddedItems (fun _ => []) [] level xs
  | [] => by rw [compactItems, paddedItems]; rfl
  | x :: xs => by
    rw [compactItems, paddedItems, compact_eq (level + 1) x, compactItems_eq level xs]
    rfl

theorem compactMembers_eq (level : Nat) : ∀ ms, compactMembers ms = paddedMembers (fun _ => []) [] level ms
  | [] => by rw [compactMembers, paddedMembers]; rfl
  | (key, x) :: ms => by
    rw [compactMembers, paddedMembers, compact_eq (level + 1) x, compactMembers_eq level ms]
    simp

end

mutual

theorem pretty_eq (level : Nat) : ∀ x, pretty level x = padded newLine [' '] level x
  | .null | .bool true | .bool false | .number _ | .string _ | .array [] | .object [] => by
    simp only [pretty, padded]
  | .array (x :: xs) => by
    rw [pretty, padded, pretty_eq (level + 1) x, prettyItems_eq level xs]
  | .object ((key, x) :: ms) => by
    rw [pretty, padded, pretty_eq (level + 1) x, prettyMembers_eq level ms]
    simp

theorem prettyItems_eq (level : Nat) : ∀ xs, prettyItems level xs = paddedItems newLine [' '] level xs
  | [] => by rw [prettyItems, paddedItems]
  | x :: xs => by
    rw [prettyItems, paddedItems, pretty_eq (level + 1) x, prettyItems_eq level xs]

theorem prettyMembers_eq (level : Nat) :
    ∀ ms, prettyMembers level ms = paddedMembers newLine [' '] level ms
  | [] => by rw [prettyMembers, paddedMembers]
  | (key, x) :: ms => by
    rw [prettyMembers, paddedMembers, pretty_eq (level + 1) x, prettyMembers_eq level ms]
    simp

end

/-- The value has a text of its own: its numerals are numerals of JSON and its strings are texts. -/
inductive Written : Json → Prop where
  | null : Written .null
  | bool (b : Bool) : Written (.bool b)
  | number {n : Numeral} (spelled : n.Spelled) : Written (.number n)
  | string (s : String) : Written (.string (some s))
  | array {xs : List Json} (items : ∀ x ∈ xs, Written x) : Written (.array xs)
  | object {ms : List (Option String × Json)} (keys : ∀ m ∈ ms, m.1.isSome)
      (values : ∀ m ∈ ms, Written m.2) : Written (.object ms)

/-- There are only blanks. -/
def Blank (pad : List Char) : Prop := ∀ c ∈ pad, isBlank c

theorem skipBlank_append {pad : List Char} (blank : Blank pad) (rest : List Char) :
    skipBlank (pad ++ rest) = skipBlank rest :=
  List.dropWhile_append_of_pos blank

theorem skipBlank_cons {c : Char} (token : isBlank c = false) (rest : List Char) :
    skipBlank (c :: rest) = c :: rest :=
  List.dropWhile_cons_of_neg (by simp [token])

/-- Blanks before a value do not matter. -/
theorem value_append {pad : List Char} (blank : Blank pad) (n : Nat) (cs : List Char) :
    value n (pad ++ cs) = value n cs := by
  cases n with
  | zero => rw [value, value]
  | succ n => rw [value, value, skipBlank_append blank]

theorem items_append {pad : List Char} (blank : Blank pad) (n : Nat) (cs : List Char) :
    items n (pad ++ cs) = items n cs := by
  cases n with
  | zero => rw [items, items]
  | succ n => rw [items, items, value_append blank]

theorem members_append {pad : List Char} (blank : Blank pad) (n : Nat) (cs : List Char) :
    members n (pad ++ cs) = members n cs := by
  cases n with
  | zero => rw [members, members]
  | succ n => rw [members, members, skipBlank_append blank]

theorem items_last {pad cs rest : List Char} {x : Json} {n : Nat} (blank : Blank pad)
    (first : value n cs = some (x, pad ++ ']' :: rest)) : items (n + 1) cs = some ([x], rest) := by
  rw [items, first]
  simp [skipBlank_append blank, skipBlank_cons (show isBlank ']' = false by decide)]

theorem items_next {pad cs cs' rest : List Char} {x : Json} {xs : List Json} {n : Nat} (blank : Blank pad)
    (first : value n cs = some (x, ',' :: (pad ++ cs'))) (others : items n cs' = some (xs, rest)) :
    items (n + 1) cs = some (x :: xs, rest) := by
  rw [items, first]
  simp [skipBlank_cons (show isBlank ',' = false by decide), items_append blank, others]

theorem members_last (key : String) {gap pad cs rest : List Char} {x : Json} {n : Nat} (gaps : Blank gap)
    (blank : Blank pad) (first : value n cs = some (x, pad ++ '\x7d' :: rest)) :
    members (n + 1) (quoted key ++ ':' :: (gap ++ cs)) = some ([(some key, x)], rest) := by
  rw [members]
  simp [quoted, skipBlank_cons (show isBlank '"' = false by decide), string?_quoted,
    skipBlank_cons (show isBlank ':' = false by decide), value_append gaps, first,
    skipBlank_append blank, skipBlank_cons (show isBlank '\x7d' = false by decide)]

theorem members_next (key : String) {gap pad cs cs' rest : List Char} {x : Json}
    {ms : List (Option String × Json)} {n : Nat} (gaps : Blank gap) (blank : Blank pad)
    (first : value n cs = some (x, ',' :: (pad ++ cs'))) (others : members n cs' = some (ms, rest)) :
    members (n + 1) (quoted key ++ ':' :: (gap ++ cs)) = some ((some key, x) :: ms, rest) := by
  rw [members]
  simp [quoted, skipBlank_cons (show isBlank '"' = false by decide), string?_quoted,
    skipBlank_cons (show isBlank ':' = false by decide), value_append gaps, first,
    skipBlank_cons (show isBlank ',' = false by decide), members_append blank, others]

theorem not_isDigit_of_isBlank {c : Char} (h : isBlank c) : ¬ c.isDigit ∧ c ≠ '.' ∧ c ≠ 'e' ∧ c ≠ 'E' := by
  simp only [isBlank, Bool.or_eq_true, beq_iff_eq] at h
  rcases h with ((rfl | rfl) | rfl) | rfl <;> decide

/-- A numeral ends before blanks and a token that closes or separates. -/
theorem ends_append_cons {pad : List Char} (blank : Blank pad) {c : Char}
    (token : ¬ c.isDigit ∧ c ≠ '.' ∧ c ≠ 'e' ∧ c ≠ 'E') (rest : List Char) : Ends (pad ++ c :: rest) := by
  cases pad with
  | nil =>
    rintro _ ⟨⟩
    exact token
  | cons b pad =>
    rintro _ ⟨⟩
    exact not_isDigit_of_isBlank (blank b (List.mem_cons_self ..))

theorem ends_comma (cs : List Char) : Ends (',' :: cs) := by
  rintro _ ⟨⟩
  decide

theorem length_paddedItems_pos (line : Nat → List Char) (gap : List Char) (level : Nat) (xs : List Json) :
    0 < (paddedItems line gap level xs).length := by
  cases xs <;> simp [paddedItems]

theorem length_paddedMembers_pos (line : Nat → List Char) (gap : List Char) (level : Nat)
    (ms : List (Option String × Json)) : 0 < (paddedMembers line gap level ms).length := by
  cases ms <;> simp [paddedMembers]

/-- The text is read as the value, whatever follows it, if there are as many steps as characters. -/
def ReadAs (text : List Char) (x : Json) : Prop :=
  ∀ (rest : List Char) (n : Nat), Ends rest → text.length ≤ n → value n (text ++ rest) = some (x, rest)

/-- The first character is a step that is there. -/
theorem readAs_of_succ {text : List Char} {x : Json} (some : text ≠ [])
    (read : ∀ rest n, Ends rest → text.length ≤ n + 1 →
      value (n + 1) (text ++ rest) = Option.some (x, rest)) : ReadAs text x := by
  intro rest n ends steps
  have := List.length_pos_of_ne_nil some
  obtain ⟨n, rfl⟩ : ∃ k, n = k + 1 := ⟨n - 1, by omega⟩
  exact read rest n ends steps

/-- A numeral starts with its sign or a digit. -/
theorem head_toList {x : Numeral} (spelled : x.Spelled) :
    ∃ c cs, x.toList = c :: cs ∧ (c = '-' ∨ c.isDigit = true) := by
  obtain ⟨negative, whole, fraction, exponent⟩ := x
  obtain ⟨d, ds, rfl⟩ := List.exists_cons_of_ne_nil spelled.some
  cases negative with
  | true => exact ⟨'-', _, rfl, .inl rfl⟩
  | false => exact ⟨d, _, rfl, .inr (spelled.whole d (List.mem_cons_self ..))⟩

theorem value_numeral {c : Char} (start : c = '-' ∨ c.isDigit = true) {cs rest : List Char} {x : Numeral} (n : Nat)
    (read : numeral? (c :: cs) = some (x, rest)) : value (n + 1) (c :: cs) = some (.number x, rest) := by
  have other (d : Char) (notStart : ¬ (d = '-' ∨ d.isDigit = true)) : c ≠ d := fun same => notStart (same ▸ start)
  have token : isBlank c = false := by
    simp [isBlank, other ' ' (by decide), other '\n' (by decide), other '\t' (by decide),
      other '\r' (by decide)]
  rw [value, skipBlank_cons token]
  split
  case h_7 => simp [read]
  all_goals
    rename_i same
    exact absurd (List.cons.inj same).1 (other _ (by decide))

/-- No value starts with a blank or a bracket that closes. -/
theorem Written.head_padded (line : Nat → List Char) (gap : List Char) (level : Nat) {x : Json}
    (written : Written x) :
    ∃ c cs, padded line gap level x = c :: cs ∧ isBlank c = false ∧ c ≠ ']' := by
  cases written with
  | null => exact ⟨_, _, rfl, by decide⟩
  | bool b => cases b <;> exact ⟨_, _, rfl, by decide⟩
  | number spelled =>
    obtain ⟨c, cs, text, start⟩ := head_toList spelled
    refine ⟨c, cs, by rw [padded, text], ?_⟩
    rcases start with rfl | digit
    · decide
    · have other (d : Char) (notDigit : ¬ d.isDigit) : c ≠ d := fun same => notDigit (same ▸ digit)
      refine ⟨?_, other ']' (by decide)⟩
      simp [isBlank, other ' ' (by decide), other '\n' (by decide), other '\t' (by decide),
        other '\r' (by decide)]
  | string s => exact ⟨_, _, rfl, by decide⟩
  | @array xs _ => cases xs <;> exact ⟨_, _, rfl, by decide⟩
  | @object ms _ _ => cases ms <;> exact ⟨_, _, rfl, by decide⟩

theorem value_items {pad cs rest : List Char} {c : Char} {xs : List Json} {n : Nat} (blank : Blank pad)
    (token : isBlank c = false) (first : c ≠ ']') (read : items n (c :: cs) = some (xs, rest)) :
    value (n + 1) ('[' :: (pad ++ c :: cs)) = some (.array xs, rest) := by
  rw [value, skipBlank_cons (by decide)]
  simp [skipBlank_append blank, skipBlank_cons token, first, read]

theorem value_members {pad cs rest : List Char} {ms : List (Option String × Json)} {n : Nat} (blank : Blank pad)
    (read : members n ('"' :: cs) = some (ms, rest)) :
    value (n + 1) ('\x7b' :: (pad ++ '"' :: cs)) = some (.object ms, rest) := by
  rw [value, skipBlank_cons (by decide)]
  simp [skipBlank_append blank, skipBlank_cons (show isBlank '"' = false by decide), read]

section Padded

variable {line : Nat → List Char} {gap : List Char} (lines : ∀ level, Blank (line level)) (gaps : Blank gap)
include lines

/-- The items of an array are read back if each is. -/
theorem items_padded (level : Nat) {x : Json} {xs : List Json}
    (reads : ∀ y ∈ x :: xs, ReadAs (padded line gap (level + 1) y) y) {n : Nat} (rest : List Char)
    (steps : (padded line gap (level + 1) x).length + (paddedItems line gap level xs).length ≤ n + 1) :
    items (n + 1) (padded line gap (level + 1) x ++ (paddedItems line gap level xs ++ rest)) =
      some (x :: xs, rest) := by
  induction xs generalizing x n with
  | nil =>
    simp only [paddedItems, List.length_append, List.length_singleton, List.append_assoc] at steps ⊢
    refine items_last (lines level) (reads x (List.mem_cons_self ..) _ n ?_ (by omega))
    exact ends_append_cons (lines level) (by decide) rest
  | cons y ys ih =>
    simp only [paddedItems, List.length_append, List.length_cons, List.append_assoc, List.cons_append] at steps ⊢
    have close := length_paddedItems_pos line gap level ys
    obtain ⟨n, rfl⟩ : ∃ k, n = k + 1 := ⟨n - 1, by omega⟩
    exact items_next (lines (level + 1)) (reads x (List.mem_cons_self ..) _ (n + 1) (ends_comma _) (by omega))
      (ih (fun z listed => reads z (List.mem_cons_of_mem _ listed)) (by omega))

include gaps

/-- The members of an object are read back if the value of each is. -/
theorem members_padded (level : Nat) (key : String) {x : Json} {ms : List (Option String × Json)}
    (first : ReadAs (padded line gap (level + 1) x) x) (keys : ∀ m ∈ ms, m.1.isSome)
    (reads : ∀ m ∈ ms, ReadAs (padded line gap (level + 1) m.2) m.2) {n : Nat} (rest : List Char)
    (steps : (quoted key).length + gap.length + (padded line gap (level + 1) x).length +
      (paddedMembers line gap level ms).length ≤ n + 1) :
    members (n + 1) (quoted key ++ ':' :: (gap ++ (padded line gap (level + 1) x ++
      (paddedMembers line gap level ms ++ rest)))) = some ((some key, x) :: ms, rest) := by
  induction ms generalizing key x n with
  | nil =>
    simp only [paddedMembers, List.length_append, List.length_singleton, List.append_assoc] at steps ⊢
    refine members_last key gaps (lines level) (first _ n ?_ (by omega))
    exact ends_append_cons (lines level) (by decide) rest
  | cons m ms ih =>
    obtain ⟨key', y⟩ := m
    obtain ⟨key', rfl⟩ := Option.isSome_iff_exists.1 (keys _ (List.mem_cons_self ..))
    simp only [paddedMembers, Option.getD_some, List.length_append, List.length_cons, List.append_assoc,
      List.cons_append] at steps ⊢
    have close := length_paddedMembers_pos line gap level ms
    obtain ⟨n, rfl⟩ : ∃ k, n = k + 1 := ⟨n - 1, by omega⟩
    exact members_next key gaps (lines (level + 1)) (first _ (n + 1) (ends_comma _) (by omega))
      (ih key' (x := y) (reads _ (List.mem_cons_self ..)) (fun m listed => keys m (List.mem_cons_of_mem _ listed))
        (fun m listed => reads m (List.mem_cons_of_mem _ listed)) (by omega))

/-- **What is written is read back**, whatever blanks stand between the tokens. -/
theorem Written.reads {x : Json} (written : Written x) (level : Nat) : ReadAs (padded line gap level x) x := by
  induction written generalizing level with
  | null => exact readAs_of_succ (by simp [padded]) fun _ _ _ _ => rfl
  | bool b => cases b <;> exact readAs_of_succ (by simp [padded]) fun _ _ _ _ => rfl
  | number spelled =>
    obtain ⟨c, cs, text, start⟩ := head_toList spelled
    rw [padded]
    refine readAs_of_succ (by simp [text]) fun rest n ends _ => ?_
    have read := numeral?_toList spelled ends
    rw [text] at read ⊢
    exact value_numeral start n read
  | string s =>
    refine readAs_of_succ (by simp [padded, quoted]) fun rest n _ _ => ?_
    simp [value, padded, quoted, skipBlank_cons (show isBlank '"' = false by decide), string?_quoted]
  | @array xs written ih =>
    match xs, written, ih with
    | [], _, _ => exact readAs_of_succ (by simp [padded]) fun _ _ _ _ => rfl
    | x :: xs, written, ih =>
      refine readAs_of_succ (by simp [padded]) fun rest n _ steps => ?_
      simp only [padded, List.length_append, List.length_cons, List.append_assoc, List.cons_append] at steps ⊢
      obtain ⟨c, cs, text, token, first⟩ :=
        (written x (List.mem_cons_self ..)).head_padded line gap (level + 1)
      have close := length_paddedItems_pos line gap level xs
      obtain ⟨n, rfl⟩ : ∃ k, n = k + 1 := ⟨n - 1, by omega⟩
      have read := items_padded (n := n) lines level (fun y listed => ih y listed (level + 1)) rest (by omega)
      rw [text] at read ⊢
      exact value_items (lines _) token first read
  | @object ms keys _ ih =>
    match ms, keys, ih with
    | [], _, _ => exact readAs_of_succ (by simp [padded]) fun _ _ _ _ => rfl
    | (key, x) :: ms, keys, ih =>
      obtain ⟨key, rfl⟩ := Option.isSome_iff_exists.1 (keys _ (List.mem_cons_self ..))
      refine readAs_of_succ (by simp [padded]) fun rest n _ steps => ?_
      simp only [padded, Option.getD_some, List.length_append, List.length_cons, List.append_assoc,
        List.cons_append] at steps ⊢
      obtain ⟨n, rfl⟩ : ∃ k, n = k + 1 := ⟨n - 1, by omega⟩
      have read := members_padded (n := n) lines gaps level key (ih _ (List.mem_cons_self ..) (level + 1))
        (fun m listed => keys m (List.mem_cons_of_mem _ listed))
        (fun m listed => ih m (List.mem_cons_of_mem _ listed) (level + 1)) rest (by dsimp only; omega)
      exact value_members (lines _) read

end Padded

theorem Written.parse?_padded {line : Nat → List Char} {gap : List Char} (lines : ∀ level, Blank (line level))
    (gaps : Blank gap) {x : Json} (written : Written x) :
    parse? (String.ofList (padded line gap 0 x)) = some x := by
  have ends : Ends [] := fun _ none => absurd none (by simp)
  have read := written.reads lines gaps 0 [] (2 * (padded line gap 0 x).length + 2) ends (by omega)
  rw [List.append_nil] at read
  unfold parse?
  rw [String.toList_ofList]
  dsimp only
  rw [read]
  rfl

/-- **What is written is read back**, on one line or on several. -/
theorem Written.parse?_eq {x : Json} (written : Written x) :
    parse? x.compactText = some x ∧ parse? x.prettyText = some x := by
  rw [compactText, prettyText, compact_eq 0, pretty_eq]
  refine ⟨written.parse?_padded (fun _ => by simp [Blank]) (by simp [Blank]),
    written.parse?_padded (fun level => ?_) (by simp [Blank, isBlank])⟩
  intro c listed
  rw [newLine, List.mem_cons, List.mem_replicate] at listed
  rcases listed with rfl | ⟨-, rfl⟩ <;> rfl

end Json

end Inlining
