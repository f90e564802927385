import Inlining.Binary.Basic

/-!
# Decimal numerals

A numeral is a number as it is written: a sign, the digits before and after the point, and a
power of ten. Whether a point or an exponent is written decides what the numeral can be read
as, so both stay visible. `int?` reads integers exactly. `double?` reads a binary number
with few roundings: the leading digits that fit 64 bits are taken as one natural, and that is
scaled by one power of ten (two when the number is very small).

This is a best effort, not always the number nearest to the decimal. It is not a choice made
here, but the reading of the JSON package that the inliner links, roundings and all. What is
proved of constants that are written and read again (`Constant.rereads`) rests on it.
-/

namespace Inlining

/-- A written number. No digit after the point means that no point is written. -/
structure Numeral where
  negative : Bool
  whole : List Char
  fraction : List Char := []
  exponent : Option Int := none
deriving DecidableEq, Repr

namespace Numeral

/-- The numeral of an integer. -/
def ofInt (n : Int) : Numeral := ⟨n < 0, Nat.toDigits 10 n.natAbs, [], none⟩

/-- The numeral of a natural. -/
def ofNat (n : Nat) : Numeral := ⟨false, Nat.toDigits 10 n, [], none⟩

/-- The characters of the numeral; an exponent always shows its sign. -/
def toList (x : Numeral) : List Char :=
  (if x.negative then ['-'] else []) ++ x.whole ++
    (if x.fraction.isEmpty then [] else '.' :: x.fraction) ++
    match x.exponent with
    | none => []
    | some e => 'e' :: (if e < 0 then '-' else '+') :: Nat.toDigits 10 e.natAbs

def text (x : Numeral) : String := String.ofList x.toList

/-- The numeral is written without a point and without an exponent. -/
def isWhole (x : Numeral) : Bool := x.fraction.isEmpty && x.exponent.isNone

/-- The integer that a numeral without point and exponent names. Minus zero names none:
integers have one zero. -/
def int? (x : Numeral) : Option Int :=
  let n := Nat.ofDigitChars 10 x.whole 0
  if !x.isWhole then none
  else if !x.negative then some n
  else if n = 0 then none
  else some (-n)

/-- The greatest natural of 64 bits. -/
def wordMax : Nat := 18446744073709551615

/-- Appends digits to a natural as long as the result fits 64 bits; the digits from the first
that does not fit on are left over. -/
def appendDigits (n : Nat) : List Char → Nat × List Char
  | [] => (n, [])
  | c :: cs =>
    let m := n * 10 + (c.toNat - '0'.toNat)
    if wordMax < m then (n, c :: cs) else appendDigits m cs

/-- The leading digits as one natural, with the power of ten that scales it to the numeral.
Digits left over before the point raise the power; those left over behind it are dropped. -/
def leading (x : Numeral) : Nat × Int :=
  let (n, overWhole) := appendDigits 0 x.whole
  let (n, overFraction) := appendDigits n x.fraction
  (n, overWhole.length - (x.fraction.length - overFraction.length) + x.exponent.getD 0)

/-- Ten to the `n`, rounded once. -/
def tenPow (n : Nat) : Double := .ofNat (Nat.pow 10 n)

/-- The greatest power of ten below infinity. -/
def greatestPower : Nat := 308

/-- A number times a power of ten; `none` beyond the largest finite number. A negative power
divides, in two steps when it is below the least that is a number of its own. -/
def scale? (f : Double) (power : Int) : Option Double :=
  if f.magnitude = 0 then some f
  else if 0 ≤ power then
    if power ≤ greatestPower then
      let product := f * tenPow power.toNat
      if product.isInfinite then none else some product
    else none
  else if -power ≤ greatestPower then some (f / tenPow (-power).toNat)
  else if -power ≤ 2 * greatestPower then
    some (f / tenPow greatestPower / tenPow (-power - greatestPower).toNat)
  else some (.zero false)

/-- The 64-bit number that the numeral is read as, `none` when it is too large. -/
def double? (x : Numeral) : Option Double :=
  let (n, power) := x.leading
  (scale? (.ofNat n) power).map fun f => if x.negative then f.neg else f

/-- The 32-bit number that the numeral is read as: an integer of 64 bits is rounded once, any
other numeral by way of its 64-bit number, which may turn out infinite. -/
def single? (x : Numeral) : Option Single :=
  match x.int? with
  | some n =>
    if -9223372036854775808 ≤ n ∧ n ≤ wordMax then some (.ofInt n) else x.double?.map (.convert .single)
  | none => x.double?.map (.convert .single)

theorem int?_ofNat (n : Nat) : (ofNat n).int? = some (n : Int) := by
  simp [ofNat, int?, isWhole, Nat.ofDigitChars_toDigits]

theorem int?_ofInt (n : Int) : (ofInt n).int? = some n := by
  simp only [ofInt, int?, isWhole, List.isEmpty_nil, Option.isNone_none, Bool.and_self,
    Bool.not_true, Bool.false_eq_true, if_false, Nat.ofDigitChars_toDigits (b := 10)
    (by decide) (by decide)]
  rcases Int.lt_or_le n 0 with h | h
  · have natAbs_ne : n.natAbs ≠ 0 := by omega
    have neg_natAbs : -(n.natAbs : Int) = n := by omega
    simp only [h, decide_true, natAbs_ne, if_false, neg_natAbs]
    rfl
  · have not_lt : ¬ n < 0 := by omega
    simp only [not_lt, decide_false, Int.natAbs_of_nonneg h]
    rfl

end Numeral

end Inlining
