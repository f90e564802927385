import Inlining.Decimal.Numeral

/-!
# The shortest decimal of a binary number

The reals that round to a finite number form an interval around it. `shortest` looks for a
decimal in that interval on coarser and coarser grids first, so the one it finds has as few
digits as any; of the two neighbours of the number on that grid it takes the nearer. All
comparisons are between naturals (`readsBack`). `DecimalStyle` says how such a decimal is
written.
-/

namespace Inlining

/-- `digits` times ten to the `exponent`. -/
structure Decimal where
  digits : Nat
  exponent : Int
deriving DecidableEq, Repr

/-- Which of two equally near decimals is taken. -/
inductive Tie where
  | toEven
  | up
deriving DecidableEq, Repr

/-- The quotient rounded to the nearest natural. -/
def Tie.round (tie : Tie) (num den : Nat) : Nat :=
  let floor := num / den
  let twice := 2 * (num % den)
  if twice < den then floor
  else if den < twice then floor + 1
  else match tie with
    | .toEven => floor + floor % 2
    | .up => floor + 1

namespace BinaryFormat

variable (fmt : BinaryFormat)

/-- The decimal rounds to the magnitude word: it lies between the middles to the words below
and above, either of which counts when the word is even. -/
def readsBack (word : Nat) (d : Decimal) : Bool :=
  let twice := 2 * (d.digits * Nat.pow 10 d.exponent.toNat * fmt.stepsInOne)
  let down := Nat.pow 10 (-d.exponent).toNat
  let low := (fmt.units (word - 1) + fmt.units word) * down
  let high := (fmt.units word + fmt.units (word + 1)) * down
  if word % 2 = 0 then low ≤ twice && twice ≤ high else low < twice && twice < high

/-- The neighbour of the word's value on the grid of multiples of ten to the `power` that
reads back, the nearer one if both do. -/
def onGrid? (tie : Tie) (word : Nat) (power : Int) : Option Decimal :=
  let num := fmt.units word * Nat.pow 10 (-power).toNat
  let den := Nat.pow 10 power.toNat * fmt.stepsInOne
  let low : Decimal := ⟨num / den, power⟩
  let high : Decimal := ⟨num / den + 1, power⟩
  match fmt.readsBack word low, fmt.readsBack word high with
  | true, true => some ⟨tie.round num den, power⟩
  | true, false => some low
  | false, true => some high
  | false, false => none

/-- A power of ten above the word's value and above every decimal that reads back. -/
def powerAbove (word : Nat) : Int :=
  (((fmt.units word).log2 : Int) - fmt.stepBits + 2) * 30103 / 100000 + 1

/-- The number of grids searched; the finest has more than seventeen digits. -/
def gridCount : Nat := 24

/-- The decimal with the fewest digits that rounds to the word, the nearest of those. -/
def shortest (tie : Tie) (word : Nat) : Decimal :=
  if word = 0 then ⟨0, 0⟩
  else
    let top := fmt.powerAbove word
    ((List.range gridCount).findSome? fun (i : Nat) => fmt.onGrid? tie word (top - i)).getD
      ⟨fmt.units word * Nat.pow 5 fmt.stepBits, -fmt.stepBits⟩

end BinaryFormat

/-- How a decimal is written: without exponent if the power of ten of its first digit lies in
`positional`, and with or without `.0` behind a whole number. -/
structure DecimalStyle where
  tie : Tie
  positional : Int → Bool
  pointZero : Bool

namespace DecimalStyle

/-- The numeral of a decimal with the given sign. -/
def numeral (style : DecimalStyle) (negative : Bool) (d : Decimal) : Numeral :=
  let digits := Nat.toDigits 10 d.digits
  let first : Int := d.exponent + digits.length - 1
  if style.positional first then
    if 0 ≤ d.exponent then
      ⟨negative, digits ++ List.replicate (if d.digits = 0 then 0 else d.exponent.toNat) '0',
        if style.pointZero then ['0'] else [], none⟩
    else if 0 ≤ first then
      ⟨negative, digits.take (first.toNat + 1), digits.drop (first.toNat + 1), none⟩
    else ⟨negative, ['0'], List.replicate (-first - 1).toNat '0' ++ digits, none⟩
  else ⟨negative, digits.take 1, digits.drop 1, some first⟩

end DecimalStyle

namespace Binary

variable {fmt : BinaryFormat}

/-- The numeral of a finite number in a style. -/
def numeral (style : DecimalStyle) (x : Binary fmt) : Numeral :=
  style.numeral x.negative (fmt.shortest style.tie x.magnitude)

end Binary

end Inlining
