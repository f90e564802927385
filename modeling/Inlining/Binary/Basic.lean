/-!
# Binary floating-point numbers

A number of a binary format is a sign and a magnitude word. Below the word of infinity the
words count the non-negative finite numbers in ascending order, and `units` gives the exact
value of each as a multiple of the format's smallest step. Rounding, `ofRatio`, goes the
other way: it takes the word of the number nearest to a quotient of naturals, ties to the
even word. Sums of bits never enter: all arithmetic on naturals is exact.
-/

namespace Inlining

/-- The widths of the two fields of a magnitude word. -/
structure BinaryFormat where
  fractionBits : Nat
  exponentBits : Nat
deriving DecidableEq, Repr

namespace BinaryFormat

/-- The 32-bit format. -/
def single : BinaryFormat := ⟨23, 8⟩

/-- The 64-bit format. -/
def double : BinaryFormat := ⟨52, 11⟩

variable (fmt : BinaryFormat)

/-- The number of bits of a magnitude word. -/
def magnitudeBits : Nat := fmt.exponentBits + fmt.fractionBits

/-- The number of magnitude words. -/
def words : Nat := Nat.pow 2 fmt.magnitudeBits

/-- The number of words that share an exponent. -/
def fractions : Nat := Nat.pow 2 fmt.fractionBits

/-- The magnitude word of infinity; greater words are no numbers. -/
def infinite : Nat := (Nat.pow 2 fmt.exponentBits - 1) * fmt.fractions

/-- The smallest step of the format is two to the minus this power. -/
def stepBits : Nat := Nat.pow 2 (fmt.exponentBits - 1) + fmt.fractionBits - 2

/-- The number of smallest steps in one. -/
def stepsInOne : Nat := Nat.pow 2 fmt.stepBits

/-- The exact value of a magnitude word, in smallest steps. The word of infinity gets the
value that the next finite number would have. -/
def units (magnitude : Nat) : Nat :=
  if magnitude < fmt.fractions then magnitude
  else (fmt.fractions + magnitude % fmt.fractions) * Nat.pow 2 (magnitude / fmt.fractions - 1)

theorem words_pos : 0 < fmt.words := Nat.two_pow_pos _

theorem fractions_pos : 0 < fmt.fractions := Nat.two_pow_pos _

theorem infinite_lt : fmt.infinite < fmt.words := by
  have words_eq : fmt.words = Nat.pow 2 fmt.exponentBits * fmt.fractions := Nat.pow_add ..
  have exponents_pos : 0 < Nat.pow 2 fmt.exponentBits := Nat.two_pow_pos _
  rw [infinite, words_eq]
  exact Nat.mul_lt_mul_of_pos_right (by omega) fmt.fractions_pos

end BinaryFormat

/-- The quotient of two naturals rounded to the nearest natural, ties to even. -/
def roundHalfEven (num den : Nat) : Nat :=
  let floor := num / den
  let twice := 2 * (num % den)
  if twice < den then floor
  else if den < twice then floor + 1
  else floor + floor % 2

/-- A number of a binary format, an infinity or one of the words that are no number. -/
structure Binary (fmt : BinaryFormat) where
  negative : Bool
  magnitude : Nat
  magnitude_lt : magnitude < fmt.words
deriving DecidableEq, Repr

/-- A 32-bit floating-point number. -/
abbrev Single := Binary .single

/-- A 64-bit floating-point number. -/
abbrev Double := Binary .double

namespace Binary

variable {fmt : BinaryFormat}

/-- The number with the given bits; bits above the format's width are dropped. -/
def ofBits (bits : Nat) : Binary fmt :=
  ⟨bits.testBit fmt.magnitudeBits, bits % fmt.words, Nat.mod_lt _ fmt.words_pos⟩

/-- The bits of the number, the sign on top. -/
def toBits (x : Binary fmt) : Nat :=
  (if x.negative then fmt.words else 0) + x.magnitude

def isNaN (x : Binary fmt) : Bool := fmt.infinite < x.magnitude

def isInfinite (x : Binary fmt) : Bool := x.magnitude == fmt.infinite

def isFinite (x : Binary fmt) : Bool := x.magnitude < fmt.infinite

/-- The number of steps of a finite number's absolute value. -/
def units (x : Binary fmt) : Nat := fmt.units x.magnitude

/-- A word that is no number. -/
def nan : Binary fmt :=
  ⟨false, fmt.words - 1, Nat.sub_lt fmt.words_pos Nat.one_pos⟩

def infinity (negative : Bool) : Binary fmt := ⟨negative, fmt.infinite, fmt.infinite_lt⟩

def zero (negative : Bool) : Binary fmt := ⟨negative, 0, fmt.words_pos⟩

instance : Inhabited (Binary fmt) := ⟨zero false⟩

def neg (x : Binary fmt) : Binary fmt := { x with negative := !x.negative }

/-- The number nearest to `num / den` with the given sign, ties to the even word. A quotient
beyond the largest finite number by half a step or more is infinite. -/
def ofRatio (negative : Bool) (num den : Nat) : Binary fmt :=
  let steps := num * fmt.stepsInOne
  let shift := (steps / den).log2 - fmt.fractionBits
  let word := shift * fmt.fractions + roundHalfEven steps (den * Nat.pow 2 shift)
  ⟨negative, min word fmt.infinite, Nat.lt_of_le_of_lt (Nat.min_le_right _ _) fmt.infinite_lt⟩

/-- The number nearest to a natural. -/
def ofNat (n : Nat) : Binary fmt := ofRatio false n 1

/-- The number nearest to an integer. -/
def ofInt (n : Int) : Binary fmt := ofRatio (n < 0) n.natAbs 1

/-- The nearest number of another format. -/
def convert (target : BinaryFormat) (x : Binary fmt) : Binary target :=
  if x.isNaN then nan
  else if x.isInfinite then infinity x.negative
  else ofRatio x.negative x.units fmt.stepsInOne

/-- The product, rounded once. -/
def mul (x y : Binary fmt) : Binary fmt :=
  let negative := x.negative != y.negative
  if x.isNaN || y.isNaN then nan
  else if x.isInfinite || y.isInfinite then
    if x.magnitude == 0 || y.magnitude == 0 then nan else infinity negative
  else ofRatio negative (x.units * y.units) (fmt.stepsInOne * fmt.stepsInOne)

/-- The quotient, rounded once. -/
def div (x y : Binary fmt) : Binary fmt :=
  let negative := x.negative != y.negative
  if x.isNaN || y.isNaN then nan
  else if x.isInfinite then
    if y.isInfinite then nan else infinity negative
  else if y.isInfinite then zero negative
  else if y.magnitude == 0 then
    if x.magnitude == 0 then nan else infinity negative
  else ofRatio negative x.units y.units

instance : Mul (Binary fmt) := ⟨mul⟩

instance : Div (Binary fmt) := ⟨div⟩

/-- The place of a number in ascending order; the two zeros share one. -/
def rank (x : Binary fmt) : Int := if x.negative then -(x.magnitude : Int) else x.magnitude

/-- `x ≤ y` as numbers; false when either is no number. -/
def le (x y : Binary fmt) : Bool := !x.isNaN && !y.isNaN && x.rank ≤ y.rank

/-- Equality as numbers: the zeros are equal, and a word that is no number equals nothing. -/
def sameNumber (x y : Binary fmt) : Bool := !x.isNaN && !y.isNaN && x.rank == y.rank

theorem sameNumber_iff {x y : Binary fmt} :
    x.sameNumber y = true ↔ x.le y = true ∧ y.le x = true := by
  simp only [sameNumber, le, Bool.and_eq_true, beq_iff_eq, decide_eq_true_eq]
  constructor
  · rintro ⟨⟨hx, hy⟩, h⟩
    exact ⟨⟨⟨hx, hy⟩, by omega⟩, ⟨hy, hx⟩, by omega⟩
  · rintro ⟨⟨⟨hx, hy⟩, h⟩, -, h'⟩
    exact ⟨⟨hx, hy⟩, by omega⟩

theorem toBits_ofBits {n : Nat} (h : n < 2 * fmt.words) :
    (ofBits n : Binary fmt).toBits = n := by
  have div_lt : n / fmt.words < 2 := Nat.div_lt_of_lt_mul (by omega)
  have div_add_mod : fmt.words * (n / fmt.words) + n % fmt.words = n := Nat.div_add_mod ..
  have testBit_eq : n.testBit fmt.magnitudeBits = decide (n / fmt.words % 2 = 1) :=
    Nat.testBit_eq_decide_div_mod_eq
  simp only [toBits, ofBits, testBit_eq, decide_eq_true_eq]
  rcases Nat.lt_or_ge (n / fmt.words) 1 with zero | one
  · have div_eq : n / fmt.words = 0 := Nat.lt_one_iff.1 zero
    rw [div_eq] at div_add_mod ⊢
    simpa using div_add_mod
  · have div_eq : n / fmt.words = 1 := Nat.le_antisymm (Nat.le_of_lt_succ div_lt) one
    rw [div_eq] at div_add_mod ⊢
    simpa using div_add_mod

end Binary

end Inlining
