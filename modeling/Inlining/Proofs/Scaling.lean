import Mathlib
import Inlining.Decimal.Numeral
import Inlining.Proofs.Rounding

/-!
# Scaling by powers of ten

The reader of numerals multiplies or divides once, by a power of ten. A natural of up to 53 bits and a power
up to ten to the 22nd are numbers of the 64-bit format (`BinaryFormat.exists_units`), so for these the one
operation is one rounding of the exact value (`Numeral.double?_eq`).
-/

namespace Inlining

namespace BinaryFormat

variable (fmt : BinaryFormat)

theorem stepsInOne_eq : fmt.stepsInOne = 2 ^ fmt.stepBits := rfl

theorem stepsInOne_pos : 0 < fmt.stepsInOne := Nat.two_pow_pos _

/-- A natural that fits a significand, scaled up, is the value of a word. -/
theorem exists_units {m : Nat} (short : m ≤ 2 * fmt.fractions) (s : Nat) : ∃ w, fmt.units w = m * 2 ^ s := by
  have unscaled {w : Nat} (small : w ≤ 2 * fmt.fractions) : fmt.units w = w := by
    have := fmt.units_word (s := 0) (.inl rfl) small
    rwa [Nat.zero_mul, Nat.zero_add, pow_zero, Nat.mul_one] at this
  induction s with
  | zero => exact ⟨m, by rw [unscaled short, pow_zero, Nat.mul_one]⟩
  | succ s ih =>
    obtain ⟨w, value⟩ := ih
    have twice : m * 2 ^ (s + 1) = 2 * fmt.units w := by rw [value, pow_succ]; ring
    rw [twice]
    rcases Nat.lt_or_ge w fmt.fractions with small | big
    · exact ⟨2 * w, by rw [unscaled (by omega), unscaled (by omega)]⟩
    · exact ⟨w + fmt.fractions, units_add_fractions big⟩

theorem units_infinite (exponents : 0 < fmt.exponentBits) :
    fmt.units fmt.infinite = fmt.fractions * 2 ^ (2 ^ fmt.exponentBits - 2) := by
  have two : 2 ≤ 2 ^ fmt.exponentBits := Nat.le_self_pow exponents.ne' 2
  obtain ⟨top, greatest⟩ : ∃ top, 2 ^ fmt.exponentBits = top + 2 := ⟨2 ^ fmt.exponentBits - 2, by omega⟩
  have infinite : fmt.infinite = top * fmt.fractions + fmt.fractions := by
    change (2 ^ fmt.exponentBits - 1) * fmt.fractions = _
    rw [greatest, Nat.add_sub_cancel_right (m := 1) (n := top + 1), Nat.add_mul, Nat.one_mul]
  rw [infinite, units_word _ (.inr (Nat.le_refl _)) (by omega), greatest, Nat.add_sub_cancel]

/-- A scaled significand is below infinity if the scale is not one of the greatest. -/
theorem lt_units_infinite {m s : Nat} (short : m ≤ 2 * fmt.fractions)
    (scale : s + 3 < 2 ^ fmt.exponentBits) : m * 2 ^ s < fmt.units fmt.infinite := by
  have exponents : 0 < fmt.exponentBits := by
    rw [Nat.pos_iff_ne_zero]
    intro none
    rw [none] at scale
    omega
  rw [fmt.units_infinite exponents]
  calc m * 2 ^ s ≤ 2 * fmt.fractions * 2 ^ s := Nat.mul_le_mul_right _ short
    _ = fmt.fractions * 2 ^ (s + 1) := by ring
    _ < fmt.fractions * 2 ^ (2 ^ fmt.exponentBits - 2) :=
      Nat.mul_lt_mul_of_pos_left (Nat.pow_lt_pow_right (by decide) (by omega)) fmt.fractions_pos

end BinaryFormat

namespace Binary

variable {fmt : BinaryFormat}

theorem ext_of_magnitude {x y : Binary fmt} (sign : x.negative = y.negative)
    (word : x.magnitude = y.magnitude) : x = y := by
  cases x
  cases y
  cases sign
  cases word
  rfl

theorem negative_ofRatio (negative : Bool) (num den : Nat) :
    (ofRatio negative num den : Binary fmt).negative = negative :=
  rfl

/-- Equal quotients are rounded to one number. -/
theorem ofRatio_congr (bits : 0 < fmt.fractionBits) (negative : Bool) {num den num' den' : Nat} (pos : 0 < den)
    (pos' : 0 < den') (same : num * den' = num' * den) :
    (ofRatio negative num den : Binary fmt) = ofRatio negative num' den' :=
  ext_of_magnitude rfl
    (Nat.le_antisymm (magnitude_mono bits pos pos' same.le) (magnitude_mono bits pos' pos same.ge))

/-- The number is finite and has this value. -/
structure IsExactly (x : Binary fmt) (units : Nat) : Prop where
  finite : x.magnitude < fmt.infinite
  units : x.units = units

/-- A quotient that fits a significand, scaled up, is not rounded. -/
theorem isExactly_ofRatio (bits : 0 < fmt.fractionBits) (negative : Bool) {num den m s : Nat} (pos : 0 < den)
    (short : m ≤ 2 * fmt.fractions) (scale : s + 3 < 2 ^ fmt.exponentBits)
    (exact : num * fmt.stepsInOne = m * 2 ^ s * den) :
    (ofRatio negative num den : Binary fmt).IsExactly (m * 2 ^ s) := by
  have finite := fmt.lt_units_infinite short scale
  obtain ⟨w, value⟩ := fmt.exists_units short s
  rw [← value] at finite exact ⊢
  have below : w < fmt.infinite := fmt.units_strictMono.lt_iff_lt.1 finite
  have word := magnitude_of_exact bits negative pos below.le exact
  exact ⟨word ▸ below, congrArg fmt.units word⟩

namespace IsExactly

variable {x y : Binary fmt} {a b : Nat}

theorem isInfinite (h : x.IsExactly a) : x.isInfinite = false := beq_false_of_ne h.finite.ne

theorem isNaN (h : x.IsExactly a) : x.isNaN = false := decide_eq_false (Nat.not_lt.2 h.finite.le)

theorem magnitude_eq_zero_iff (h : x.IsExactly a) : x.magnitude = 0 ↔ a = 0 := by
  rw [← h.units, ← fmt.units_strictMono.injective.eq_iff, fmt.units_zero]
  rfl

theorem mul_eq (hx : x.IsExactly a) (hy : y.IsExactly b) :
    x * y = ofRatio (x.negative != y.negative) (a * b) (fmt.stepsInOne * fmt.stepsInOne) := by
  change Binary.mul x y = _
  simp only [mul, hx.isNaN, hy.isNaN, hx.isInfinite, hy.isInfinite, hx.units, hy.units, Bool.or_self,
    Bool.false_eq_true, if_false]

theorem div_eq (hx : x.IsExactly a) (hy : y.IsExactly b) (some : b ≠ 0) :
    x / y = ofRatio (x.negative != y.negative) a b := by
  have nonzero : (y.magnitude == 0) = false := beq_false_of_ne (mt hy.magnitude_eq_zero_iff.1 some)
  change Binary.div x y = _
  simp only [div, hx.isNaN, hy.isNaN, hx.isInfinite, hy.isInfinite, nonzero, hx.units, hy.units,
    Bool.or_self, Bool.false_eq_true, if_false]

end IsExactly

/-- A quotient far below the greatest number is not rounded to infinity. -/
theorem finite_ofRatio (bits : 0 < fmt.fractionBits) (negative : Bool) {num den k : Nat} (pos : 0 < den)
    (bound : num ≤ 2 ^ k * den) (scale : k + fmt.stepBits + 3 < 2 ^ fmt.exponentBits) :
    (ofRatio negative num den : Binary fmt).magnitude < fmt.infinite := by
  have power : (ofRatio negative (2 ^ k) 1 : Binary fmt).IsExactly (1 * 2 ^ (k + fmt.stepBits)) := by
    refine isExactly_ofRatio bits negative Nat.one_pos (Nat.mul_pos Nat.two_pos fmt.fractions_pos) scale ?_
    rw [fmt.stepsInOne_eq, pow_add]
    ring
  exact (magnitude_mono bits pos Nat.one_pos (by rwa [Nat.mul_one])).trans_lt power.finite

theorem double_bits : 0 < BinaryFormat.double.fractionBits := by decide

/-- A natural of up to 53 bits is a number. -/
theorem isExactly_ofNat {n : Nat} (short : n ≤ 2 ^ 53) :
    (ofNat n : Double).IsExactly (n * BinaryFormat.double.stepsInOne) := by
  rw [BinaryFormat.stepsInOne_eq]
  refine isExactly_ofRatio double_bits false Nat.one_pos short (by decide) ?_
  rw [BinaryFormat.stepsInOne_eq, Nat.mul_one]

/-- Ten to the power of up to 22 is a number. -/
theorem isExactly_tenPow {p : Nat} (small : p ≤ 22) :
    (Numeral.tenPow p).IsExactly (10 ^ p * BinaryFormat.double.stepsInOne) := by
  have parts : 10 ^ p * BinaryFormat.double.stepsInOne = 5 ^ p * 2 ^ (p + BinaryFormat.double.stepBits) := by
    rw [BinaryFormat.stepsInOne_eq, show 10 = 5 * 2 from rfl, Nat.mul_pow, pow_add, Nat.mul_assoc]
  have odd : 5 ^ p ≤ 2 ^ 53 := (Nat.pow_le_pow_right (by decide) small).trans (by decide)
  have scale : p + BinaryFormat.double.stepBits + 3 < 2 ^ BinaryFormat.double.exponentBits :=
    (Nat.add_le_add_right (Nat.add_le_add_right small _) _).trans_lt (by decide)
  rw [parts]
  exact isExactly_ofRatio double_bits false Nat.one_pos odd scale
    (by rw [← parts, Nat.mul_one]; rfl)

end Binary

namespace Numeral

open Binary (double_bits)

/-- Scaling a short natural by a small power is one rounding. -/
theorem scale?_eq {n : Nat} {power : Int} (short : n ≤ 2 ^ 53) (low : -22 ≤ power) (high : power ≤ 22) :
    scale? (Binary.ofNat n) power = some (Binary.ofRatio false (n * 10 ^ power.toNat) (10 ^ (-power).toNat)) := by
  have exact := Binary.isExactly_ofNat short
  have down : 0 < 10 ^ (-power).toNat := Nat.pow_pos (by decide)
  have step := BinaryFormat.stepsInOne_pos .double
  by_cases none : n = 0
  · subst none
    rw [scale?, if_pos (exact.magnitude_eq_zero_iff.2 (Nat.zero_mul _))]
    exact congrArg some (Binary.ofRatio_congr double_bits false Nat.one_pos down (by simp))
  have nonzero : (Binary.ofNat n : Double).magnitude ≠ 0 :=
    mt exact.magnitude_eq_zero_iff.1 (Nat.mul_ne_zero none step.ne')
  rcases le_or_gt 0 power with up | below
  · have ten := Binary.isExactly_tenPow (p := power.toNat) (by omega)
    have one : (-power).toNat = 0 := by omega
    have product : Binary.ofNat n * tenPow power.toNat =
        Binary.ofRatio false (n * 10 ^ power.toNat) (10 ^ (-power).toNat) := by
      rw [exact.mul_eq ten]
      refine Binary.ofRatio_congr double_bits false (Nat.mul_pos step step) down ?_
      rw [one]
      ring
    have finite : (Binary.ofRatio false (n * 10 ^ power.toNat) (10 ^ (-power).toNat) : Double).magnitude <
        BinaryFormat.double.infinite := by
      refine Binary.finite_ofRatio (k := 53 + 74) double_bits false down ?_ (by decide)
      rw [one, pow_zero, Nat.mul_one, pow_add]
      exact Nat.mul_le_mul short ((Nat.pow_le_pow_right (by decide) (by omega : power.toNat ≤ 22)).trans (by decide))
    rw [scale?, if_neg nonzero, if_pos up, if_pos (by unfold greatestPower; omega)]
    dsimp only
    rw [product, Binary.isInfinite, beq_false_of_ne finite.ne]
    rfl
  · have ten := Binary.isExactly_tenPow (p := (-power).toNat) (by omega)
    have tenSteps : 10 ^ (-power).toNat * BinaryFormat.double.stepsInOne ≠ 0 := (Nat.mul_pos down step).ne'
    have quotient : Binary.ofNat n / tenPow (-power).toNat =
        Binary.ofRatio false (n * 10 ^ power.toNat) (10 ^ (-power).toNat) := by
      rw [exact.div_eq ten tenSteps]
      refine Binary.ofRatio_congr double_bits false (Nat.mul_pos down step) down ?_
      rw [show power.toNat = 0 by omega]
      ring
    rw [scale?, if_neg nonzero, if_neg (Int.not_le.2 below), if_pos (by unfold greatestPower; omega), quotient]

/-- A numeral with few digits and a small power of ten is read as the number nearest to it. -/
theorem double?_eq {x : Numeral} {n : Nat} {power : Int} (leading : x.leading = (n, power)) (short : n ≤ 2 ^ 53)
    (low : -22 ≤ power) (high : power ≤ 22) :
    x.double? = some (Binary.ofRatio x.negative (n * 10 ^ power.toNat) (10 ^ (-power).toNat)) := by
  rw [double?, leading]
  dsimp only
  rw [scale?_eq short low high, Option.map_some]
  cases x.negative <;> rfl

end Numeral

end Inlining
