import Mathlib
import Inlining.Proofs.Scaling

/-!
# Errors of rounding

In rational numbers, a quotient is rounded past a word if it lies beyond the middle between the word and the
next (`BinaryFormat.past_iff`), and a number of full precision is off by at most one part in twice the
fractions (`Binary.abs_sub_value_le_mul`). A reader that scales by a rounded power of ten adds up two such
errors (`Numeral.scale?_near`).
-/

namespace Inlining

namespace BinaryFormat

variable (fmt : BinaryFormat) (w : Nat)

/-- The value of a word. -/
def value : ℚ := fmt.units w / fmt.stepsInOne

/-- The middle between a word and the next. -/
def middle : ℚ := (fmt.value w + fmt.value (w + 1)) / 2

/-- Half the distance from a word to the next. -/
def halfStep : ℚ := 2 ^ fmt.scale w / (2 * fmt.stepsInOne)

/-- The number lies beyond the middle, or in the middle if the word is odd. -/
def Beyond (q : ℚ) : Prop := fmt.middle w < q ∨ fmt.middle w = q ∧ w % 2 = 1

theorem steps_pos : (0 : ℚ) < fmt.stepsInOne := by exact_mod_cast fmt.stepsInOne_pos

theorem halfStep_pos : 0 < fmt.halfStep w := by
  have := fmt.steps_pos
  unfold halfStep
  positivity

theorem value_eq : fmt.value w = 2 * fmt.significand w * fmt.halfStep w := by
  have := fmt.steps_pos.ne'
  rw [value, halfStep, fmt.units_eq]
  push_cast
  field_simp

theorem value_succ : fmt.value (w + 1) = fmt.value w + 2 * fmt.halfStep w := by
  have := fmt.steps_pos.ne'
  rw [value, value, halfStep, fmt.units_succ, fmt.units_eq]
  push_cast
  field_simp

theorem middle_eq : fmt.middle w = fmt.value w + fmt.halfStep w := by
  rw [middle, value_succ]
  ring

theorem middle_eq_mul : fmt.middle w = (2 * fmt.significand w + 1) * fmt.halfStep w := by
  rw [middle_eq, value_eq]
  ring

/-- The middle before the next word. -/
theorem middle_eq_sub : fmt.middle w = fmt.value (w + 1) - fmt.halfStep w := by
  rw [middle_eq, value_succ]
  ring

theorem halfStep_le_succ : fmt.halfStep w ≤ fmt.halfStep (w + 1) := by
  have scale : fmt.scale w ≤ fmt.scale (w + 1) := by
    have next : w / fmt.fractions ≤ (w + 1) / fmt.fractions := Nat.div_le_div_right (Nat.le_succ w)
    unfold scale
    omega
  have := fmt.steps_pos
  unfold halfStep
  gcongr
  norm_num

theorem halfStep_succ_le : fmt.halfStep (w + 1) ≤ 2 * fmt.halfStep w := by
  have scale : fmt.scale (w + 1) ≤ fmt.scale w + 1 := by
    have next : (w + 1) / fmt.fractions ≤ (w + fmt.fractions) / fmt.fractions :=
      Nat.div_le_div_right (Nat.add_le_add_left fmt.fractions_pos w)
    rw [Nat.add_div_right _ fmt.fractions_pos] at next
    unfold scale
    omega
  have := fmt.steps_pos
  have power : (2 : ℚ) ^ fmt.scale (w + 1) ≤ 2 * 2 ^ fmt.scale w := by
    rw [← pow_succ']
    exact pow_le_pow_right₀ (by norm_num) scale
  unfold halfStep
  rw [← mul_div_assoc]
  gcongr

theorem past_iff {num den : Nat} (pos : 0 < den) :
    fmt.Past w (num * fmt.stepsInOne) den ↔ fmt.Beyond w (num / den) := by
  have steps := fmt.steps_pos
  have den_pos : (0 : ℚ) < den := by exact_mod_cast pos
  have middle : fmt.middle w = (fmt.units w + fmt.units (w + 1) : Nat) / (2 * fmt.stepsInOne) := by
    rw [BinaryFormat.middle, value, value]
    push_cast
    field_simp
  have less : fmt.middle w < num / den ↔
      (fmt.units w + fmt.units (w + 1)) * den < 2 * (num * fmt.stepsInOne) := by
    rw [middle, div_lt_div_iff₀ (by positivity) den_pos, ← Nat.cast_lt (α := ℚ)]
    push_cast
    constructor <;> intro h <;> linarith
  have same : fmt.middle w = num / den ↔
      (fmt.units w + fmt.units (w + 1)) * den = 2 * (num * fmt.stepsInOne) := by
    rw [middle, div_eq_div_iff (by positivity) den_pos.ne', ← Nat.cast_inj (R := ℚ)]
    push_cast
    constructor <;> intro h <;> linarith
  rw [Past, Beyond, less, same]

end BinaryFormat

namespace Binary

variable {fmt : BinaryFormat} {negative : Bool} {num den : Nat}

/-- The absolute value of a number. -/
def value (x : Binary fmt) : ℚ := fmt.value x.magnitude

theorem lt_magnitude_iff_beyond (bits : 0 < fmt.fractionBits) (negative : Bool) (pos : 0 < den) (w : Nat) :
    w < (ofRatio negative num den : Binary fmt).magnitude ↔ w < fmt.infinite ∧ fmt.Beyond w (num / den) := by
  rw [lt_magnitude_iff bits pos, fmt.past_iff w pos]

/-- A rounded quotient is off by at most half a step. -/
theorem abs_sub_value_le (bits : 0 < fmt.fractionBits) (pos : 0 < den)
    (finite : (ofRatio negative num den : Binary fmt).magnitude < fmt.infinite) :
    |(num / den : ℚ) - (ofRatio negative num den : Binary fmt).value| ≤
      fmt.halfStep (ofRatio negative num den : Binary fmt).magnitude := by
  have place (w : Nat) : w < (ofRatio negative num den : Binary fmt).magnitude ↔
      w < fmt.infinite ∧ fmt.Beyond w (num / den) := lt_magnitude_iff_beyond bits negative pos w
  have nonneg : (0 : ℚ) ≤ num / den := by positivity
  unfold value
  generalize (ofRatio negative num den : Binary fmt).magnitude = w at *
  generalize (num / den : ℚ) = q at *
  have upper : q ≤ fmt.value w + fmt.halfStep w := by
    have notBeyond : ¬ fmt.Beyond w q := fun beyond => lt_irrefl w ((place w).2 ⟨finite, beyond⟩)
    rw [← fmt.middle_eq]
    exact le_of_not_gt fun less => notBeyond (.inl less)
  have lower : fmt.value w - fmt.halfStep w ≤ q := by
    rcases Nat.eq_zero_or_pos w with rfl | some
    · have := fmt.halfStep_pos 0
      have zero : fmt.value 0 = 0 := by rw [BinaryFormat.value, fmt.units_zero, Nat.cast_zero, zero_div]
      linarith
    · obtain ⟨v, rfl⟩ : ∃ v, w = v + 1 := ⟨w - 1, by omega⟩
      have smaller := fmt.halfStep_le_succ v
      have beyond := ((place v).1 (Nat.lt_succ_self v)).2
      have : fmt.middle v ≤ q := beyond.elim le_of_lt fun h => h.1.le
      rw [fmt.middle_eq_sub] at this
      linarith
  rw [abs_le]
  constructor <;> linarith

/-- The error of a number of full precision. -/
theorem abs_sub_value_le_mul (bits : 0 < fmt.fractionBits) (pos : 0 < den)
    (full : fmt.fractions ≤ (ofRatio negative num den : Binary fmt).magnitude)
    (finite : (ofRatio negative num den : Binary fmt).magnitude < fmt.infinite) :
    |(num / den : ℚ) - (ofRatio negative num den : Binary fmt).value| ≤
      (ofRatio negative num den : Binary fmt).value / (2 * fmt.fractions) := by
  refine (abs_sub_value_le bits pos finite).trans ?_
  unfold value
  generalize (ofRatio negative num den : Binary fmt).magnitude = w at *
  have significand : fmt.fractions ≤ fmt.significand w := by
    refine (fmt.normal w).elim (fun unscaled => ?_) id
    have parts := fmt.word_eq w
    rw [unscaled] at parts
    omega
  have fractions : (0 : ℚ) < fmt.fractions := by exact_mod_cast fmt.fractions_pos
  have cast : (fmt.fractions : ℚ) ≤ fmt.significand w := by exact_mod_cast significand
  have step := fmt.halfStep_pos w
  rw [le_div_iff₀ (by positivity), fmt.value_eq]
  nlinarith

theorem value_nonneg (x : Binary fmt) : 0 ≤ x.value := by
  unfold value BinaryFormat.value
  positivity

theorem units_eq_value (x : Binary fmt) : (x.units : ℚ) = x.value * fmt.stepsInOne := by
  rw [value, BinaryFormat.value, div_mul_cancel₀ _ fmt.steps_pos.ne']
  rfl

theorem product_eq_value (n : Nat) (x : Binary fmt) :
    ((n * fmt.stepsInOne * x.units : Nat) / (fmt.stepsInOne * fmt.stepsInOne : Nat) : ℚ) = n * x.value := by
  have := fmt.steps_pos.ne'
  push_cast
  rw [units_eq_value]
  field_simp

theorem quotient_eq_value (n : Nat) {x : Binary fmt} (some : 0 < x.value) :
    ((n * fmt.stepsInOne : Nat) / (x.units : Nat) : ℚ) = n / x.value := by
  have := fmt.steps_pos.ne'
  push_cast
  rw [units_eq_value]
  field_simp

/-- A quotient far above the smallest numbers gets full precision. -/
theorem full_ofRatio (bits : 0 < fmt.fractionBits) (negative : Bool) {k : Nat} (pos : 0 < den)
    (bound : den ≤ num * 2 ^ k) (scale : k + fmt.fractionBits ≤ fmt.stepBits)
    (exponents : fmt.stepBits + 3 < 2 ^ fmt.exponentBits) :
    fmt.fractions ≤ (ofRatio negative num den : Binary fmt).magnitude := by
  have power : (ofRatio negative 1 (2 ^ k) : Binary fmt).IsExactly (1 * 2 ^ (fmt.stepBits - k)) := by
    refine isExactly_ofRatio bits negative (Nat.two_pow_pos k) (Nat.mul_pos Nat.two_pos fmt.fractions_pos)
      (by omega) ?_
    rw [fmt.stepsInOne_eq, Nat.mul_assoc, ← pow_add, Nat.sub_add_cancel (by omega)]
  have order : (ofRatio negative 1 (2 ^ k) : Binary fmt).magnitude ≤
      (ofRatio negative num den : Binary fmt).magnitude :=
    magnitude_mono bits (Nat.two_pow_pos k) pos (by rwa [Nat.one_mul])
  refine le_trans (le_of_not_gt fun small => ?_) order
  have unscaled : fmt.units (ofRatio negative 1 (2 ^ k) : Binary fmt).magnitude < fmt.fractions := by
    rwa [BinaryFormat.units, if_pos small]
  have large : 2 ^ fmt.fractionBits ≤ 2 ^ (fmt.stepBits - k) := Nat.pow_le_pow_right Nat.two_pos (by omega)
  have fractions : fmt.fractions = 2 ^ fmt.fractionBits := rfl
  have value : fmt.units (ofRatio negative 1 (2 ^ k) : Binary fmt).magnitude = 1 * 2 ^ (fmt.stepBits - k) :=
    power.units
  omega

end Binary

/-- The number is finite and differs from `q` by at most this part of itself. -/
structure Binary.Near {fmt : BinaryFormat} (x : Binary fmt) (part q : ℚ) : Prop where
  finite : x.magnitude < fmt.infinite
  error : |q - x.value| ≤ part * x.value

namespace Double

open Binary

/-- Quotients that are neither very small nor very large are rounded with a relative error. -/
theorem near_ofRatio (negative : Bool) {num den : Nat} {q : ℚ} (pos : 0 < den) (same : (num / den : ℚ) = q)
    (low : 1 / 2 ^ 250 ≤ q) (high : q ≤ 2 ^ 250) :
    (ofRatio negative num den : Double).Near (1 / 2 ^ 53) q := by
  subst same
  have den_pos : (0 : ℚ) < den := by exact_mod_cast pos
  have above : den ≤ num * 2 ^ 250 := by
    rw [div_le_div_iff₀ (by positivity) den_pos] at low
    rw [← Nat.cast_le (α := ℚ)]
    push_cast
    linarith
  have below : num ≤ 2 ^ 250 * den := by
    rw [div_le_iff₀ den_pos] at high
    rw [← Nat.cast_le (α := ℚ)]
    push_cast
    exact high
  have finite := finite_ofRatio double_bits negative pos below (by decide)
  have full := full_ofRatio double_bits negative pos above (by decide) (by decide)
  refine ⟨finite, (abs_sub_value_le_mul double_bits pos full finite).trans_eq ?_⟩
  have fractions : (2 * BinaryFormat.double.fractions : ℚ) = 2 ^ 53 := by
    have : BinaryFormat.double.fractions = 2 ^ 52 := rfl
    rw [this]
    norm_num
  rw [fractions]
  ring

theorem near_tenPow {p : Nat} (small : p ≤ 55) :
    (Numeral.tenPow p).Near (1 / 2 ^ 53) (10 ^ p) ∧ 1 / 2 ≤ (Numeral.tenPow p).value ∧
      (Numeral.tenPow p).value ≤ 2 * 10 ^ 55 := by
  have one : (1 : ℚ) ≤ 10 ^ p := one_le_pow₀ (by norm_num)
  have top : (10 : ℚ) ^ p ≤ 10 ^ 55 := pow_le_pow_right₀ (by norm_num) small
  have near : (Numeral.tenPow p).Near (1 / 2 ^ 53) (10 ^ p) :=
    near_ofRatio false Nat.one_pos (by simp) (by linarith) (by linarith)
  have error := abs_le.1 near.error
  exact ⟨near, by linarith, by linarith⟩

end Double

namespace Numeral

open Binary

/-- The errors of a power of ten and of the operation by it add up. -/
theorem near_product {a t D : ℚ} {y : Double} (near : y.Near (1 / 2 ^ 53) (a * t))
    (power : |D - t| ≤ 1 / 2 ^ 53 * t) (pos : 0 ≤ a) : y.Near (9 / 2 ^ 55) (a * D) := by
  refine ⟨near.finite, ?_⟩
  obtain ⟨low, high⟩ := abs_le.1 near.error
  obtain ⟨least, most⟩ := abs_le.1 power
  have upper : a * D ≤ a * (t + 1 / 2 ^ 53 * t) := mul_le_mul_of_nonneg_left (by linarith) pos
  have lower : a * (t - 1 / 2 ^ 53 * t) ≤ a * D := mul_le_mul_of_nonneg_left (by linarith) pos
  have nonneg := y.value_nonneg
  rw [abs_le]
  constructor <;> linarith

theorem near_quotient {a t D : ℚ} {y : Double} (near : y.Near (1 / 2 ^ 53) (a / t))
    (power : |D - t| ≤ 1 / 2 ^ 53 * t) (pos : 0 < t) (nonneg : 0 ≤ a) : y.Near (9 / 2 ^ 55) (a / D) := by
  refine ⟨near.finite, ?_⟩
  obtain ⟨low, high⟩ := abs_le.1 near.error
  obtain ⟨least, most⟩ := abs_le.1 power
  have positive : 0 < D := by linarith
  have quotient : 0 ≤ a / D := by positivity
  have parts : a / D * D = a / t * t := by field_simp
  have upper : a / D * (t - 1 / 2 ^ 53 * t) ≤ a / t * t := by
    rw [← parts]
    exact mul_le_mul_of_nonneg_left (by linarith) quotient
  have lower : a / t * t ≤ a / D * (t + 1 / 2 ^ 53 * t) := by
    rw [← parts]
    exact mul_le_mul_of_nonneg_left (by linarith) quotient
  have above : a / D * (1 - 1 / 2 ^ 53) ≤ a / t := le_of_mul_le_mul_right (by linarith) pos
  have below : a / t ≤ a / D * (1 + 1 / 2 ^ 53) := le_of_mul_le_mul_right (by linarith) pos
  have value := y.value_nonneg
  rw [abs_le]
  constructor <;> linarith

/-- Scaling a short natural is off by at most two roundings. -/
theorem scale?_near {n : Nat} {power : Int} (some : 0 < n) (short : n ≤ 2 ^ 53) (low : -55 ≤ power)
    (high : power ≤ 55) :
    ∃ y : Double, scale? (Binary.ofNat n) power = Option.some y ∧ y.negative = false ∧
      y.Near (9 / 2 ^ 55) (n * 10 ^ power) := by
  have exact := isExactly_ofNat short
  have step := BinaryFormat.stepsInOne_pos .double
  have nonzero : (Binary.ofNat n : Double).magnitude ≠ 0 :=
    mt exact.magnitude_eq_zero_iff.1 (Nat.mul_pos some step).ne'
  have least : (1 : ℚ) ≤ n := by exact_mod_cast some
  have most : (n : ℚ) ≤ 2 ^ 53 := by exact_mod_cast short
  rcases le_or_gt 0 power with up | below
  · obtain ⟨p, rfl⟩ := Int.eq_ofNat_of_zero_le up
    obtain ⟨ten, half, double⟩ := Double.near_tenPow (p := p) (by omega)
    have near : (Binary.ofNat n * tenPow p).Near (1 / 2 ^ 53) (n * (tenPow p).value) := by
      rw [exact.mul_eq ⟨ten.finite, rfl⟩]
      refine Double.near_ofRatio _ (Nat.mul_pos step step) (product_eq_value n _) ?_ ?_
      · clear step
        nlinarith
      · clear step
        nlinarith
    refine ⟨_, ?_, ?_, near_product near ten.error (by positivity)⟩
    · rw [scale?, if_neg nonzero, if_pos up, if_pos (by unfold greatestPower; omega), Int.toNat_natCast]
      dsimp only
      rw [Binary.isInfinite, beq_false_of_ne near.finite.ne]
      rfl
    · rw [exact.mul_eq ⟨ten.finite, rfl⟩]
      rfl
  · obtain ⟨p, rfl⟩ : ∃ p : Nat, power = -p := ⟨(-power).toNat, by omega⟩
    obtain ⟨ten, half, double⟩ := Double.near_tenPow (p := p) (by omega)
    have positive : 0 < (tenPow p).value := by linarith
    have units : 0 < (tenPow p).units := by
      refine Nat.pos_of_ne_zero fun none => positive.ne' ?_
      rw [Binary.value, BinaryFormat.value, show BinaryFormat.double.units (tenPow p).magnitude = 0 from none,
        Nat.cast_zero, zero_div]
    have near : (Binary.ofNat n / tenPow p).Near (1 / 2 ^ 53) (n / (tenPow p).value) := by
      rw [exact.div_eq ⟨ten.finite, rfl⟩ units.ne']
      refine Double.near_ofRatio _ units (quotient_eq_value n positive) ?_ ?_
      · rw [div_le_div_iff₀ (by positivity) positive]
        linarith
      · rw [div_le_iff₀ positive]
        linarith
    have inverse : (n * 10 ^ (-p : Int) : ℚ) = n / 10 ^ p := by rw [zpow_neg, zpow_natCast, div_eq_mul_inv]
    refine ⟨_, ?_, ?_, inverse ▸ near_quotient near ten.error positive (by positivity)⟩
    · rw [scale?, if_neg nonzero, if_neg (Int.not_le.2 below), if_pos (by unfold greatestPower; omega), neg_neg,
        Int.toNat_natCast]
    · rw [exact.div_eq ⟨ten.finite, rfl⟩ units.ne']
      rfl

/-- A numeral with few digits is read as a number near it. -/
theorem double?_near {x : Numeral} {n : Nat} {power : Int} (leading : x.leading = (n, power)) (some : 0 < n)
    (short : n ≤ 2 ^ 53) (low : -55 ≤ power) (high : power ≤ 55) :
    ∃ y : Double, x.double? = Option.some y ∧ y.negative = x.negative ∧ y.Near (9 / 2 ^ 55) (n * 10 ^ power) := by
  obtain ⟨y, read, sign, near⟩ := scale?_near some short low high
  rw [double?, leading]
  dsimp only
  rw [read, Option.map_some]
  cases x.negative
  · exact ⟨y, rfl, sign, near⟩
  · refine ⟨y.neg, rfl, ?_, near.finite, near.error⟩
    rw [Binary.neg, sign]
    rfl

end Numeral

end Inlining
