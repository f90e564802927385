import Mathlib
import Inlining.Constant
import Inlining.Proofs.Fractions
import Inlining.Proofs.Numerals

/-!
# Floats that survive

The reader makes a 64-bit number of every numeral with a point. If the digits and the power of ten are small it
is the number nearest to the decimal (`Binary.double?_numeral`), so a 64-bit number that is written shortly is
read as itself (`Binary.double?_of_short`). For a 32-bit number it is at least near the decimal
(`Binary.double?_single`), and that is enough: the decimal is clear of the middles beside the number, or a
middle that is read exactly (`Binary.beyond_iff_of_near`). So every finite 32-bit number survives
(`Binary.single?_of_finite`); the two decimals for which this says nothing are read one by one.
-/

namespace Inlining

namespace Binary

variable {fmt : BinaryFormat}

/-- The decimal that a number is written as. -/
def decimal (style : DecimalStyle) (x : Binary fmt) : Decimal := fmt.shortest style.tie x.magnitude

theorem writes_numeral (style : DecimalStyle) (x : Binary fmt) :
    (x.decimal style).Writes x.negative (x.numeral style) (style.zeros (x.decimal style)) :=
  style.writes x.negative (x.decimal style)

/-- The number as it is written has few digits, and a power of ten that is a number of its own. -/
def Short (style : DecimalStyle) (x : Binary fmt) : Prop :=
  (x.decimal style).digits * 10 ^ style.zeros (x.decimal style) ≤ 2 ^ 53 ∧
    -22 ≤ (x.decimal style).exponent - style.zeros (x.decimal style) ∧
    (x.decimal style).exponent - style.zeros (x.decimal style) ≤ 22

instance (style : DecimalStyle) (x : Binary fmt) : Decidable (x.Short style) :=
  inferInstanceAs (Decidable (_ ∧ _ ∧ _))

/-- The zeros written behind a decimal do not change its value. -/
theorem scaled_eq (d : Decimal) (z : Nat) :
    d.digits * 10 ^ z * 10 ^ (d.exponent - z).toNat * d.den = d.num * 10 ^ (-(d.exponent - z)).toNat := by
  have powers : z + (d.exponent - z).toNat + (-d.exponent).toNat =
      d.exponent.toNat + (-(d.exponent - z)).toNat := by omega
  rw [Decimal.den, Decimal.num, Nat.mul_assoc, Nat.mul_assoc, Nat.mul_assoc, ← Nat.pow_add, ← Nat.pow_add,
    ← Nat.pow_add, ← Nat.add_assoc, powers]

/-- A short numeral is read as the number nearest to the decimal. -/
theorem double?_numeral {style : DecimalStyle} {x : Binary fmt} (short : x.Short style) :
    (x.numeral style).double? =
      some (ofRatio x.negative (x.decimal style).num (x.decimal style).den) := by
  obtain ⟨few, low, high⟩ := short
  have leading := (x.writes_numeral style).leading BinaryFormat.shortest_exponent_of_digits
    (few.trans (by decide))
  rw [Numeral.double?_eq leading few low high, (x.writes_numeral style).sign]
  have down : 0 < 10 ^ (-((x.decimal style).exponent - style.zeros (x.decimal style))).toNat :=
    Nat.pow_pos (by decide)
  rw [ofRatio_congr double_bits x.negative down (x.decimal style).den_pos (scaled_eq _ _)]

/-- A 64-bit number that is written shortly survives. -/
theorem double?_of_short {x : Double} (finite : x.isFinite) (short : x.Short .jsonDouble) :
    (x.numeral .jsonDouble).double? = some x := by
  have word : (ofRatio x.negative (x.decimal .jsonDouble).num (x.decimal .jsonDouble).den : Double).magnitude =
      x.magnitude :=
    magnitude_of_readsBack double_bits _ (of_decide_eq_true finite).le (BinaryFormat.readsBack_shortest _ _)
  rw [double?_numeral short]
  exact congrArg some (ext_of_magnitude (negative_ofRatio ..) word)

end Binary

namespace BinaryFormat

variable {w v : Nat}

theorem halfStep_single (v : Nat) : single.halfStep v = 2 ^ ((single.scale v : Int) - 150) := by
  rw [halfStep, steps_single, zpow_sub₀ (by norm_num), zpow_natCast]
  norm_num

/-- A middle is an odd natural times a power of two. -/
theorem middle_single (v : Nat) :
    single.middle v = (2 * single.significand v + 1 : Nat) * 2 ^ ((single.scale v : Int) - 150) := by
  rw [middle_eq_mul, halfStep_single]
  push_cast
  rfl

theorem scale_le_single (below : v < single.infinite) : single.scale v ≤ 253 := by
  have : v / single.fractions < 255 := (Nat.div_lt_iff_lt_mul single.fractions_pos).2 below
  unfold scale
  omega

/-- The powers of ten of the decimals of 32-bit numbers. -/
theorem exponent_shortest (tie : Tie) (finite : w + 1 < single.infinite) :
    -53 ≤ (single.shortest tie (w + 1)).exponent ∧ (single.shortest tie (w + 1)).exponent ≤ 38 := by
  have digits := digits_shortest_lt tie finite
  have some : 0 < (single.shortest tie (w + 1)).digits :=
    digits_pos_of_readsBack (Nat.succ_pos w) (readsBack_shortest tie (w + 1))
  obtain ⟨low, high⟩ := middle_le_shortest tie w
  have scale := scale_le_single finite
  have size := middle_le_halfStep (w + 1)
  have lowest : (2 : ℚ) ^ (-150 : Int) ≤ single.middle w := by
    have nonneg : (0 : ℚ) ≤ single.value w := by unfold value; positivity
    have step : (2 : ℚ) ^ (-150 : Int) ≤ single.halfStep w := by
      rw [halfStep_single]
      exact zpow_le_zpow_right₀ (by norm_num) (by omega)
    rw [single.middle_eq]
    linarith
  have highest : single.halfStep (w + 1) ≤ 2 ^ (103 : Int) := by
    rw [halfStep_single]
    exact zpow_le_zpow_right₀ (by norm_num) (by omega)
  generalize single.shortest tie (w + 1) = d at *
  have positive : (0 : ℚ) < 10 ^ d.exponent := by positivity
  have value : d.value = d.digits * 10 ^ d.exponent := rfl
  have one : (1 : ℚ) ≤ d.digits := by exact_mod_cast some
  have most : (d.digits : ℚ) ≤ 2 ^ 29 := by exact_mod_cast digits.le
  constructor
  · by_contra! tiny
    have power : (10 : ℚ) ^ d.exponent ≤ 10 ^ (-54 : Int) := zpow_le_zpow_right₀ (by norm_num) (by omega)
    have gap : (2 : ℚ) ^ 29 * 10 ^ (-54 : Int) < 2 ^ (-150 : Int) := by norm_num
    nlinarith
  · by_contra! huge
    have power : (10 : ℚ) ^ (39 : Int) ≤ 10 ^ d.exponent := zpow_le_zpow_right₀ (by norm_num) (by omega)
    have gap : (2 : ℚ) ^ 25 * 2 ^ (103 : Int) < 10 ^ (39 : Int) := by norm_num
    nlinarith

/-- A number near a decimal is on the same side of a middle that is not almost the decimal. -/
theorem beyond_congr {y q : ℚ} (near : |q - y| ≤ 9 / 2 ^ 55 * y) (clear : ¬ AlmostMiddle v q) :
    single.Beyond v y ↔ single.Beyond v q := by
  have middle : 0 < single.middle v := by
    have := single.halfStep_pos v
    rw [middle_eq_mul]
    positivity
  obtain ⟨low, high⟩ := abs_le.1 near
  rw [AlmostMiddle, sliver, not_le, lt_abs] at clear
  unfold Beyond
  rcases clear with above | below
  · have left : single.middle v < y := by linarith
    have right : single.middle v < q := by linarith
    simp only [left, right, true_or]
  · have left : y < single.middle v := by linarith
    have right : q < single.middle v := by linarith
    simp only [left.not_gt, right.not_gt, left.ne', right.ne', false_and, or_self]

end BinaryFormat

/-! ## How 32-bit numbers are written and read -/

namespace DecimalStyle

/-- Whole 32-bit numbers are written in full only if they are short. -/
theorem zeros_jsonSingle {d : Decimal} (some : 0 < d.digits) (few : d.digits ≤ 2 ^ 53) :
    d.digits * 10 ^ jsonSingle.zeros d ≤ 2 ^ 53 ∧
      (jsonSingle.zeros d = 0 ∨ d.exponent - jsonSingle.zeros d = -1) := by
  unfold zeros
  split
  next whole =>
    obtain ⟨positional, integer⟩ := whole
    have last : d.first ≤ 12 := by
      simp only [jsonSingle, Bool.and_eq_true, decide_eq_true_eq] at positional
      exact positional.2
    have zeros : d.wholeZeros = d.exponent.toNat := if_neg some.ne'
    have digits : d.digits ≤ 10 ^ (Nat.toDigits 10 d.digits).length :=
      ((Nat.length_toDigits_le_iff (by decide) Nat.length_toDigits_pos).1 le_rfl).le
    have point : (if jsonSingle.pointZero = true then 1 else 0) = 1 := rfl
    rw [zeros, point]
    constructor
    · calc d.digits * 10 ^ (d.exponent.toNat + 1)
          ≤ 10 ^ (Nat.toDigits 10 d.digits).length * 10 ^ (d.exponent.toNat + 1) := Nat.mul_le_mul_right _ digits
        _ = 10 ^ ((Nat.toDigits 10 d.digits).length + (d.exponent.toNat + 1)) := (pow_add ..).symm
        _ ≤ 10 ^ 14 := Nat.pow_le_pow_right (by decide) (by unfold Decimal.first at last; omega)
        _ ≤ 2 ^ 53 := by decide
    · omega
  next => exact ⟨by rwa [pow_zero, Nat.mul_one], .inl rfl⟩

end DecimalStyle

namespace Binary

variable {x : Single} {w : Nat}

/-- What a 32-bit number is first read as: a 64-bit number near the decimal, the nearest if the power of ten is
small. -/
theorem double?_single (word : x.magnitude = w + 1) (finite : w + 1 < BinaryFormat.single.infinite) :
    ∃ y : Double, (x.numeral .jsonSingle).double? = some y ∧ y.negative = x.negative ∧
      y.Near (9 / 2 ^ 55) (x.decimal .jsonSingle).value ∧
      ((x.decimal .jsonSingle).exponent.natAbs ≤ 22 →
        y = ofRatio x.negative (x.decimal .jsonSingle).num (x.decimal .jsonSingle).den) := by
  have writes := x.writes_numeral .jsonSingle
  have shorten := @double?_numeral _ .jsonSingle x
  have exponent := BinaryFormat.exponent_shortest .toEven finite
  have digits := BinaryFormat.digits_shortest_lt .toEven finite
  have some : 0 < (BinaryFormat.single.shortest .toEven (w + 1)).digits :=
    BinaryFormat.digits_pos_of_readsBack (Nat.succ_pos w) (BinaryFormat.readsBack_shortest _ _)
  have decimal : x.decimal .jsonSingle = BinaryFormat.single.shortest .toEven (w + 1) := by rw [← word]; rfl
  unfold Short at shorten
  rw [decimal] at writes shorten ⊢
  generalize BinaryFormat.single.shortest .toEven (w + 1) = d at *
  obtain ⟨short, zeros⟩ := DecimalStyle.zeros_jsonSingle some (digits.le.trans (by decide))
  have leading := writes.leading (fun none => absurd none some.ne') (short.trans (by decide))
  have value : ((d.digits * 10 ^ DecimalStyle.jsonSingle.zeros d : Nat) : ℚ) *
      10 ^ (d.exponent - DecimalStyle.jsonSingle.zeros d) = d.value := by
    rw [Decimal.value, zpow_sub₀ (by norm_num), zpow_natCast]
    push_cast
    field_simp
  obtain ⟨y, read, sign, near⟩ :=
    Numeral.double?_near leading (Nat.mul_pos some (Nat.pow_pos (by decide))) short (by omega) (by omega)
  refine ⟨y, read, sign.trans writes.sign, value ▸ near, fun small => ?_⟩
  have nearest := shorten ⟨short, by omega, by omega⟩
  rw [read] at nearest
  exact Option.some.inj nearest

theorem steps_double : (BinaryFormat.double.stepsInOne : ℚ) = 2 ^ (1074 : Int) := by
  have bits : BinaryFormat.double.stepBits = 1074 := by decide
  rw [BinaryFormat.stepsInOne_eq, bits, Nat.cast_pow]
  exact (zpow_natCast _ _).symm

/-- A middle between 32-bit numbers is a 64-bit number, so a decimal that is one is read as it. -/
theorem value_of_middle {d : Decimal} {v : Nat} (negative : Bool) (below : v < BinaryFormat.single.infinite)
    (same : d.value = BinaryFormat.single.middle v) :
    (ofRatio negative d.num d.den : Double).value = d.value := by
  have scale := BinaryFormat.scale_le_single below
  have short : 2 * BinaryFormat.single.significand v + 1 ≤ 2 * BinaryFormat.double.fractions := by
    have significand := BinaryFormat.significand_lt_single v
    have fractions : BinaryFormat.double.fractions = 2 ^ 52 := rfl
    omega
  rw [BinaryFormat.middle_single] at same
  have power : (2 : ℚ) ^ ((BinaryFormat.single.scale v : Int) - 150) * 2 ^ (1074 : Int) =
      2 ^ (BinaryFormat.single.scale v + 924) := by
    rw [← zpow_natCast, ← zpow_add₀ (by norm_num)]
    congr 1
    push_cast
    ring
  generalize BinaryFormat.single.scale v = s at *
  generalize 2 * BinaryFormat.single.significand v + 1 = T at *
  have den : (d.den : ℚ) ≠ 0 := by exact_mod_cast d.den_pos.ne'
  have exact : d.num * BinaryFormat.double.stepsInOne = T * 2 ^ (s + 924) * d.den := by
    rw [← d.num_div_den, div_eq_iff den] at same
    rw [← Nat.cast_inj (R := ℚ)]
    push_cast
    rw [steps_double, same, ← power]
    ring
  have bits : s + 924 + 3 < 2 ^ BinaryFormat.double.exponentBits := by
    have exponents : 2 ^ BinaryFormat.double.exponentBits = 2048 := by decide
    omega
  have units := (isExactly_ofRatio double_bits negative d.den_pos short bits exact).units
  refine mul_right_cancel₀ BinaryFormat.double.steps_pos.ne' ?_
  rw [← units_eq_value, units, same, steps_double, mul_assoc, power]
  push_cast
  rfl

/-- The 32-bit number nearest to a finite 64-bit number. -/
theorem convert_eq {y : Double} (finite : y.magnitude < BinaryFormat.double.infinite) :
    y.convert .single = ofRatio y.negative y.units BinaryFormat.double.stepsInOne := by
  have number : y.isNaN = false := decide_eq_false (Nat.not_lt.2 finite.le)
  have notInfinite : y.isInfinite = false := beq_false_of_ne finite.ne
  rw [convert, number, notInfinite]
  rfl

theorem negative_convert {y : Double} (finite : y.magnitude < BinaryFormat.double.infinite) :
    (y.convert .single).negative = y.negative := by
  rw [convert_eq finite, negative_ofRatio]

/-- A 64-bit number past one middle and not past the next becomes the 32-bit number between them. -/
theorem magnitude_convert {y : Double} {w : Nat} (finite : y.magnitude < BinaryFormat.double.infinite)
    (below : w + 1 ≤ BinaryFormat.single.infinite) (past : BinaryFormat.single.Beyond w y.value)
    (notPast : ¬ BinaryFormat.single.Beyond (w + 1) y.value) : (y.convert .single).magnitude = w + 1 := by
  have steps := BinaryFormat.stepsInOne_pos .double
  have place (v : Nat) : BinaryFormat.single.Past v (y.units * BinaryFormat.single.stepsInOne)
      BinaryFormat.double.stepsInOne ↔ BinaryFormat.single.Beyond v y.value := by
    rw [BinaryFormat.past_iff _ _ steps, units_eq_value,
      mul_div_cancel_right₀ _ BinaryFormat.double.steps_pos.ne']
  rw [convert_eq finite]
  refine magnitude_eq_of_past (by decide) _ steps below ?_ ((place _).not.2 notPast)
  rintro v same
  obtain rfl := Nat.succ.inj same
  exact (place v).2 past

/-- The numbers that are written as one of the two decimals, and those after them. -/
def closeWords : List Nat := [363742205, 363742206, 372130813, 372130814]

theorem word_of_close {d v : Nat} {k : Int}
    (close : Decimal.Close d k (2 * BinaryFormat.single.significand v + 1)
      ((BinaryFormat.single.scale v : Int) - 150)) :
    v = 363742205 ∨ v = 372130813 := by
  have parts := BinaryFormat.single.word_eq v
  have fractions : BinaryFormat.single.fractions = 8388608 := by decide
  rw [fractions] at parts
  generalize middle : 2 * BinaryFormat.single.significand v + 1 = T at close
  generalize power : (BinaryFormat.single.scale v : Int) - 150 = e at close
  cases close <;> omega

theorem read_closeWords : ∀ negative, ∀ w ∈ closeWords,
    ((DecimalStyle.jsonSingle.numeral negative (BinaryFormat.single.shortest .toEven w)).single?.map
      fun x => (x.negative, x.magnitude)) = some (negative, w) := by
  decide +kernel

/-- A number near the decimal of a 32-bit number lies on the same side of the middles beside that number. -/
theorem beyond_iff_of_near {w v : Nat} {d : Decimal} {y : ℚ}
    (shortest : BinaryFormat.single.shortest .toEven (w + 1) = d) (finite : w + 1 < BinaryFormat.single.infinite)
    (notClose : w + 1 ∉ closeWords) (beside : v = w ∨ v = w + 1) (near : |d.value - y| ≤ 9 / 2 ^ 55 * y)
    (exact : d.exponent.natAbs ≤ 22 → d.value = BinaryFormat.single.middle v → y = d.value) :
    BinaryFormat.single.Beyond v y ↔ BinaryFormat.single.Beyond v d.value := by
  by_cases almost : BinaryFormat.AlmostMiddle v d.value
  case neg => exact BinaryFormat.beyond_congr near almost
  subst shortest
  have few : (BinaryFormat.single.shortest .toEven (w + 1)).digits ≤ Decimal.digitLimit := by
    rcases beside with rfl | rfl
    · exact BinaryFormat.digits_of_almost_below .toEven finite almost
    · exact BinaryFormat.digits_of_almost_above .toEven finite almost
  have some : 0 < (BinaryFormat.single.shortest .toEven (w + 1)).digits :=
    BinaryFormat.digits_pos_of_readsBack (Nat.succ_pos w) (BinaryFormat.readsBack_shortest _ _)
  obtain ⟨low, high⟩ := BinaryFormat.exponent_shortest .toEven finite
  have significand := BinaryFormat.significand_lt_single v
  rcases Decimal.clear_or_close (e := (BinaryFormat.single.scale v : Int) - 150) low high some few
      (Nat.succ_pos (2 * BinaryFormat.single.significand v)) (by omega) with clear | ⟨small, same⟩ | close
  · rw [← BinaryFormat.middle_single] at clear
    exact absurd clear (not_lt.2 almost)
  · rw [exact small (same.trans (BinaryFormat.middle_single v).symm)]
  · refine absurd ?_ notClose
    simp only [closeWords, List.mem_cons, List.not_mem_nil, or_false]
    have := word_of_close close
    omega

/-- Zero is read as zero and keeps its sign. -/
theorem double?_of_zero {x : Single} (zero : x.magnitude = 0) :
    ∃ y : Double, (x.numeral .jsonSingle).double? = some y ∧ y.negative = x.negative ∧ y.magnitude = 0 := by
  have decimal : x.decimal .jsonSingle = ⟨0, 0⟩ := by
    rw [Binary.decimal, zero, BinaryFormat.shortest_zero]
  have short : x.Short .jsonSingle := by
    rw [Short, decimal]
    decide
  have read := double?_numeral short
  rw [decimal] at read
  exact ⟨_, read, rfl, magnitude_ofRatio_zero double_bits x.negative (Decimal.den_pos _)⟩

/-- **Every finite 32-bit number survives.** -/
theorem single?_of_finite {x : Single} (finite : x.isFinite) : (x.numeral .jsonSingle).single? = some x := by
  have below : x.magnitude < BinaryFormat.single.infinite := of_decide_eq_true finite
  have fraction : (x.numeral .jsonSingle).int? = none := DecimalStyle.int?_numeral rfl _ _
  cases word : x.magnitude with
  | zero =>
    obtain ⟨y, read, sign, zero⟩ := double?_of_zero word
    have small : y.magnitude < BinaryFormat.double.infinite := zero ▸ (by decide)
    have units : y.units = 0 := by rw [Binary.units, zero, BinaryFormat.units_zero]
    rw [Numeral.single?, fraction, read]
    refine congrArg some ?_
    rw [convert_eq small, units]
    exact ext_of_magnitude (by rw [negative_ofRatio, sign])
      ((magnitude_ofRatio_zero (by decide) _ (BinaryFormat.stepsInOne_pos _)).trans word.symm)
  | succ w =>
    by_cases close : w + 1 ∈ closeWords
    · obtain ⟨y, read, same⟩ := Option.map_eq_some_iff.1 (read_closeWords x.negative (w + 1) close)
      rw [← word] at read
      obtain ⟨sign, magnitude⟩ := Prod.ext_iff.1 same
      exact read.trans (congrArg some (ext_of_magnitude sign (magnitude.trans word.symm)))
    · rw [word] at below
      obtain ⟨y, read, sign, near, nearest⟩ := double?_single word below
      have decimal : BinaryFormat.single.shortest .toEven (w + 1) = x.decimal .jsonSingle := by rw [← word]; rfl
      have reads : BinaryFormat.single.readsBack (w + 1) (x.decimal .jsonSingle) = true :=
        decimal ▸ BinaryFormat.readsBack_shortest .toEven (w + 1)
      have place {v : Nat} (beside : v = w ∨ v = w + 1) :
          BinaryFormat.single.Beyond v y.value ↔
            BinaryFormat.single.Beyond v (x.decimal .jsonSingle).value := by
        refine beyond_iff_of_near decimal below close beside near.error fun small same => ?_
        rw [nearest small]
        have inside : v < BinaryFormat.single.infinite :=
          (beside.elim (fun h => h ▸ Nat.le_succ w) fun h => h.le).trans_lt below
        exact value_of_middle _ inside same
      obtain ⟨past, notPast⟩ := BinaryFormat.readsBack_iff_beyond.1 reads
      rw [Numeral.single?, fraction, read]
      refine congrArg some (ext_of_magnitude ((negative_convert near.finite).trans sign) ?_)
      exact (magnitude_convert near.finite below.le ((place (.inl rfl)).2 past)
        ((place (.inr rfl)).not.2 notPast)).trans word.symm

end Binary

end Inlining
