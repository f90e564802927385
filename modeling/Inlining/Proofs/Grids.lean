import Mathlib
import Inlining.Proofs.Errors
import Inlining.Proofs.Shortest

/-!
# Grids of decimals

The search for the shortest decimal of a number goes from coarse grids of decimals to fine ones and takes the
neighbour of the number that reads back, the nearer if both do (`BinaryFormat.Neighbour`). A grid is not passed
over if it is finer than half a step (`BinaryFormat.onGrid_ne_none`), hence the decimal found for a 32-bit
number has few digits (`BinaryFormat.digits_shortest_lt`). If it is almost in the middle between two numbers,
the grid must be coarse, for the other neighbour would be nearer else: then it has still fewer digits
(`BinaryFormat.digits_of_almost_below`, `BinaryFormat.digits_of_almost_above`).
-/

namespace Inlining

/-- The value of a decimal. -/
def Decimal.value (d : Decimal) : ℚ := d.digits * 10 ^ d.exponent

theorem Decimal.num_div_den (d : Decimal) : (d.num / d.den : ℚ) = d.value := by
  unfold num den value
  push_cast
  rcases le_total 0 d.exponent with up | down
  · obtain ⟨k, hk⟩ := Int.eq_ofNat_of_zero_le up
    rw [hk]
    simp
  · obtain ⟨k, hk⟩ := Int.exists_eq_neg_ofNat down
    rw [hk]
    simp [div_eq_mul_inv]

namespace BinaryFormat

variable {fmt : BinaryFormat} {w : Nat} {d : Decimal} {tie : Tie} {power : Int}

theorem readsBack_iff_beyond :
    fmt.readsBack (w + 1) d = true ↔ fmt.Beyond w d.value ∧ ¬ fmt.Beyond (w + 1) d.value := by
  rw [readsBack_iff (Nat.succ_pos w), fmt.past_iff _ d.den_pos, fmt.past_iff _ d.den_pos, d.num_div_den]
  rfl

theorem readsBack_of_between (low : fmt.middle w < d.value) (high : d.value < fmt.middle (w + 1)) :
    fmt.readsBack (w + 1) d = true := by
  refine readsBack_iff_beyond.2 ⟨.inl low, ?_⟩
  rintro (above | ⟨same, -⟩)
  · exact absurd above (not_lt.2 high.le)
  · exact absurd same high.ne'

theorem between_of_readsBack (reads : fmt.readsBack (w + 1) d = true) :
    fmt.middle w ≤ d.value ∧ d.value ≤ fmt.middle (w + 1) := by
  obtain ⟨low, high⟩ := readsBack_iff_beyond.1 reads
  exact ⟨low.elim le_of_lt fun h => h.1.le, le_of_not_gt fun above => high (.inl above)⟩

/-- A decimal next to a number on the grid of its power: the one below or the one above. If the other one reads
back as well, the decimal is the nearer of the two. -/
inductive Neighbour (fmt : BinaryFormat) (w : Nat) (d : Decimal) : Prop where
  | below (le : d.value ≤ fmt.value w) (lt : fmt.value w < d.value + 10 ^ d.exponent)
      (nearer : fmt.readsBack w ⟨d.digits + 1, d.exponent⟩ = true →
        2 * (fmt.value w - d.value) ≤ 10 ^ d.exponent)
  | above (n : Nat) (digits : d.digits = n + 1) (lt : fmt.value w < d.value)
      (le : d.value - 10 ^ d.exponent ≤ fmt.value w)
      (nearer : fmt.readsBack w ⟨n, d.exponent⟩ = true → 2 * (d.value - fmt.value w) ≤ 10 ^ d.exponent)

/-- The quotient of which a grid holds the neighbours. -/
theorem grid_quotient (fmt : BinaryFormat) (w : Nat) (power : Int) :
    ((fmt.units w * Nat.pow 10 (-power).toNat : Nat) / (Nat.pow 10 power.toNat * fmt.stepsInOne : Nat) : ℚ) *
      10 ^ power = fmt.value w := by
  have := fmt.steps_pos.ne'
  have ten : (10 : ℚ) ≠ 0 := by norm_num
  unfold value
  change ((fmt.units w * 10 ^ (-power).toNat : Nat) / (10 ^ power.toNat * fmt.stepsInOne : Nat) : ℚ) *
      10 ^ power = _
  push_cast
  rcases le_total 0 power with up | down
  · obtain ⟨k, rfl⟩ := Int.eq_ofNat_of_zero_le up
    simp
    field_simp
  · obtain ⟨k, rfl⟩ := Int.exists_eq_neg_ofNat down
    simp
    field_simp

theorem round_near (tie : Tie) (num den : Nat) :
    (tie.round num den = num / den ∧ 2 * (num % den) ≤ den) ∨
      tie.round num den = num / den + 1 ∧ den ≤ 2 * (num % den) := by
  unfold Tie.round
  dsimp only
  split
  next less => exact .inl ⟨rfl, less.le⟩
  next notLess =>
    split
    next more => exact .inr ⟨rfl, more.le⟩
    next notMore =>
      have half : 2 * (num % den) = den := by omega
      cases tie
      · rcases Nat.mod_two_eq_zero_or_one (num / den) with even | odd
        · exact .inl ⟨by dsimp only; omega, half.le⟩
        · exact .inr ⟨by dsimp only; omega, half.ge⟩
      · exact .inr ⟨rfl, half.ge⟩

/-- The part of a step by which a quotient lies above a natural. -/
theorem exists_part (num : Nat) {den : Nat} (pos : 0 < den) :
    ∃ part : ℚ, 0 ≤ part ∧ part < 1 ∧ (num / den : ℚ) = (num / den : Nat) + part ∧
      (2 * (num % den) ≤ den → 2 * part ≤ 1) ∧ (den ≤ 2 * (num % den) → 1 ≤ 2 * part) := by
  have cast : (0 : ℚ) < den := by exact_mod_cast pos
  have rest : ((num % den : Nat) : ℚ) < den := by exact_mod_cast Nat.mod_lt num pos
  have split : (num : ℚ) = den * (num / den : Nat) + (num % den : Nat) := by
    exact_mod_cast (Nat.div_add_mod num den).symm
  refine ⟨(num % den : Nat) / den, by positivity, (div_lt_one cast).2 rest, ?_, fun h => ?_, fun h => ?_⟩
  · rw [split]
    field_simp
  · have : ((2 * (num % den) : Nat) : ℚ) ≤ den := by exact_mod_cast h
    push_cast at this
    rw [← mul_div_assoc, div_le_one cast]
    exact this
  · have : (den : ℚ) ≤ (2 * (num % den) : Nat) := by exact_mod_cast h
    push_cast at this
    rw [← mul_div_assoc, one_le_div cast]
    exact this

/-- What is found on a grid. -/
theorem neighbour_onGrid (found : fmt.onGrid? tie w power = some d) : d.exponent = power ∧ fmt.Neighbour w d := by
  have quotient := fmt.grid_quotient w power
  have den_pos : 0 < Nat.pow 10 power.toNat * fmt.stepsInOne :=
    Nat.mul_pos (Nat.pow_pos (by decide)) fmt.stepsInOne_pos
  have grid : (0 : ℚ) < 10 ^ power := by positivity
  unfold onGrid? at found
  dsimp only at found
  generalize fmt.units w * Nat.pow 10 (-power).toNat = num at *
  generalize Nat.pow 10 power.toNat * fmt.stepsInOne = den at *
  obtain ⟨part, nonneg, less, parts, half⟩ := exists_part num den_pos
  have parts : fmt.value w = ((num / den : Nat) + part) * 10 ^ power := by rw [← quotient, parts]
  have below (reads : fmt.readsBack w ⟨num / den + 1, power⟩ = true → 2 * (num % den) ≤ den) :
      fmt.Neighbour w ⟨num / den, power⟩ := by
    refine .below ?_ ?_ fun h => ?_ <;> simp only [Decimal.value, parts] 
    · nlinarith
    · nlinarith
    · have := half.1 (reads h)
      nlinarith
  have above (reads : fmt.readsBack w ⟨num / den, power⟩ = true → den ≤ 2 * (num % den)) :
      fmt.Neighbour w ⟨num / den + 1, power⟩ := by
    refine .above (num / den) rfl ?_ ?_ fun h => ?_ <;> simp only [Decimal.value, parts]
    · push_cast
      nlinarith
    · push_cast
      nlinarith
    · have := half.2 (reads h)
      push_cast
      nlinarith
  split at found
  next low high =>
    obtain rfl := Option.some.inj found
    rcases round_near tie num den with ⟨round, near⟩ | ⟨round, near⟩ <;> rw [round]
    · exact ⟨rfl, below fun _ => near⟩
    · exact ⟨rfl, above fun _ => near⟩
  next low high =>
    obtain rfl := Option.some.inj found
    exact ⟨rfl, below fun h => absurd (h.symm.trans high) (by decide)⟩
  next low high =>
    obtain rfl := Option.some.inj found
    exact ⟨rfl, above fun h => absurd (h.symm.trans low) (by decide)⟩
  next => cases found

/-- On a grid that is finer than half a step, a neighbour reads back. -/
theorem onGrid_ne_none (fine : (10 : ℚ) ^ power ≤ fmt.halfStep w) : fmt.onGrid? tie (w + 1) power ≠ none := by
  have quotient := fmt.grid_quotient (w + 1) power
  have den_pos : 0 < Nat.pow 10 power.toNat * fmt.stepsInOne :=
    Nat.mul_pos (Nat.pow_pos (by decide)) fmt.stepsInOne_pos
  have grid : (0 : ℚ) < 10 ^ power := by positivity
  unfold onGrid?
  dsimp only
  generalize fmt.units (w + 1) * Nat.pow 10 (-power).toNat = num at *
  generalize Nat.pow 10 power.toNat * fmt.stepsInOne = den at *
  obtain ⟨part, nonneg, less, parts, -⟩ := exists_part num den_pos
  have reads : fmt.readsBack (w + 1) ⟨num / den, power⟩ = true := by
    have step := fmt.halfStep_pos (w + 1)
    have middle := fmt.middle_eq_sub w
    have next := fmt.middle_eq (w + 1)
    rw [← quotient, parts] at middle next
    refine readsBack_of_between ?_ ?_ <;> simp only [Decimal.value] <;> nlinarith
  rw [reads]
  cases fmt.readsBack (w + 1) ⟨num / den + 1, power⟩ <;> exact Option.some_ne_none _

/-- The first number for which there is an answer. -/
theorem exists_first {α : Type} {f : Nat → Option α} {n : Nat} {a : α}
    (found : (List.range n).findSome? f = some a) : ∃ j, f j = some a ∧ ∀ k < j, f k = none := by
  induction n with
  | zero => cases found
  | succ n ih =>
    rw [List.range_succ, List.findSome?_append] at found
    cases before : (List.range n).findSome? f with
    | some b =>
      rw [before, Option.some_or] at found
      exact ih (before.trans found)
    | none =>
      rw [before, Option.none_or, List.findSome?_singleton] at found
      exact ⟨n, found, fun k less => List.findSome?_eq_none_iff.1 before k (List.mem_range.2 less)⟩

/-- The search ends on a grid if one of its grids is fine enough; the grids before are not. -/
theorem shortest_onGrid (tie : Tie) {i : Nat} (bound : i < gridCount)
    (fine : (10 : ℚ) ^ (fmt.powerAbove (w + 1) - i) ≤ fmt.halfStep w) :
    ∃ j : Nat, fmt.onGrid? tie (w + 1) (fmt.powerAbove (w + 1) - j) = some (fmt.shortest tie (w + 1)) ∧
      ∀ k < j, fmt.halfStep w < 10 ^ (fmt.powerAbove (w + 1) - k) := by
  cases found : (List.range gridCount).findSome? fun (k : Nat) =>
      fmt.onGrid? tie (w + 1) (fmt.powerAbove (w + 1) - k) with
  | none =>
    exact absurd (List.findSome?_eq_none_iff.1 found i (List.mem_range.2 bound)) (onGrid_ne_none fine)
  | some d =>
    have shortest : fmt.shortest tie (w + 1) = d := by
      rw [BinaryFormat.shortest, if_neg (Nat.succ_ne_zero w)]
      dsimp only
      rw [found, Option.getD_some]
    obtain ⟨j, first, before⟩ := exists_first found
    exact ⟨j, shortest ▸ first, fun k less => lt_of_not_ge fun fine => onGrid_ne_none fine (before k less)⟩

end BinaryFormat

/-! ## The grids of the 32-bit format -/

theorem zpow_eq_div (x : ℚ) (k : Int) : x ^ k = x ^ k.toNat / x ^ (-k).toNat := by
  rcases le_total 0 k with up | down
  · obtain ⟨n, rfl⟩ := Int.eq_ofNat_of_zero_le up
    simp
  · obtain ⟨n, rfl⟩ := Int.exists_eq_neg_ofNat down
    simp

/-- Powers of ten and of two compared without fractions. -/
theorem ten_zpow_le_iff {a b : Int} :
    (10 : ℚ) ^ a ≤ 2 ^ b ↔ 10 ^ a.toNat * 2 ^ (-b).toNat ≤ 2 ^ b.toNat * 10 ^ (-a).toNat := by
  rw [zpow_eq_div 10 a, zpow_eq_div 2 b,
    div_le_div_iff₀ (by positivity) (by positivity), ← Nat.cast_le (α := ℚ)]
  push_cast
  rfl

theorem two_zpow_le_iff {a b : Int} :
    (2 : ℚ) ^ b ≤ 10 ^ a ↔ 2 ^ b.toNat * 10 ^ (-a).toNat ≤ 10 ^ a.toNat * 2 ^ (-b).toNat := by
  rw [zpow_eq_div 10 a, zpow_eq_div 2 b,
    div_le_div_iff₀ (by positivity) (by positivity), ← Nat.cast_le (α := ℚ)]
  push_cast
  rfl

namespace BinaryFormat

/-- The coarsest grid for numbers with this logarithm. -/
def topGrid (log : Nat) : Int := ((log : Int) - 147) * 30103 / 100000 + 1

/-- The coarsest grid is too coarse and the finest is fine enough, whatever the logarithm. -/
theorem grids_span : ∀ log < 277,
    10 ^ (topGrid log - 23).toNat * 2 ^ (-((log : Int) - 174)).toNat ≤
        2 ^ ((log : Int) - 174).toNat * 10 ^ (-(topGrid log - 23)).toNat ∧
      2 ^ ((log : Int) - 149).toNat * 10 ^ (-(topGrid log + 1)).toNat ≤
        10 ^ (topGrid log + 1).toNat * 2 ^ (-((log : Int) - 149)).toNat := by
  decide +kernel

variable {w : Nat}

theorem significand_lt_single (w : Nat) : single.significand w + 1 ≤ 2 ^ 24 := single.significand_lt w

/-- A number of the format is at most this many half steps. -/
theorem value_le_halfStep (w : Nat) : single.value (w + 1) ≤ 2 ^ 25 * single.halfStep w := by
  have step := single.halfStep_pos w
  have bound : (single.significand w + 1 : ℚ) ≤ 2 ^ 24 := by exact_mod_cast significand_lt_single w
  rw [single.value_succ, single.value_eq]
  nlinarith

theorem halfStep_le_value (w : Nat) : 2 * single.halfStep w ≤ single.value (w + 1) := by
  have step := single.halfStep_pos w
  have nonneg : (0 : ℚ) ≤ single.significand w := by positivity
  rw [single.value_succ, single.value_eq]
  nlinarith

theorem steps_single : (single.stepsInOne : ℚ) = 2 ^ (149 : Int) := by
  rw [single.stepsInOne_eq, Nat.cast_pow]
  rfl

/-- The logarithm of a number. -/
theorem log2_units_bounds (finite : w + 1 < single.infinite) :
    (single.units (w + 1)).log2 < 277 ∧
      (2 : ℚ) ^ (((single.units (w + 1)).log2 : Int) - 149) ≤ single.value (w + 1) ∧
      single.value (w + 1) < 2 * 2 ^ (((single.units (w + 1)).log2 : Int) - 149) := by
  have some : single.units (w + 1) ≠ 0 :=
    ((Nat.zero_le _).trans_lt (single.units_strictMono (Nat.succ_pos w))).ne'
  have below : single.units (w + 1) < 2 ^ (23 + 254) := by
    have top : single.units single.infinite = 2 ^ 23 * 2 ^ 254 := single.units_infinite (by decide)
    rw [pow_add, ← top]
    exact single.units_strictMono finite
  have low : (2 : ℚ) ^ (single.units (w + 1)).log2 ≤ single.units (w + 1) := by
    exact_mod_cast Nat.log2_self_le some
  have high : (single.units (w + 1) : ℚ) < 2 ^ ((single.units (w + 1)).log2 + 1) := by
    exact_mod_cast Nat.lt_log2_self
  have steps : (0 : ℚ) < 2 ^ (149 : Int) := by positivity
  rw [value, steps_single, zpow_sub₀ (by norm_num), zpow_natCast]
  have small := (Nat.log2_lt some).2 below
  refine ⟨small, ?_, ?_⟩
  · gcongr
  · rw [← mul_div_assoc, ← pow_succ']
    gcongr

/-- The shortest decimal of a 32-bit number is a neighbour of it on a grid that is not ten times too fine. -/
theorem neighbour_shortest (tie : Tie) (finite : w + 1 < single.infinite) :
    single.Neighbour (w + 1) (single.shortest tie (w + 1)) ∧
      single.halfStep w < 10 * 10 ^ (single.shortest tie (w + 1)).exponent := by
  obtain ⟨small, low, high⟩ := log2_units_bounds finite
  have value := value_le_halfStep w
  have less := halfStep_le_value w
  have top : single.powerAbove (w + 1) = topGrid (single.units (w + 1)).log2 := by
    have : (single.stepBits : Int) = 149 := by decide
    unfold powerAbove topGrid
    rw [this]
    congr 3
    omega
  have span := grids_span _ small
  rw [← ten_zpow_le_iff, ← two_zpow_le_iff, ← top] at span
  generalize (single.units (w + 1)).log2 = log at *
  have fine : (10 : ℚ) ^ (single.powerAbove (w + 1) - (23 : Nat)) ≤ single.halfStep w := by
    have scaled : (2 : ℚ) ^ ((log : Int) - 149) = 2 ^ 25 * 2 ^ ((log : Int) - 174) := by
      rw [← zpow_natCast, ← zpow_add₀ (by norm_num)]
      congr 1
      omega
    refine span.1.trans ?_
    rw [scaled] at low
    linarith
  obtain ⟨j, found, before⟩ := shortest_onGrid tie (i := 23) (by decide) fine
  obtain ⟨exponent, neighbour⟩ := neighbour_onGrid found
  refine ⟨neighbour, ?_⟩
  rw [exponent, ← zpow_one_add₀ (by norm_num)]
  cases j with
  | zero =>
    refine lt_of_lt_of_le ?_ (span.2.trans_eq ?_)
    · linarith
    · congr 1
      push_cast
      ring
  | succ j =>
    refine (before j (Nat.lt_succ_self j)).trans_eq ?_
    congr 1
    push_cast
    ring

/-- The shortest decimal of a 32-bit number lies between the middles to its neighbours. -/
theorem middle_le_shortest (tie : Tie) (w : Nat) :
    single.middle w ≤ (single.shortest tie (w + 1)).value ∧
      (single.shortest tie (w + 1)).value ≤ single.middle (w + 1) :=
  between_of_readsBack (readsBack_shortest tie (w + 1))

/-- The shortest decimal of a 32-bit number has few digits. -/
theorem digits_shortest_lt (tie : Tie) (finite : w + 1 < single.infinite) :
    (single.shortest tie (w + 1)).digits < 2 ^ 29 := by
  obtain ⟨-, grid⟩ := neighbour_shortest tie finite
  obtain ⟨-, high⟩ := middle_le_shortest tie w
  have value := value_le_halfStep w
  have step := single.halfStep_succ_le w
  have middle := single.middle_eq (w + 1)
  generalize single.shortest tie (w + 1) = d at *
  have positive : (0 : ℚ) < 10 ^ d.exponent := by positivity
  have bound : (d.digits : ℚ) * 10 ^ d.exponent < 2 ^ 29 * 10 ^ d.exponent := by
    have : d.value = d.digits * 10 ^ d.exponent := rfl
    linarith
  exact_mod_cast lt_of_mul_lt_mul_right bound positive.le

/-- A part of a number that is far below half a step of it. -/
def sliver : ℚ := 5 / 2 ^ 54

/-- The decimal is so near to the middle that a reader which rounds twice may take the wrong side. -/
def AlmostMiddle (w : Nat) (q : ℚ) : Prop := |q - single.middle w| ≤ sliver * single.middle w

theorem sliver_middle_le (w : Nat) : sliver * single.middle w ≤ single.halfStep w / 2 ^ 26 := by
  have step := single.halfStep_pos w
  have bound : (single.significand w + 1 : ℚ) ≤ 2 ^ 24 := by exact_mod_cast significand_lt_single w
  rw [single.middle_eq_mul, sliver]
  nlinarith

theorem middle_le_halfStep (w : Nat) : single.middle w ≤ 2 ^ 25 * single.halfStep w := by
  have step := single.halfStep_pos w
  have bound : (single.significand w + 1 : ℚ) ≤ 2 ^ 24 := by exact_mod_cast significand_lt_single w
  rw [single.middle_eq_mul]
  nlinarith

/-- A decimal that is almost in the middle below the number is on a coarse grid. -/
theorem digits_of_almost_below (tie : Tie) (finite : w + 1 < single.infinite)
    (near : AlmostMiddle w (single.shortest tie (w + 1)).value) :
    (single.shortest tie (w + 1)).digits ≤ 22370000 := by
  obtain ⟨neighbour, -⟩ := neighbour_shortest tie finite
  have small := sliver_middle_le w
  have size := middle_le_halfStep w
  have step := single.halfStep_pos w
  have grow := single.halfStep_le_succ w
  have middle := single.middle_eq_sub w
  have next := single.middle_eq (w + 1)
  obtain ⟨low, high⟩ := abs_le.1 near
  generalize single.shortest tie (w + 1) = d at *
  have positive : (0 : ℚ) < 10 ^ d.exponent := by positivity
  have coarse : 2 * (1 - 1 / 2 ^ 20) * single.halfStep w ≤ 10 ^ d.exponent := by
    cases neighbour with
    | below le lt nearer =>
      by_cases reads : single.readsBack (w + 1) ⟨d.digits + 1, d.exponent⟩ = true
      · have := nearer reads
        linarith
      · have beyond : single.middle (w + 1) ≤ d.value + 10 ^ d.exponent := by
          have value : (Decimal.value ⟨d.digits + 1, d.exponent⟩) = d.value + 10 ^ d.exponent := by
            simp only [Decimal.value]
            push_cast
            ring
          rw [← value] at lt ⊢
          by_contra inside
          exact reads (readsBack_of_between (by linarith) (by linarith))
        linarith
    | above n digits lt le nearer => linarith
  have bound : (d.digits : ℚ) * 10 ^ d.exponent ≤ 22370000 * 10 ^ d.exponent := by
    have : d.value = d.digits * 10 ^ d.exponent := rfl
    linarith
  exact_mod_cast le_of_mul_le_mul_right bound positive

/-- A decimal that is almost in the middle above the number is on a coarse grid. -/
theorem digits_of_almost_above (tie : Tie) (finite : w + 1 < single.infinite)
    (near : AlmostMiddle (w + 1) (single.shortest tie (w + 1)).value) :
    (single.shortest tie (w + 1)).digits ≤ 22370000 := by
  obtain ⟨neighbour, -⟩ := neighbour_shortest tie finite
  have small := sliver_middle_le (w + 1)
  have size := middle_le_halfStep (w + 1)
  have step := single.halfStep_pos (w + 1)
  have grow := single.halfStep_succ_le w
  have middle := single.middle_eq_sub w
  have next := single.middle_eq (w + 1)
  obtain ⟨low, high⟩ := abs_le.1 near
  generalize single.shortest tie (w + 1) = d at *
  have positive : (0 : ℚ) < 10 ^ d.exponent := by positivity
  have coarse : (3 / 2 - 1 / 2 ^ 20) * single.halfStep (w + 1) ≤ 10 ^ d.exponent := by
    cases neighbour with
    | below le lt nearer => linarith
    | above n digits lt le nearer =>
      by_cases reads : single.readsBack (w + 1) ⟨n, d.exponent⟩ = true
      · have := nearer reads
        linarith
      · have beyond : d.value - 10 ^ d.exponent ≤ single.middle w := by
          have value : (Decimal.value ⟨n, d.exponent⟩) = d.value - 10 ^ d.exponent := by
            simp only [Decimal.value, digits]
            push_cast
            ring
          rw [← value] at le ⊢
          by_contra inside
          exact reads (readsBack_of_between (by linarith) (by linarith))
        linarith
  have bound : (d.digits : ℚ) * 10 ^ d.exponent ≤ 22370000 * 10 ^ d.exponent := by
    have : d.value = d.digits * 10 ^ d.exponent := rfl
    linarith
  exact_mod_cast le_of_mul_le_mul_right bound positive

end BinaryFormat

end Inlining
