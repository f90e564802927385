import Mathlib
import Inlining.Decimal.Shortest
import Inlining.Proofs.Rounding

/-!
# Shortest decimals

A decimal reads back as a word if it is past the word below and not past the word itself
(`BinaryFormat.readsBack_iff`), which is how rounding finds the word. So whatever the search comes upon is
rounded to the number it was meant for (`Binary.magnitude_of_readsBack`, `BinaryFormat.readsBack_shortest`).
-/

namespace Inlining

namespace Decimal

/-- The decimal is the quotient of these naturals. -/
def num (d : Decimal) : Nat := d.digits * 10 ^ d.exponent.toNat

def den (d : Decimal) : Nat := 10 ^ (-d.exponent).toNat

theorem den_pos (d : Decimal) : 0 < d.den := Nat.pow_pos (by decide)

end Decimal

namespace BinaryFormat

variable {fmt : BinaryFormat} {w : Nat} {d : Decimal}

/-- The decimal is past the word below and not past the word. -/
theorem readsBack_iff (pos : 0 < w) :
    fmt.readsBack w d = true ↔
      fmt.Past (w - 1) (d.num * fmt.stepsInOne) d.den ∧ ¬ fmt.Past w (d.num * fmt.stepsInOne) d.den := by
  have below : w - 1 + 1 = w := Nat.sub_add_cancel pos
  unfold readsBack Past
  change (if w % 2 = 0 then
      decide ((fmt.units (w - 1) + fmt.units w) * d.den ≤ 2 * (d.num * fmt.stepsInOne)) &&
        decide (2 * (d.num * fmt.stepsInOne) ≤ (fmt.units w + fmt.units (w + 1)) * d.den)
    else
      decide ((fmt.units (w - 1) + fmt.units w) * d.den < 2 * (d.num * fmt.stepsInOne)) &&
        decide (2 * (d.num * fmt.stepsInOne) < (fmt.units w + fmt.units (w + 1)) * d.den)) = true ↔ _
  rw [below]
  split <;> simp only [Bool.and_eq_true, decide_eq_true_eq] <;> omega

theorem not_past_of_readsBack (reads : fmt.readsBack w d = true) :
    ¬ fmt.Past w (d.num * fmt.stepsInOne) d.den := by
  rcases Nat.eq_zero_or_pos w with rfl | pos
  · have high : 2 * (d.num * fmt.stepsInOne) ≤ (fmt.units 0 + fmt.units (0 + 1)) * d.den := by
      unfold readsBack at reads
      rw [if_pos rfl, Bool.and_eq_true, decide_eq_true_eq, decide_eq_true_eq] at reads
      exact reads.2
    unfold Past
    omega
  · exact ((readsBack_iff pos).1 reads).2

/-- Nothing is past any word. -/
theorem not_past_zero (fmt : BinaryFormat) (w : Nat) {den : Nat} (pos : 0 < den) : ¬ fmt.Past w 0 den := by
  have : 0 < fmt.units (w + 1) := (Nat.zero_le _).trans_lt (fmt.units_strictMono (Nat.lt_succ_self w))
  have := Nat.mul_pos (Nat.add_pos_right (fmt.units w) this) pos
  unfold Past
  omega

/-- Only zero is written with the digit zero. -/
theorem digits_pos_of_readsBack (pos : 0 < w) (reads : fmt.readsBack w d = true) : 0 < d.digits := by
  rw [readsBack_iff pos] at reads
  refine Nat.pos_of_ne_zero fun none => not_past_zero fmt (w - 1) d.den_pos ?_
  have := reads.1
  rwa [Decimal.num, none, Nat.zero_mul, Nat.zero_mul] at this

/-- The exact value of a word reads back. -/
theorem readsBack_exact (pos : 0 < w) (exact : d.num * fmt.stepsInOne = fmt.units w * d.den) :
    fmt.readsBack w d = true := by
  rw [readsBack_iff pos, exact, past_units_iff d.den_pos, past_units_iff d.den_pos]
  omega

theorem tie_round_cases (tie : Tie) (num den : Nat) :
    tie.round num den = num / den ∨ tie.round num den = num / den + 1 := by
  unfold Tie.round
  dsimp only
  split
  · exact .inl rfl
  · split
    · exact .inr rfl
    · cases tie
      · rcases Nat.mod_two_eq_zero_or_one (num / den) with even | odd
        · exact .inl (by dsimp only; omega)
        · exact .inr (by dsimp only; omega)
      · exact .inr rfl

theorem readsBack_onGrid {tie : Tie} {power : Int} (found : fmt.onGrid? tie w power = some d) :
    fmt.readsBack w d = true := by
  unfold onGrid? at found
  dsimp only at found
  split at found
  next low high =>
    obtain rfl := Option.some.inj found
    rcases tie_round_cases tie (fmt.units w * Nat.pow 10 (-power).toNat)
      (Nat.pow 10 power.toNat * fmt.stepsInOne) with same | same
    · rw [same]; exact low
    · rw [same]; exact high
  next low _ => exact Option.some.inj found ▸ low
  next _ high => exact Option.some.inj found ▸ high
  next => cases found

/-- The shortest decimal of a word reads back as the word. -/
theorem readsBack_shortest (tie : Tie) (w : Nat) : fmt.readsBack w (fmt.shortest tie w) = true := by
  unfold shortest
  split
  next zero =>
    subst zero
    simp [readsBack, units, fmt.fractions_pos]
  next nonzero =>
    dsimp only
    cases found : (List.range gridCount).findSome? fun (i : Nat) => fmt.onGrid? tie w (fmt.powerAbove w - i) with
    | some d =>
      obtain ⟨i, -, onGrid⟩ := List.exists_of_findSome?_eq_some found
      exact readsBack_onGrid onGrid
    | none =>
      refine readsBack_exact (Nat.pos_of_ne_zero nonzero) ?_
      have ten : 10 ^ fmt.stepBits = 5 ^ fmt.stepBits * 2 ^ fmt.stepBits := by
        rw [← Nat.mul_pow]
      rw [Option.getD_none, Decimal.num, Decimal.den, neg_neg, Int.toNat_natCast, ten,
        Int.toNat_of_nonpos (Int.neg_nonpos_of_nonneg (Int.natCast_nonneg _)), pow_zero]
      change fmt.units w * 5 ^ fmt.stepBits * 1 * 2 ^ fmt.stepBits = _
      ring

theorem shortest_zero (tie : Tie) : fmt.shortest tie 0 = ⟨0, 0⟩ := if_pos rfl

theorem shortest_exponent_of_digits {tie : Tie} (none : (fmt.shortest tie w).digits = 0) :
    (fmt.shortest tie w).exponent = 0 := by
  rcases Nat.eq_zero_or_pos w with rfl | pos
  · rw [shortest_zero]
  · exact absurd none (digits_pos_of_readsBack pos (readsBack_shortest tie w)).ne'

end BinaryFormat

namespace Binary

variable {fmt : BinaryFormat} {w num den : Nat} {d : Decimal}

/-- A quotient past the word below and not past the word is rounded to the word. -/
theorem magnitude_eq_of_past (bits : 0 < fmt.fractionBits) (negative : Bool) (pos : 0 < den)
    (finite : w ≤ fmt.infinite) (past : ∀ v, v + 1 = w → fmt.Past v (num * fmt.stepsInOne) den)
    (notPast : ¬ fmt.Past w (num * fmt.stepsInOne) den) :
    (ofRatio negative num den : Binary fmt).magnitude = w := by
  refine eq_of_forall_lt_iff fun v => ?_
  rw [lt_magnitude_iff bits pos]
  constructor
  · rintro ⟨-, here⟩
    by_contra above
    exact notPast (here.anti pos (Nat.le_of_not_lt above))
  · intro below
    have here := past (w - 1) (Nat.sub_add_cancel (Nat.zero_lt_of_lt below))
    exact ⟨below.trans_le finite, here.anti pos (Nat.le_pred_of_lt below)⟩

/-- A decimal that reads back as a word is rounded to it. -/
theorem magnitude_of_readsBack (bits : 0 < fmt.fractionBits) (negative : Bool) (finite : w ≤ fmt.infinite)
    (reads : fmt.readsBack w d = true) : (ofRatio negative d.num d.den : Binary fmt).magnitude = w := by
  refine magnitude_eq_of_past bits negative d.den_pos finite ?_ (BinaryFormat.not_past_of_readsBack reads)
  rintro v rfl
  exact ((BinaryFormat.readsBack_iff (Nat.succ_pos v)).1 reads).1

end Binary

end Inlining
