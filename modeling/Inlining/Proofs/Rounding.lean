import Mathlib
import Inlining.Binary.Basic

/-!
# Rounding

A magnitude word is a significand scaled by a power of two, and so is the next word, with the next
significand (`units_eq`, `units_succ`). Hence a quotient is rounded past a word exactly if it lies past
the middle between the word and the next one; the middle itself goes to the even of the two
(`Binary.lt_magnitude_iff`). Whatever else is said of rounding follows from that: it keeps the order, it
changes no number of the format, and halving commutes with it where no digit is lost.
-/

namespace Inlining

/-- A rounded quotient is past `m` if the quotient is past the middle between `m` and `m + 1`, or in the
middle if `m` is odd. -/
theorem lt_roundHalfEven_iff {m num den : Nat} (pos : 0 < den) :
    m < roundHalfEven num den ↔
      (2 * m + 1) * den < 2 * num ∨ (2 * m + 1) * den = 2 * num ∧ m % 2 = 1 := by
  have parts : den * (num / den) + num % den = num := Nat.div_add_mod ..
  have rest : num % den < den := Nat.mod_lt _ pos
  unfold roundHalfEven
  dsimp only
  generalize num / den = q at *
  generalize num % den = r at *
  subst parts
  rcases lt_trichotomy m q with below | rfl | above
  · have : (2 * m + 2) * den ≤ 2 * q * den := Nat.mul_le_mul_right _ (by omega)
    have less : (2 * m + 1) * den < 2 * (den * q + r) := by linarith
    refine iff_of_true ?_ (.inl less)
    split
    · exact below
    · split <;> omega
  · have middle : (2 * m + 1) * den = 2 * (den * m) + den := by ring
    rw [middle]
    split
    · omega
    · split <;> omega
  · have : (2 * q + 3) * den ≤ (2 * m + 1) * den := Nat.mul_le_mul_right _ (by omega)
    have less : 2 * (den * q + r) < (2 * m + 1) * den := by linarith
    refine iff_of_false ?_ (by omega)
    split
    · omega
    · split <;> omega

namespace BinaryFormat

variable (fmt : BinaryFormat) {w s m : Nat}

/-- The power of two that scales the significand of a word. -/
def scale (w : Nat) : Nat := w / fmt.fractions - 1

/-- The leading bits of a word's value. -/
def significand (w : Nat) : Nat := w - fmt.scale w * fmt.fractions

theorem fractions_even (bits : 0 < fmt.fractionBits) : fmt.fractions % 2 = 0 := by
  obtain ⟨b, hb⟩ : ∃ b, fmt.fractionBits = b + 1 := ⟨fmt.fractionBits - 1, by omega⟩
  change 2 ^ fmt.fractionBits % 2 = 0
  rw [hb, pow_succ, Nat.mul_mod_left]

theorem word_eq (w : Nat) : w = fmt.scale w * fmt.fractions + fmt.significand w := by
  have below : fmt.scale w * fmt.fractions ≤ w :=
    (Nat.mul_le_mul_right _ (Nat.sub_le ..)).trans (Nat.div_mul_le_self ..)
  unfold significand
  omega

/-- Only the smallest words have fewer bits than others. -/
theorem normal (w : Nat) : fmt.scale w = 0 ∨ fmt.fractions ≤ fmt.significand w := by
  refine or_iff_not_imp_left.2 fun scaled => ?_
  have exponent : w / fmt.fractions = fmt.scale w + 1 := by unfold scale at scaled ⊢; omega
  have reached : (fmt.scale w + 1) * fmt.fractions ≤ w := exponent ▸ Nat.div_mul_le_self ..
  have parts := fmt.word_eq w
  rw [Nat.add_mul] at reached
  omega

theorem significand_lt (w : Nat) : fmt.significand w < 2 * fmt.fractions := by
  have next : w < (w / fmt.fractions + 1) * fmt.fractions :=
    (Nat.div_lt_iff_lt_mul fmt.fractions_pos).1 (Nat.lt_succ_self _)
  have parts := fmt.word_eq w
  have exponent : w / fmt.fractions + 1 ≤ fmt.scale w + 2 := by unfold scale; omega
  have := next.trans_le (Nat.mul_le_mul_right fmt.fractions exponent)
  rw [Nat.add_mul] at this
  omega

/-- The value of a word that is written as a significand and a scale. The significand may be the one
after the greatest. -/
theorem units_word (normal : s = 0 ∨ fmt.fractions ≤ m) (bound : m ≤ 2 * fmt.fractions) :
    fmt.units (s * fmt.fractions + m) = m * 2 ^ s := by
  have pos := fmt.fractions_pos
  unfold units
  rcases Nat.lt_or_ge m fmt.fractions with small | big
  · obtain rfl := normal.resolve_right (by omega)
    simp [small]
  · have notSmall : ¬ s * fmt.fractions + m < fmt.fractions :=
      Nat.not_lt.2 (big.trans (Nat.le_add_left ..))
    rw [if_neg notSmall]
    rcases Nat.lt_or_ge m (2 * fmt.fractions) with inside | last
    · have parts : s * fmt.fractions + m = (m - fmt.fractions) + fmt.fractions * (s + 1) := by
        rw [Nat.mul_comm s, Nat.mul_succ]
        omega
      have rest : m - fmt.fractions < fmt.fractions := by omega
      rw [parts, Nat.add_mul_mod_self_left, Nat.mod_eq_of_lt rest, Nat.add_mul_div_left _ _ pos,
        Nat.div_eq_of_lt rest]
      simp only [Nat.zero_add, Nat.add_sub_cancel]
      rw [Nat.add_sub_cancel' big]
      rfl
    · obtain rfl : m = 2 * fmt.fractions := Nat.le_antisymm bound last
      have parts : s * fmt.fractions + 2 * fmt.fractions = fmt.fractions * (s + 2) := by ring
      rw [parts, Nat.mul_mod_right, Nat.mul_div_cancel_left _ pos]
      change (fmt.fractions + 0) * 2 ^ (s + 1) = _
      ring

@[simp] theorem units_zero : fmt.units 0 = 0 := if_pos fmt.fractions_pos

theorem units_eq (w : Nat) : fmt.units w = fmt.significand w * 2 ^ fmt.scale w := by
  conv_lhs => rw [fmt.word_eq w]
  exact fmt.units_word (fmt.normal w) (fmt.significand_lt w).le

theorem units_succ (w : Nat) : fmt.units (w + 1) = (fmt.significand w + 1) * 2 ^ fmt.scale w := by
  conv_lhs => rw [fmt.word_eq w, Nat.add_assoc]
  exact fmt.units_word ((fmt.normal w).imp_right (·.trans (Nat.le_succ _))) (fmt.significand_lt w)

theorem units_strictMono : StrictMono fmt.units := by
  refine strictMono_nat_of_lt_succ fun w => ?_
  rw [units_eq, units_succ]
  exact Nat.mul_lt_mul_of_pos_right (Nat.lt_succ_self _) (Nat.two_pow_pos _)

/-- The middle between two words, twice. -/
theorem units_add_succ (w : Nat) :
    fmt.units w + fmt.units (w + 1) = (2 * fmt.significand w + 1) * 2 ^ fmt.scale w := by
  rw [units_eq, units_succ]
  ring

/-- The quotient `steps / den` is past the middle between a word and the next, or in the middle if the
word is odd. -/
def Past (w steps den : Nat) : Prop :=
  (fmt.units w + fmt.units (w + 1)) * den < 2 * steps ∨
    (fmt.units w + fmt.units (w + 1)) * den = 2 * steps ∧ w % 2 = 1

variable {fmt}

/-- What is past a word stays so where it gets larger. -/
theorem Past.mono {a b c d : Nat} (hb : 0 < b) (hd : 0 < d) (le : a * d ≤ c * b) (h : fmt.Past w a b) :
    fmt.Past w c d := by
  unfold Past at *
  generalize fmt.units w + fmt.units (w + 1) = M at *
  have scaled : 2 * a * d ≤ 2 * c * b := by
    rw [Nat.mul_assoc, Nat.mul_assoc]
    exact Nat.mul_le_mul_left 2 le
  rcases h with less | ⟨same, odd⟩
  · left
    have : M * d * b < 2 * c * b := by
      calc M * d * b = M * b * d := by ring
        _ < 2 * a * d := Nat.mul_lt_mul_of_pos_right less hd
        _ ≤ 2 * c * b := scaled
    exact Nat.lt_of_mul_lt_mul_right this
  · have : M * d * b ≤ 2 * c * b := by
      calc M * d * b = M * b * d := by ring
        _ = 2 * a * d := by rw [same]
        _ ≤ 2 * c * b := scaled
    rcases (Nat.le_of_mul_le_mul_right this hb).lt_or_eq with less | same
    · exact .inl less
    · exact .inr ⟨same, odd⟩

/-- What is past a word is past the words below it. -/
theorem Past.anti {v steps den : Nat} (pos : 0 < den) (le : v ≤ w) (h : fmt.Past w steps den) :
    fmt.Past v steps den := by
  rcases le.eq_or_lt with rfl | less
  · exact h
  · left
    have first : fmt.units v < fmt.units w := fmt.units_strictMono less
    have second : fmt.units (v + 1) < fmt.units (w + 1) := fmt.units_strictMono (Nat.succ_lt_succ less)
    have := Nat.mul_lt_mul_of_pos_right (Nat.add_lt_add first second) pos
    unfold Past at h
    omega

/-- A number of the format is past the words below it and no other. -/
theorem past_units_iff {v : Nat} {den : Nat} (pos : 0 < den) :
    fmt.Past w (fmt.units v * den) den ↔ w < v := by
  have grow : fmt.units w < fmt.units (w + 1) := fmt.units_strictMono (Nat.lt_succ_self w)
  unfold Past
  rw [← Nat.mul_assoc, Nat.mul_lt_mul_right pos, Nat.mul_left_inj pos.ne']
  rcases Nat.lt_or_ge w v with below | above
  · have : fmt.units (w + 1) ≤ fmt.units v := fmt.units_strictMono.monotone below
    omega
  · have := fmt.units_strictMono.monotone above
    omega

/-- The word one exponent further up has twice the value. -/
theorem units_add_fractions (big : fmt.fractions ≤ w) :
    fmt.units (w + fmt.fractions) = 2 * fmt.units w := by
  have parts := fmt.word_eq w
  have full : fmt.fractions ≤ fmt.significand w := by
    refine (fmt.normal w).elim (fun unscaled => ?_) id
    rw [unscaled] at parts
    omega
  have next : w + fmt.fractions = (fmt.scale w + 1) * fmt.fractions + fmt.significand w := by
    rw [Nat.add_mul]
    omega
  rw [next, fmt.units_word (.inr full) (fmt.significand_lt w).le, fmt.units_eq]
  ring

theorem Past.double (bits : 0 < fmt.fractionBits) {steps den : Nat} (h : fmt.Past w steps den)
    (big : fmt.fractions ≤ w) : fmt.Past (w + fmt.fractions) (2 * steps) den := by
  have even := fmt.fractions_even bits
  unfold Past at *
  have next : w + fmt.fractions + 1 = w + 1 + fmt.fractions := by omega
  rw [next, units_add_fractions big, units_add_fractions (by omega), ← Nat.mul_add, Nat.mul_assoc]
  omega

/-- There are numbers of full precision below one, and one is finite. -/
structure Ample (fmt : BinaryFormat) : Prop where
  bits : 0 < fmt.fractionBits
  one : fmt.units (fmt.fractions + 2) ≤ fmt.stepsInOne
  finite : fmt.fractions + 1 < fmt.infinite

theorem ample_single : single.Ample := ⟨by decide, by decide, by decide⟩

end BinaryFormat

namespace Binary

variable {fmt : BinaryFormat} {negative : Bool} {w num den : Nat}

/-- The word that a quotient of steps is rounded to, were it not for infinity. -/
theorem lt_word_iff (bits : 0 < fmt.fractionBits) {steps : Nat} (pos : 0 < den) :
    w < ((steps / den).log2 - fmt.fractionBits) * fmt.fractions +
        roundHalfEven steps (den * Nat.pow 2 ((steps / den).log2 - fmt.fractionBits)) ↔
      fmt.Past w steps den := by
  generalize hshift : (steps / den).log2 - fmt.fractionBits = shift
  change w < shift * fmt.fractions + roundHalfEven steps (den * 2 ^ shift) ↔ _
  have scaled : 0 < den * 2 ^ shift := Nat.mul_pos pos (Nat.two_pow_pos _)
  have fractions : fmt.fractions = 2 ^ fmt.fractionBits := rfl
  -- the quotient lies below twice the fractions, and not below them if it is shifted at all
  have high : steps < 2 * fmt.fractions * (den * 2 ^ shift) := by
    have exponent : (steps / den).log2 + 1 ≤ fmt.fractionBits + shift + 1 := by omega
    have : steps / den < 2 ^ (fmt.fractionBits + shift + 1) :=
      Nat.lt_log2_self.trans_le (Nat.pow_le_pow_right Nat.two_pos exponent)
    calc steps < 2 ^ (fmt.fractionBits + shift + 1) * den := (Nat.div_lt_iff_lt_mul pos).1 this
      _ = 2 * fmt.fractions * (den * 2 ^ shift) := by rw [fractions]; ring
  have low (shifted : 0 < shift) : fmt.fractions * (den * 2 ^ shift) ≤ steps := by
    have some : steps / den ≠ 0 := by
      intro none
      rw [none] at hshift
      simp at hshift
      omega
    have exponent : (steps / den).log2 = fmt.fractionBits + shift := by omega
    calc fmt.fractions * (den * 2 ^ shift) = 2 ^ (steps / den).log2 * den := by
          rw [exponent, fractions]; ring
      _ ≤ steps / den * den := Nat.mul_le_mul_right _ (Nat.log2_self_le some)
      _ ≤ steps := Nat.div_mul_le_self ..
  have parts := fmt.word_eq w
  have bound := fmt.significand_lt w
  have middle : (fmt.units w + fmt.units (w + 1)) * den =
      (2 * fmt.significand w + 1) * (den * 2 ^ fmt.scale w) := by
    rw [fmt.units_add_succ]
    ring
  unfold BinaryFormat.Past
  rw [middle]
  have normal := fmt.normal w
  generalize fmt.scale w = s at *
  generalize fmt.significand w = m at *
  rcases lt_trichotomy s shift with below | rfl | above
  · have least : fmt.fractions - 1 < roundHalfEven steps (den * 2 ^ shift) := by
      refine (lt_roundHalfEven_iff scaled).2 (.inl ?_)
      have := Nat.mul_lt_mul_of_pos_right
        (show 2 * (fmt.fractions - 1) + 1 < 2 * fmt.fractions by have := fmt.fractions_pos; omega) scaled
      have := low (by omega)
      linarith
    have before : (s + 1) * fmt.fractions ≤ shift * fmt.fractions := Nat.mul_le_mul_right _ below
    rw [Nat.add_mul] at before
    refine iff_of_true (by omega) (.inl ?_)
    calc (2 * m + 1) * (den * 2 ^ s) < 4 * fmt.fractions * (den * 2 ^ s) :=
          Nat.mul_lt_mul_of_pos_right (by omega) (Nat.mul_pos pos (Nat.two_pow_pos _))
      _ = 2 * (fmt.fractions * (den * 2 ^ (s + 1))) := by ring
      _ ≤ 2 * (fmt.fractions * (den * 2 ^ shift)) := by gcongr <;> omega
      _ ≤ 2 * steps := Nat.mul_le_mul_left 2 (low (by omega))
  · have even : s * fmt.fractions % 2 = 0 := by simp [Nat.mul_mod, fmt.fractions_even bits]
    rw [parts, Nat.add_lt_add_iff_left, lt_roundHalfEven_iff scaled]
    omega
  · have most : ¬ 2 * fmt.fractions < roundHalfEven steps (den * 2 ^ shift) := by
      rw [lt_roundHalfEven_iff scaled]
      have : 2 * steps < (2 * (2 * fmt.fractions) + 1) * (den * 2 ^ shift) := by linarith
      omega
    have after : (shift + 1) * fmt.fractions ≤ s * fmt.fractions := Nat.mul_le_mul_right _ above
    rw [Nat.add_mul] at after
    have full := normal.resolve_left (by omega)
    have : 2 * steps < (2 * m + 1) * (den * 2 ^ s) := by
      calc 2 * steps < 2 * (2 * fmt.fractions * (den * 2 ^ shift)) := by omega
        _ = 2 * fmt.fractions * (den * 2 ^ (shift + 1)) := by ring
        _ ≤ (2 * m + 1) * (den * 2 ^ s) := by gcongr <;> omega
    exact iff_of_false (by omega) (by omega)

/-- A quotient is rounded past a word exactly if it lies past the middle between the word and the next
one, and the word is below infinity. -/
theorem lt_magnitude_iff (bits : 0 < fmt.fractionBits) (pos : 0 < den) :
    w < (ofRatio negative num den : Binary fmt).magnitude ↔
      w < fmt.infinite ∧ fmt.Past w (num * fmt.stepsInOne) den := by
  rw [← lt_word_iff bits pos, ofRatio]
  exact lt_min_iff.trans and_comm

/-- Rounding keeps the order. -/
theorem magnitude_mono (bits : 0 < fmt.fractionBits) {negative' : Bool} {num' den' : Nat} (pos : 0 < den)
    (pos' : 0 < den') (le : num * den' ≤ num' * den) :
    (ofRatio negative num den : Binary fmt).magnitude ≤
      (ofRatio negative' num' den' : Binary fmt).magnitude := by
  refine le_of_forall_lt fun w below => ?_
  rw [lt_magnitude_iff bits pos] at below
  rw [lt_magnitude_iff bits pos']
  refine ⟨below.1, below.2.mono pos pos' ?_⟩
  calc num * fmt.stepsInOne * den' = num * den' * fmt.stepsInOne := by ring
    _ ≤ num' * den * fmt.stepsInOne := Nat.mul_le_mul_right _ le
    _ = num' * fmt.stepsInOne * den := by ring

/-- A quotient that is a number of the format is rounded to that. -/
theorem magnitude_of_exact (bits : 0 < fmt.fractionBits) (negative : Bool) (pos : 0 < den) {v : Nat}
    (finite : v ≤ fmt.infinite) (exact : num * fmt.stepsInOne = fmt.units v * den) :
    (ofRatio negative num den : Binary fmt).magnitude = v := by
  refine eq_of_forall_lt_iff fun w => ?_
  rw [lt_magnitude_iff bits pos, exact, BinaryFormat.past_units_iff pos]
  omega

theorem magnitude_ofRatio_zero (bits : 0 < fmt.fractionBits) (negative : Bool) (pos : 0 < den) :
    (ofRatio negative 0 den : Binary fmt).magnitude = 0 :=
  magnitude_of_exact bits negative pos (Nat.zero_le _) (by rw [fmt.units_zero, Nat.zero_mul, Nat.zero_mul])

section Ample

variable (ample : fmt.Ample)
include ample

/-- Rounding a quotient of at least one gives a number of full precision. -/
theorem fractions_lt_magnitude (negative : Bool) (pos : 0 < den) (le : den ≤ num) :
    fmt.fractions + 1 < (ofRatio negative num den : Binary fmt).magnitude := by
  refine (lt_magnitude_iff ample.bits pos).2 ⟨ample.finite, .inl ?_⟩
  have one := ample.one
  have less : fmt.units (fmt.fractions + 1) < fmt.units (fmt.fractions + 2) :=
    fmt.units_strictMono (Nat.lt_succ_self _)
  calc (fmt.units (fmt.fractions + 1) + fmt.units (fmt.fractions + 2)) * den
      < 2 * fmt.stepsInOne * den := Nat.mul_lt_mul_of_pos_right (by omega) pos
    _ ≤ 2 * fmt.stepsInOne * num := Nat.mul_le_mul_left _ le
    _ = 2 * (num * fmt.stepsInOne) := by ring

/-- If one natural is at least twice another, so are their roundings. -/
theorem double_units_le {n m : Nat} (twice : 2 * n ≤ m)
    (finite : (ofNat m : Binary fmt).magnitude < fmt.infinite) :
    2 * (ofNat n : Binary fmt).units ≤ (ofNat m : Binary fmt).units := by
  rcases Nat.eq_zero_or_pos n with rfl | pos
  · have none : (ofNat 0 : Binary fmt).units = 0 := by
      rw [units, ofNat, magnitude_ofRatio_zero ample.bits false Nat.one_pos, fmt.units_zero]
    rw [none]
    exact Nat.zero_le _
  · have big : fmt.fractions + 1 < (ofNat n : Binary fmt).magnitude :=
      fractions_lt_magnitude ample false Nat.one_pos pos
    unfold units
    generalize ha : (ofNat n : Binary fmt).magnitude = a at big ⊢
    have last : a - 1 < (ofNat n : Binary fmt).magnitude := by omega
    have past : fmt.Past (a - 1) (n * fmt.stepsInOne) 1 :=
      ((lt_magnitude_iff ample.bits Nat.one_pos).1 last).2
    have doubled : fmt.Past (a - 1 + fmt.fractions) (m * fmt.stepsInOne) 1 := by
      refine (past.double ample.bits (by omega)).mono Nat.one_pos Nat.one_pos ?_
      have := Nat.mul_le_mul_right fmt.stepsInOne twice
      linarith
    have below : a - 1 + fmt.fractions < (ofNat m : Binary fmt).magnitude := by
      refine (lt_magnitude_iff ample.bits Nat.one_pos).2 ⟨?_, doubled⟩
      by_contra beyond
      have last : fmt.infinite - 1 < (ofNat m : Binary fmt).magnitude :=
        (lt_magnitude_iff ample.bits Nat.one_pos).2
          ⟨Nat.sub_lt (by have := ample.finite; omega) Nat.one_pos,
            doubled.anti Nat.one_pos (by omega)⟩
      omega
    rw [← BinaryFormat.units_add_fractions (by omega)]
    exact fmt.units_strictMono.monotone (by omega)

end Ample

end Binary

end Inlining
