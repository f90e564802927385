import Mathlib
import Inlining.Decimal.Shortest
import Inlining.Proofs.JsonText

/-!
# Written numerals

Integers and decimals are written as numerals of JSON, in any style (`DecimalStyle.spelled`). What a style
decides is how much of the power of ten goes into digits: `zeros` of them are written out behind a decimal,
and a reader for which the digits are not too many gets back the decimal with these zeros
(`DecimalStyle.leading_numeral`).
-/

namespace Inlining

/-- Only zero is written with a zero in front. -/
theorem eq_zero_of_head_toDigits {n : Nat} (h : (Nat.toDigits 10 n).head? = some '0') : n = 0 := by
  induction n using Nat.strong_induction_on with
  | _ n ih =>
    rcases Nat.lt_or_ge n 10 with small | big
    · rw [Nat.toDigits_of_lt_base small] at h
      simpa using h
    · rw [Nat.toDigits_of_base_le (by decide) big, List.head?_append_of_ne_nil _ Nat.toDigits_ne_nil] at h
      have := ih (n / 10) (Nat.div_lt_self (by omega) (by decide)) h
      omega

theorem isDigit_toDigits (n : Nat) : ∀ c ∈ Nat.toDigits 10 n, c.isDigit :=
  fun _ => Nat.isDigit_of_mem_toDigits (by decide) (by decide)

theorem length_toDigits_of_head {n : Nat} (h : (Nat.toDigits 10 n).head? = some '0') :
    (Nat.toDigits 10 n).length = 1 := by
  rw [eq_zero_of_head_toDigits h, Nat.toDigits_zero, List.length_singleton]

namespace Numeral

theorem spelled_whole (negative : Bool) (n : Nat) : Spelled ⟨negative, Nat.toDigits 10 n, [], none⟩ where
  some := Nat.toDigits_ne_nil
  whole := isDigit_toDigits n
  fraction := fun _ none => absurd none List.not_mem_nil
  first := length_toDigits_of_head

theorem spelled_ofInt (n : Int) : (ofInt n).Spelled := spelled_whole _ _

theorem spelled_ofNat (n : Nat) : (ofNat n).Spelled := spelled_whole _ _

theorem le_ofDigitChars (cs : List Char) (n : Nat) : n ≤ Nat.ofDigitChars 10 cs n := by
  induction cs generalizing n with
  | nil => rw [Nat.ofDigitChars_nil]
  | cons c cs ih =>
    rw [Nat.ofDigitChars_cons]
    exact le_trans (by omega) (ih _)

/-- Digits that fit are appended, all of them. -/
theorem appendDigits_eq (cs : List Char) (n : Nat) (fits : Nat.ofDigitChars 10 cs n ≤ wordMax) :
    appendDigits n cs = (Nat.ofDigitChars 10 cs n, []) := by
  induction cs generalizing n with
  | nil => rw [appendDigits, Nat.ofDigitChars_nil]
  | cons c cs ih =>
    rw [Nat.ofDigitChars_cons] at fits ⊢
    have next := (le_ofDigitChars cs _).trans fits
    rw [Nat.mul_comm 10 n] at fits next ⊢
    rw [appendDigits, if_neg (Nat.not_lt.2 next), ih _ fits]

/-- A numeral whose digits fit is read as these, with the power of ten of the last. -/
theorem leading_eq {x : Numeral} (fits : Nat.ofDigitChars 10 (x.whole ++ x.fraction) 0 ≤ wordMax) :
    x.leading = (Nat.ofDigitChars 10 (x.whole ++ x.fraction) 0, x.exponent.getD 0 - x.fraction.length) := by
  rw [Nat.ofDigitChars_append] at fits ⊢
  have whole := (le_ofDigitChars x.fraction _).trans fits
  simp only [leading, appendDigits_eq _ _ whole, appendDigits_eq _ _ fits, List.length_nil]
  refine Prod.ext rfl ?_
  dsimp only
  omega

end Numeral

/-- Where the first digit stands. -/
def Decimal.first (d : Decimal) : Int := d.exponent + (Nat.toDigits 10 d.digits).length - 1

/-- The zeros between the digits and the point. -/
def Decimal.wholeZeros (d : Decimal) : Nat := if d.digits = 0 then 0 else d.exponent.toNat

/-- The ways in which a decimal is written, with the zeros written behind it. -/
inductive Decimal.Writes (negative : Bool) (d : Decimal) : Numeral → Nat → Prop where
  | whole (point : Nat) (integer : 0 ≤ d.exponent) :
      Writes negative d ⟨negative, Nat.toDigits 10 d.digits ++ List.replicate d.wholeZeros '0',
        List.replicate point '0', none⟩ (d.wholeZeros + point)
  | mixed (fraction : d.exponent < 0) (above : 0 ≤ d.first) :
      Writes negative d ⟨negative, (Nat.toDigits 10 d.digits).take (d.first.toNat + 1),
        (Nat.toDigits 10 d.digits).drop (d.first.toNat + 1), none⟩ 0
  | below (small : d.first < 0) :
      Writes negative d ⟨negative, ['0'],
        List.replicate (-d.first - 1).toNat '0' ++ Nat.toDigits 10 d.digits, none⟩ 0
  | scientific :
      Writes negative d ⟨negative, (Nat.toDigits 10 d.digits).take 1, (Nat.toDigits 10 d.digits).drop 1,
        some d.first⟩ 0

namespace Decimal

variable {negative : Bool} {d : Decimal} {x : Numeral} {z : Nat}

/-- The digits of a decimal, the first of which is zero only if it is alone, are kept so by their start. -/
theorem spelled_take (negative : Bool) (d : Decimal) (n : Nat) (exponent : Option Int) :
    Numeral.Spelled ⟨negative, (Nat.toDigits 10 d.digits).take (n + 1),
      (Nat.toDigits 10 d.digits).drop (n + 1), exponent⟩ where
  some := by
    rw [ne_eq, List.take_eq_nil_iff]
    exact not_or.2 ⟨Nat.succ_ne_zero n, Nat.toDigits_ne_nil⟩
  whole c listed := isDigit_toDigits _ c (List.mem_of_mem_take listed)
  fraction c listed := isDigit_toDigits _ c (List.mem_of_mem_drop listed)
  first h := by
    rw [List.head?_take, if_neg (Nat.succ_ne_zero n)] at h
    rw [List.length_take, length_toDigits_of_head h]
    omega

/-- A decimal is written as a numeral of JSON. -/
theorem Writes.spelled (writes : d.Writes negative x z) : x.Spelled := by
  have some : Nat.toDigits 10 d.digits ≠ [] := Nat.toDigits_ne_nil
  have digits := isDigit_toDigits d.digits
  have zeros (n : Nat) : ∀ c ∈ List.replicate n '0', c.isDigit := fun c listed => by
    rw [List.eq_of_mem_replicate listed]
    rfl
  cases writes with
  | whole point _ =>
    refine ⟨by simp, fun c listed => ?_, zeros point, fun h => ?_⟩
    · exact (List.mem_append.1 listed).elim (digits c) (zeros _ c)
    · rw [List.head?_append_of_ne_nil _ some] at h
      rw [List.length_append, length_toDigits_of_head h, List.length_replicate, wholeZeros,
        if_pos (eq_zero_of_head_toDigits h)]
  | mixed => exact spelled_take negative d _ none
  | below =>
    refine ⟨List.cons_ne_nil _ _, by simp, fun c listed => ?_, fun _ => rfl⟩
    exact (List.mem_append.1 listed).elim (zeros _ c) (digits c)
  | scientific => exact spelled_take negative d 0 _

theorem Writes.sign (writes : d.Writes negative x z) : x.negative = negative := by
  cases writes <;> rfl

/-- What a reader gets: the digits with the zeros behind them, and the power of the last. -/
theorem Writes.leading (writes : d.Writes negative x z) (none : d.digits = 0 → d.exponent = 0)
    (fits : d.digits * 10 ^ z ≤ Numeral.wordMax) : x.leading = (d.digits * 10 ^ z, d.exponent - z) := by
  have digits : Nat.ofDigitChars 10 (Nat.toDigits 10 d.digits) 0 = d.digits := Nat.ofDigitChars_ten_toDigits
  have first : d.first = d.exponent + (Nat.toDigits 10 d.digits).length - 1 := rfl
  have read : Nat.ofDigitChars 10 (x.whole ++ x.fraction) 0 = d.digits * 10 ^ z ∧
      x.exponent.getD 0 - x.fraction.length = d.exponent - z := by
    cases writes with
    | whole point integer =>
      dsimp only
      rw [Nat.ofDigitChars_append, Nat.ofDigitChars_append, digits, Nat.ofDigitChars_replicate_zero,
        Nat.ofDigitChars_replicate_zero, List.length_replicate]
      refine ⟨by ring, ?_⟩
      have exact : (d.wholeZeros : Int) = d.exponent := by
        unfold wholeZeros
        split
        next nothing => rw [none nothing]; rfl
        next => exact Int.toNat_of_nonneg integer
      simp [exact]
    | mixed fraction above =>
      dsimp only
      rw [List.take_append_drop, digits, List.length_drop]
      refine ⟨by ring, ?_⟩
      dsimp only [Option.getD_none]
      omega
    | below small =>
      dsimp only
      rw [List.singleton_append, Nat.ofDigitChars_cons, Nat.ofDigitChars_append,
        Nat.ofDigitChars_replicate_zero]
      simp [digits]
      omega
    | scientific =>
      dsimp only
      rw [List.take_append_drop, digits, List.length_drop]
      refine ⟨by ring, ?_⟩
      dsimp only [Option.getD_some]
      have := Nat.length_toDigits_pos (b := 10) (n := d.digits)
      omega
  rw [Numeral.leading_eq (read.1 ▸ fits), read.1, read.2]

end Decimal

namespace DecimalStyle

/-- The zeros that a style writes behind a decimal. -/
def zeros (style : DecimalStyle) (d : Decimal) : Nat :=
  if style.positional d.first ∧ 0 ≤ d.exponent then d.wholeZeros + if style.pointZero then 1 else 0 else 0

theorem writes (style : DecimalStyle) (negative : Bool) (d : Decimal) :
    d.Writes negative (style.numeral negative d) (style.zeros d) := by
  unfold numeral zeros
  change d.Writes negative (if style.positional d.first then _ else _) _
  by_cases positional : style.positional d.first
  · by_cases integer : 0 ≤ d.exponent
    · have both : style.positional d.first ∧ 0 ≤ d.exponent := ⟨positional, integer⟩
      rw [if_pos positional, if_pos integer, if_pos both]
      cases style.pointZero
      · exact .whole 0 integer
      · exact .whole 1 integer
    · have notBoth : ¬ (style.positional d.first ∧ 0 ≤ d.exponent) := fun h => integer h.2
      rw [if_pos positional, if_neg integer, if_neg notBoth]
      change d.Writes negative (if 0 ≤ d.first then _ else _) _
      split
      next above => exact .mixed (Int.not_le.1 integer) above
      next small => exact .below (Int.not_le.1 small)
  · have notBoth : ¬ (style.positional d.first ∧ 0 ≤ d.exponent) := fun h => positional h.1
    rw [if_neg positional, if_neg notBoth]
    exact .scientific

/-- A style that writes a point behind whole numbers writes no integers. -/
theorem int?_numeral {style : DecimalStyle} (point : style.pointZero = true) (negative : Bool) (d : Decimal) :
    (style.numeral negative d).int? = none := by
  have notWhole : (style.numeral negative d).isWhole = false := by
    simp only [numeral, point, if_true]
    split
    · split
      next => rfl
      next fraction =>
        split
        next above =>
          simp only [Numeral.isWhole, Option.isNone_none, Bool.and_true, List.isEmpty_eq_false_iff, ne_eq,
            List.drop_eq_nil_iff, not_le]
          omega
        next => simp [Numeral.isWhole]
    · simp [Numeral.isWhole]
  rw [Numeral.int?, notWhole]
  rfl

end DecimalStyle

end Inlining
