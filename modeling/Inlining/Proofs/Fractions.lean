import Mathlib
import Inlining.Proofs.Grids

/-!
# Decimals beside middles

A middle between two 32-bit numbers is an odd natural below 2 ^ 25 times a power of two. A decimal with few
digits is never very near to one without being the same, but for two pairs: this is what fractions with small
denominators say of a power of ten over a power of two. Two neighbouring fractions (`Bracket`) around the
quotient, found by a search that need not be trusted, are nearest to it among those with denominators below
the sum of theirs (`Bracket.outside`), and there are few enough quotients to look at them all
(`Decimal.clear_or_close`).
-/

namespace Inlining

/-- The numbers differ by more than five parts in 2 ^ 54 of the second. -/
def Apart (x y : Nat) : Prop := 2 ^ 54 * x + 5 * y < 2 ^ 54 * y ∨ 2 ^ 54 * y + 5 * y < 2 ^ 54 * x

/-- Different numbers are apart if they are small. -/
theorem apart_of_ne {x y : Nat} (ne : x ≠ y) (small : 5 * y < 2 ^ 54 ∨ 10 * x < 2 ^ 54) : Apart x y := by
  unfold Apart
  omega

/-- Two neighbouring fractions. -/
structure Bracket where
  lowNum : Nat
  lowDen : Nat
  highNum : Nat
  highDen : Nat
  adjacent : highNum * lowDen = lowNum * highDen + 1

namespace Bracket

variable {p q bound d T : Nat}

/-- Strictly between two neighbours there are only fractions with greater denominators. -/
theorem outside (g : Bracket) (small : d < g.lowDen + g.highDen) :
    T * g.lowDen ≤ g.lowNum * d ∨ g.highNum * d ≤ T * g.highDen := by
  obtain ⟨a, b, c, f, adjacent⟩ := g
  dsimp only at *
  by_contra! between
  obtain ⟨above, below⟩ := between
  have low : (a * d + 1) * f ≤ T * b * f := Nat.mul_le_mul_right f above
  have high : (T * f + 1) * b ≤ c * d * b := Nat.mul_le_mul_right b below
  have parts : c * d * b = d + a * d * f := by
    rw [Nat.mul_right_comm, adjacent]
    ring
  have same : T * b * f = T * f * b := Nat.mul_right_comm ..
  rw [Nat.add_mul, Nat.one_mul] at low high
  omega

/-- The lower fraction is well below the quotient. -/
def clearBelow (p q : Nat) : Bracket → Bool
  | ⟨a, b, _, _, _⟩ => Nat.blt ((2 ^ 54 + 5) * (a * q)) (2 ^ 54 * (p * b))

/-- The upper fraction is well above the quotient. -/
def clearAbove (p q : Nat) : Bracket → Bool
  | ⟨_, _, c, f, _⟩ => Nat.blt (2 ^ 54 * (p * f)) ((2 ^ 54 - 5) * (c * q))

theorem apart_of_le_low {g : Bracket} (clear : g.clearBelow p q) (some : 0 < d)
    (le : T * g.lowDen ≤ g.lowNum * d) : Apart (d * p) (T * q) := by
  obtain ⟨a, b, c, f, adjacent⟩ := g
  have less : (2 ^ 54 + 5) * (a * q) < 2 ^ 54 * (p * b) := Nat.blt_eq.mp clear
  dsimp only at le
  have scaled : b * ((2 ^ 54 + 5) * (T * q)) < b * (2 ^ 54 * (d * p)) :=
    calc b * ((2 ^ 54 + 5) * (T * q)) = (2 ^ 54 + 5) * (T * b * q) := by ring
      _ ≤ (2 ^ 54 + 5) * (a * d * q) := by gcongr
      _ = d * ((2 ^ 54 + 5) * (a * q)) := by ring
      _ < d * (2 ^ 54 * (p * b)) := Nat.mul_lt_mul_of_pos_left less some
      _ = b * (2 ^ 54 * (d * p)) := by ring
  have := Nat.lt_of_mul_lt_mul_left scaled
  unfold Apart
  omega

theorem apart_of_high_le {g : Bracket} (clear : g.clearAbove p q) (some : 0 < d)
    (le : g.highNum * d ≤ T * g.highDen) : Apart (d * p) (T * q) := by
  obtain ⟨a, b, c, f, adjacent⟩ := g
  have less : 2 ^ 54 * (p * f) < (2 ^ 54 - 5) * (c * q) := Nat.blt_eq.mp clear
  dsimp only at le
  have scaled : f * (2 ^ 54 * (d * p)) < f * ((2 ^ 54 - 5) * (T * q)) :=
    calc f * (2 ^ 54 * (d * p)) = d * (2 ^ 54 * (p * f)) := by ring
      _ < d * ((2 ^ 54 - 5) * (c * q)) := Nat.mul_lt_mul_of_pos_left less some
      _ = (2 ^ 54 - 5) * (c * d * q) := by ring
      _ ≤ (2 ^ 54 - 5) * (T * f * q) := by gcongr
      _ = f * ((2 ^ 54 - 5) * (T * q)) := by ring
  have := Nat.lt_of_mul_lt_mul_left scaled
  unfold Apart
  omega

/-! ## The search -/

/-- The two naturals around the quotient. -/
def around (p q : Nat) : Bracket := ⟨p / q, 1, p / q + 1, 1, by ring⟩

/-- Moves the lower fraction up to the quotient, as far as the denominators stay within the bound. -/
def raise (p q bound : Nat) : Bracket → Bracket
  | ⟨a, b, c, f, adjacent⟩ =>
    let steps := (p * b - a * q - 1) / (c * q - p * f)
    let room := (bound - b) / f
    let t := bif Nat.ble steps room then steps else room
    ⟨a + t * c, b + t * f, c, f, by linear_combination adjacent⟩

/-- Moves the upper fraction down to the quotient. -/
def lower (p q bound : Nat) : Bracket → Bracket
  | ⟨a, b, c, f, adjacent⟩ =>
    let steps := (c * q - p * f - 1) / (p * b - a * q)
    let room := (bound - f) / b
    let t := bif Nat.ble steps room then steps else room
    ⟨a, b, c + t * a, f + t * b, by linear_combination adjacent⟩

/-- Narrows a bracket as long as fractions within the bound may be in between. -/
def narrow (p q bound : Nat) : Nat → Bracket → Bracket
  | 0, g => g
  | n + 1, g =>
    bif Nat.ble (g.lowDen + g.highDen) bound then narrow p q bound n (lower p q bound (raise p q bound g)) else g

end Bracket

namespace Decimal

/-- Ten to the `k` over two to the `e` is this over `ratioDen`. -/
def ratioNum (k e : Int) : Nat := 5 ^ k.toNat * 2 ^ (k - e).toNat

def ratioDen (k e : Int) : Nat := 5 ^ (-k).toNat * 2 ^ (e - k).toNat

/-- The digits of a decimal that may be almost in a middle. -/
def digitLimit : Nat := 22370000

/-- The greatest denominator to look at: with more digits a decimal is beyond the greatest middle. -/
def denominators (p q : Nat) : Nat :=
  bif Nat.ble (2 ^ 25 * q / p) digitLimit then 2 ^ 25 * q / p else digitLimit

/-- The natural multiples of the two powers are so small that different ones are apart. -/
def coarse (p q : Nat) : Bool :=
  Nat.blt (5 * (2 ^ 25 * q)) (2 ^ 54) || Nat.blt (10 * (denominators p q * p)) (2 ^ 54)

/-- A bracket around the quotient that is clear of it and has no fraction inside. -/
def bracketed (p q : Nat) : Bool :=
  let g := Bracket.narrow p q (denominators p q) 16 (Bracket.around p q)
  Nat.blt (denominators p q) (g.lowDen + g.highDen) && g.clearBelow p q && g.clearAbove p q

/-- Multiples of the two powers are not close to each other, as small naturals or by a bracket. -/
def separates (k e : Int) : Bool :=
  Nat.ble k.natAbs 22 && coarse (ratioNum k e) (ratioDen k e) || bracketed (ratioNum k e) (ratioDen k e)

/-- The binary logarithm of a power of ten. -/
def logTen (k : Int) : Int := k * 3322 / 1000

/-- Multiples of powers of ten are apart from those of powers of two, or a search has found two
that are not. -/
theorem separates_of_window : ∀ i < 92, ∀ j < 53,
    separates ((i : Nat) - 53) (logTen ((i : Nat) - 53) - 26 + (j : Nat)) = true ∨
      i = 21 ∧ (j = 25 ∨ j = 26) := by
  decide +kernel

theorem logTen_span : ∀ i < 92,
    2 ^ (logTen ((i : Nat) - 53)).toNat * 10 ^ (-((i : Nat) - 53 : Int)).toNat ≤
        10 ^ ((i : Nat) - 53 : Int).toNat * 2 ^ (-logTen ((i : Nat) - 53)).toNat ∧
      10 ^ ((i : Nat) - 53 : Int).toNat * 2 ^ (-(logTen ((i : Nat) - 53) + 1)).toNat ≤
        2 ^ (logTen ((i : Nat) - 53) + 1).toNat * 10 ^ (-((i : Nat) - 53 : Int)).toNat := by
  decide +kernel

variable {k e : Int} {p q d T : Nat}

/-- The logarithm of a power of ten in the range of the 32-bit numbers. -/
theorem logTen_bounds (low : -53 ≤ k) (high : k ≤ 38) :
    (2 : ℚ) ^ logTen k ≤ 10 ^ k ∧ (10 : ℚ) ^ k ≤ 2 ^ (logTen k + 1) := by
  obtain ⟨i, rfl⟩ : ∃ i : Nat, k = i - 53 := ⟨(k + 53).toNat, by omega⟩
  rw [two_zpow_le_iff, ten_zpow_le_iff]
  exact logTen_span i (by omega)

theorem ratioNum_pos (k e : Int) : 0 < ratioNum k e := by unfold ratioNum; positivity

theorem ratioDen_pos (k e : Int) : 0 < ratioDen k e := by unfold ratioDen; positivity

/-- With more digits than the denominators to look at, a decimal is beyond the greatest middle. -/
theorem apart_of_denominators_lt (pos : 0 < p) (few : d ≤ digitLimit) (less : T < 2 ^ 25)
    (many : denominators p q < d) : Apart (d * p) (T * q) := by
  have beyond : 2 ^ 25 * q < d * p := by
    unfold denominators at many
    cases bounded : Nat.ble (2 ^ 25 * q / p) digitLimit with
    | true =>
      rw [bounded, cond_true] at many
      exact (Nat.div_lt_iff_lt_mul pos).1 many
    | false =>
      rw [bounded, cond_false] at many
      omega
  have below : (T + 1) * q ≤ 2 ^ 25 * q := Nat.mul_le_mul_right q less
  rw [Nat.add_mul, Nat.one_mul] at below
  have small : T * q ≤ 2 ^ 25 * q := by omega
  unfold Apart
  omega

/-- What the search has separated is apart, or the same. -/
theorem apart_of_separates (separated : separates k e = true) (some : 0 < d) (few : d ≤ digitLimit)
    (less : T < 2 ^ 25) :
    Apart (d * ratioNum k e) (T * ratioDen k e) ∨
      k.natAbs ≤ 22 ∧ d * ratioNum k e = T * ratioDen k e := by
  have pos := ratioNum_pos k e
  unfold separates at separated
  generalize ratioNum k e = p at *
  generalize ratioDen k e = q at *
  rcases Nat.lt_or_ge (denominators p q) d with many | small
  · exact .inl (apart_of_denominators_lt pos few less many)
  rw [Bool.or_eq_true, Bool.and_eq_true] at separated
  rcases separated with ⟨power, naturals⟩ | fractions
  · by_cases same : d * p = T * q
    · exact .inr ⟨Nat.ble_eq.mp power, same⟩
    · refine .inl (apart_of_ne same ?_)
      rw [coarse, Bool.or_eq_true, Nat.blt_eq, Nat.blt_eq] at naturals
      refine naturals.imp (fun low => ?_) fun high => ?_
      · have := Nat.mul_le_mul_right q less.le
        omega
      · have := Nat.mul_le_mul_right p small
        omega
  · left
    simp only [bracketed, Bool.and_eq_true, Nat.blt_eq] at fractions
    obtain ⟨⟨inside, below⟩, above⟩ := fractions
    exact (Bracket.outside _ (small.trans_lt inside)).elim (Bracket.apart_of_le_low below some)
      (Bracket.apart_of_high_le above some)

/-- Two brackets that meet in a fraction leave only this one. -/
theorem apart_of_meet (g h : Bracket) (meet : g.highNum = h.lowNum ∧ g.highDen = h.lowDen)
    (inside : digitLimit < g.lowDen + g.highDen ∧ digitLimit < h.lowDen + h.highDen)
    (clear : g.clearBelow p q ∧ h.clearAbove p q) (some : 0 < d) (few : d ≤ digitLimit) :
    Apart (d * p) (T * q) ∨ T * g.highDen = g.highNum * d := by
  rcases g.outside (T := T) (few.trans_lt inside.1) with below | atLeast
  · exact .inl (Bracket.apart_of_le_low clear.1 some below)
  rcases h.outside (T := T) (few.trans_lt inside.2) with upTo | above
  · rw [← meet.1, ← meet.2] at upTo
    exact .inr (Nat.le_antisymm upTo atLeast)
  · exact .inl (Bracket.apart_of_high_le clear.2 some above)

/-- The decimals that a reader which rounds twice cannot tell from a middle at once. -/
inductive Close : Nat → Int → Nat → Int → Prop where
  | short : Close 7038531 (-32) 22841339 (-108)
  | long : Close 14077062 (-32) 22841339 (-107)

/-- A fraction in lowest terms whose numerator is not below half the greatest has no multiple. -/
theorem eq_of_lowest {a b : Nat} (lowest : Nat.Coprime a b) (half : 2 ^ 25 ≤ 2 * a) (some : 0 < d)
    (less : T < 2 ^ 25) (same : T * b = a * d) : d = b ∧ T = a := by
  obtain ⟨m, rfl⟩ : a ∣ T := lowest.dvd_of_dvd_mul_right ⟨d, same⟩
  have pos : 0 < a := by omega
  rw [Nat.mul_assoc] at same
  obtain rfl := Nat.eq_of_mul_eq_mul_left pos same
  have positive : 0 < m := Nat.pos_of_mul_pos_right some
  have one : m < 2 := Nat.lt_of_mul_lt_mul_left (a := a) (by omega)
  obtain rfl : m = 1 := by omega
  exact ⟨Nat.one_mul b, Nat.mul_one a⟩

theorem apart_or_close_short (some : 0 < d) (few : d ≤ digitLimit) (less : T < 2 ^ 25) :
    Apart (d * ratioNum (-32) (-108)) (T * ratioDen (-32) (-108)) ∨ Close d (-32) T (-108) := by
  refine (apart_of_meet ⟨60178276, 18543863, 22841339, 7038531, by norm_num⟩
    ⟨22841339, 7038531, 54028419, 16648792, by norm_num⟩ ⟨rfl, rfl⟩ (by decide) (by decide +kernel)
    some few).imp_right fun same => ?_
  obtain ⟨rfl, rfl⟩ := eq_of_lowest (by decide +kernel) (by decide) some less same
  exact .short

theorem apart_or_close_long (some : 0 < d) (few : d ≤ digitLimit) (less : T < 2 ^ 25) :
    Apart (d * ratioNum (-32) (-107)) (T * ratioDen (-32) (-107)) ∨ Close d (-32) T (-107) := by
  refine (apart_of_meet ⟨30089138, 18543863, 22841339, 14077062, by norm_num⟩
    ⟨22841339, 14077062, 15593540, 9610261, by norm_num⟩ ⟨rfl, rfl⟩ (by decide) (by decide +kernel)
    some few).imp_right fun same => ?_
  obtain ⟨rfl, rfl⟩ := eq_of_lowest (by decide +kernel) (by decide) some less same
  exact .long

theorem ten_mul_ratioDen (k e : Int) : (10 : ℚ) ^ k * ratioDen k e = 2 ^ e * ratioNum k e := by
  have parts (x : ℚ) (nonzero : x ≠ 0) (n : Int) : x ^ n * x ^ (-n).toNat = x ^ n.toNat := by
    rw [zpow_eq_div, div_mul_cancel₀ _ (pow_ne_zero _ nonzero)]
  have five := parts 5 (by norm_num) k
  have two := parts 2 (by norm_num) (k - e)
  rw [neg_sub] at two
  rw [ratioDen, ratioNum, show (10 : ℚ) = 5 * 2 by norm_num, mul_zpow,
    show (2 : ℚ) ^ k = 2 ^ e * 2 ^ (k - e) by rw [← zpow_add₀ (by norm_num), add_sub_cancel]]
  push_cast
  rw [← five, ← two]
  ring

/-- A decimal and a middle, both times the denominator of the powers. -/
theorem scaled_decimal (k e : Int) (d : Nat) :
    (d * 10 ^ k : ℚ) * ratioDen k e = (d * ratioNum k e : Nat) * 2 ^ e := by
  push_cast
  linear_combination (d : ℚ) * ten_mul_ratioDen k e

theorem scaled_middle (k e : Int) (T : Nat) :
    (T * 2 ^ e : ℚ) * ratioDen k e = (T * ratioDen k e : Nat) * 2 ^ e := by
  push_cast
  ring

theorem eq_of_ratio (same : d * ratioNum k e = T * ratioDen k e) : (d * 10 ^ k : ℚ) = T * 2 ^ e := by
  have den : (ratioDen k e : ℚ) ≠ 0 := by exact_mod_cast (ratioDen_pos k e).ne'
  refine mul_right_cancel₀ den ?_
  rw [scaled_decimal, same, scaled_middle]

/-- What is apart as naturals is so as a decimal and a middle. -/
theorem clear_of_apart (apart : Apart (d * ratioNum k e) (T * ratioDen k e)) :
    BinaryFormat.sliver * (T * 2 ^ e) < |(d * 10 ^ k - T * 2 ^ e : ℚ)| := by
  have den : (0 : ℚ) < ratioDen k e := by exact_mod_cast ratioDen_pos k e
  have two : (0 : ℚ) < 2 ^ e := by positivity
  have decimal := scaled_decimal k e d
  have middle := scaled_middle k e T
  generalize d * ratioNum k e = x at *
  generalize T * ratioDen k e = y at *
  generalize (d * 10 ^ k : ℚ) = D at *
  generalize (T * 2 ^ e : ℚ) = M at *
  unfold BinaryFormat.sliver
  rw [lt_abs]
  rcases apart with below | above
  · right
    have cast : (2 ^ 54 * x + 5 * y : ℚ) < 2 ^ 54 * y := by exact_mod_cast below
    refine lt_of_mul_lt_mul_right ?_ den.le
    nlinarith
  · left
    have cast : (2 ^ 54 * y + 5 * y : ℚ) < 2 ^ 54 * x := by exact_mod_cast above
    refine lt_of_mul_lt_mul_right ?_ den.le
    nlinarith

/-- A decimal that is far from a middle is clear of it. -/
theorem clear_of_twice {x y : ℚ} (pos : 0 < y) (twice : 2 * x ≤ y ∨ 2 * y ≤ x) :
    BinaryFormat.sliver * y < |x - y| := by
  unfold BinaryFormat.sliver
  rw [lt_abs]
  rcases twice with below | above
  · right
    linarith
  · left
    linarith

/-- A power of two outside the window is too small or too great for a power of ten. -/
theorem clear_of_outside (low : -53 ≤ k) (high : k ≤ 38) (some : 0 < d) (few : d ≤ digitLimit) (positive : 0 < T)
    (less : T < 2 ^ 25) (outside : e < logTen k - 26 ∨ logTen k + 27 ≤ e) :
    BinaryFormat.sliver * (T * 2 ^ e) < |(d * 10 ^ k - T * 2 ^ e : ℚ)| := by
  obtain ⟨lower, upper⟩ := logTen_bounds low high
  have two : (0 : ℚ) < 2 ^ e := by positivity
  have ten : (0 : ℚ) < 10 ^ k := by positivity
  have digits : (1 : ℚ) ≤ d := by exact_mod_cast some
  have digits' : (d : ℚ) ≤ 22370000 := by exact_mod_cast few
  have odd : (1 : ℚ) ≤ T := by exact_mod_cast positive
  have odd' : (T : ℚ) ≤ 2 ^ 25 := by exact_mod_cast less.le
  refine clear_of_twice (by positivity) ?_
  rcases outside with below | above
  · right
    have step : (2 : ℚ) ^ e * 2 ^ 26 ≤ 2 ^ logTen k := by
      rw [← zpow_natCast, ← zpow_add₀ (by norm_num)]
      exact zpow_le_zpow_right₀ (by norm_num) (by omega)
    nlinarith
  · left
    have step : (2 : ℚ) ^ (logTen k + 1) * 2 ^ 26 ≤ 2 ^ e := by
      rw [← zpow_natCast, ← zpow_add₀ (by norm_num)]
      exact zpow_le_zpow_right₀ (by norm_num) (by omega)
    nlinarith

/-- A decimal with few digits is clear of a middle, or the same and a natural times a small power, or one of
two. -/
theorem clear_or_close (low : -53 ≤ k) (high : k ≤ 38) (some : 0 < d) (few : d ≤ digitLimit) (positive : 0 < T)
    (less : T < 2 ^ 25) :
    BinaryFormat.sliver * (T * 2 ^ e) < |(d * 10 ^ k - T * 2 ^ e : ℚ)| ∨
      (k.natAbs ≤ 22 ∧ (d * 10 ^ k : ℚ) = T * 2 ^ e) ∨ Close d k T e := by
  by_cases outside : e < logTen k - 26 ∨ logTen k + 27 ≤ e
  · exact .inl (clear_of_outside low high some few positive less outside)
  obtain ⟨i, rfl⟩ : ∃ i : Nat, k = i - 53 := ⟨(k + 53).toNat, by omega⟩
  obtain ⟨j, rfl⟩ : ∃ j : Nat, e = logTen (i - 53) - 26 + j := ⟨(e - (logTen (i - 53) - 26)).toNat, by omega⟩
  rcases separates_of_window i (by omega) j (by omega) with separated | ⟨rfl, rfl | rfl⟩
  · rcases apart_of_separates separated some few less with apart | ⟨small, same⟩
    · exact .inl (clear_of_apart apart)
    · exact .inr (.inl ⟨small, eq_of_ratio same⟩)
  · exact (apart_or_close_short some few less).imp clear_of_apart .inr
  · exact (apart_or_close_long some few less).imp clear_of_apart .inr

end Decimal

end Inlining
