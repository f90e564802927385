import Mathlib
import Inlining.Proofs.Rounding
import Inlining.Proofs.Tallies

/-!
# Dominant classes

A share is a quotient of two roundings, rounded once more. None of the three steps lets a count of at most
half the total get past one half (`share_le_half`): rounding keeps the order, and it keeps a number and its
double a factor of two apart. So whoever is listed for a ratio beyond one half has more than half of the
total, and two of them have more than the total.

That leaves one way to list two. The total stops at 64 bits, and counts beyond that are not half of anything
(`two_dominant`).
-/

namespace Inlining

/-- One half. -/
def half : Single := .ofRatio false 1 2

namespace Binary

variable {fmt : BinaryFormat}

theorem isNaN_ofRatio (negative : Bool) (num den : Nat) :
    (ofRatio negative num den : Binary fmt).isNaN = false :=
  decide_eq_false (Nat.not_lt.2 (Nat.min_le_right ..))

theorem le_trans {x y z : Binary fmt} (h : x.le y = true) (h' : y.le z = true) : x.le z = true := by
  simp only [le, Bool.and_eq_true, Bool.not_eq_true', decide_eq_true_eq] at *
  exact ⟨⟨h.1.1, h'.1.2⟩, h.2.trans h'.2⟩

/-- Among the non-negative quotients, the order is that of the words. -/
theorem le_ofRatio {num den num' den' : Nat}
    (le : (ofRatio false num den : Binary fmt).magnitude ≤ (ofRatio false num' den' : Binary fmt).magnitude) :
    (ofRatio false num den : Binary fmt).le (ofRatio false num' den') = true := by
  have ranks : (ofRatio false num den : Binary fmt).rank ≤ (ofRatio false num' den' : Binary fmt).rank :=
    Int.ofNat_le.2 le
  simp only [Binary.le, isNaN_ofRatio, ranks, Bool.not_false, Bool.and_self, decide_true]

end Binary

open Binary

/-- A 64-bit count is far from infinity. -/
theorem SampleCount.finite (n : SampleCount) :
    (ofNat n.val : Single).magnitude < BinaryFormat.single.infinite := by
  have bits : 0 < BinaryFormat.single.fractionBits := BinaryFormat.ample_single.bits
  have most : (ofNat 18446744073709551615 : Single).magnitude < BinaryFormat.single.infinite := by decide
  refine Nat.lt_of_le_of_lt (magnitude_mono bits Nat.one_pos Nat.one_pos ?_) most
  exact Nat.mul_le_mul_right 1 n.val_le

namespace Tally

variable {kind : HandleKind} {t : Tally kind} {records : List (Handle kind × SampleCount)}

/-- A share is the rounded quotient of the rounded counts. -/
theorem share_eq {count total : SampleCount} (some : total.val ≠ 0) :
    share count total = ofRatio false (ofNat count.val : Single).units (ofNat total.val : Single).units := by
  have full := fractions_lt_magnitude BinaryFormat.ample_single false Nat.one_pos
    (Nat.one_le_iff_ne_zero.2 some)
  have nonzero : ((ofNat total.val : Single).magnitude == 0) = false := by
    change BinaryFormat.single.fractions + 1 < (ofNat total.val : Single).magnitude at full
    exact beq_false_of_ne (by omega)
  have finite (n : SampleCount) : (ofNat n.val : Single).isInfinite = false :=
    beq_false_of_ne (SampleCount.finite n).ne
  have number (n : SampleCount) : (ofNat n.val : Single).isNaN = false := isNaN_ofRatio ..
  change Binary.div _ _ = _
  simp only [div, number, finite, nonzero, Bool.or_self, Bool.false_eq_true, if_false]
  rfl

/-- A count of at most half the total has a share of at most one half, however it is rounded. -/
theorem share_le_half {count total : SampleCount} (some : total.val ≠ 0)
    (le : 2 * count.val ≤ total.val) : (share count total).le half = true := by
  have ample := BinaryFormat.ample_single
  have units : 2 * (ofNat count.val : Single).units ≤ (ofNat total.val : Single).units :=
    double_units_le ample le (SampleCount.finite total)
  have pos : 0 < (ofNat total.val : Single).units := by
    have full := fractions_lt_magnitude ample false Nat.one_pos (Nat.one_le_iff_ne_zero.2 some)
    exact (Nat.zero_le _).trans_lt (BinaryFormat.units_strictMono _ (Nat.zero_lt_of_lt full))
  rw [share_eq some, half]
  exact le_ofRatio (magnitude_mono ample.bits pos Nat.two_pos (by omega))

/-- Two handles were not seen more often than all calls together. -/
theorem exactCount_add_le (records : List (Handle kind × SampleCount)) {a b : Handle kind} (apart : a ≠ b) :
    exactCount records a + exactCount records b ≤ (records.map (·.2.val)).sum := by
  induction records with
  | nil => exact Nat.le_refl 0
  | cons first rest ih =>
    have parts (k : Handle kind) :
        exactCount (first :: rest) k = (if first.1 = k then first.2.val else 0) + exactCount rest k := by
      by_cases same : first.1 = k <;> simp [exactCount, same]
    have once : (if first.1 = a then first.2.val else 0) + (if first.1 = b then first.2.val else 0) ≤
        first.2.val := by
      split
      next same => simp [same ▸ apart]
      next => split <;> omega
    rw [parts, parts, List.map_cons, List.sum_cons]
    omega

theorem Precedes.ne {a b : Handle kind} (distinct : (t.map (·.1)).Nodup) (h : t.Precedes a b) : a ≠ b := by
  rintro rfl
  obtain ⟨m, n, hm, hn, order⟩ := h
  have same : m = n := (count_eq_of_mem distinct hm).symm.trans (count_eq_of_mem distinct hn)
  subst same
  exact order.elim (Nat.lt_irrefl _) fun least => Nat.lt_irrefl _ least.2

/-- The handles listed for a ratio beyond one half: each has more than half of the total, and there is at
most one as long as the calls can be counted. -/
structure Majority (records : List (Handle kind × SampleCount)) (t : Tally kind)
    (dominant : List (Handle kind × Single)) : Prop where
  most : ∀ e ∈ dominant, ∃ n, (e.1, n) ∈ t ∧ t.total.val < 2 * n.val
  one : (records.map (·.2.val)).sum ≤ 18446744073709551615 → dominant.length ≤ 1

theorem most_of_reaches {ratio : Single} (beyond : ratio.le half = false) (some : t.total.val ≠ 0)
    {e : Handle kind × Single} (reaches : t.Reaches ratio e) :
    ∃ n, (e.1, n) ∈ t ∧ t.total.val < 2 * n.val := by
  obtain ⟨n, listed, share, reaches⟩ := reaches
  refine ⟨n, listed, Nat.lt_of_not_le fun le => ?_⟩
  rw [share] at reaches
  rw [le_trans reaches (share_le_half some le)] at beyond
  contradiction

theorem Reports.majority (reports : Reports records t) {ratio : Single} (beyond : ratio.le half = false)
    (samples : SampleCount) (limit : Nat) : Majority records t (t.dominant ratio samples limit) := by
  have lists := reports.ranked ratio samples limit
  have most (e) (listed : e ∈ t.dominant ratio samples limit) :
      ∃ n, (e.1, n) ∈ t ∧ t.total.val < 2 * n.val := by
    refine most_of_reaches beyond (fun none => ?_) (lists.reaches e listed)
    rw [lists.scarce (.inl (Saturating.ext none))] at listed
    cases listed
  refine ⟨most, fun exact => ?_⟩
  have ordered := lists.ordered
  match t.dominant ratio samples limit, most, ordered with
  | [], _, _ => exact Nat.zero_le 1
  | [_], _, _ => exact Nat.le_refl 1
  | a :: b :: rest, most, ordered =>
    have apart : a.1 ≠ b.1 :=
      ((List.pairwise_cons.1 ordered).1 b (List.mem_cons_self ..)).ne reports.distinct
    obtain ⟨m, ha, moreA⟩ := most a (List.mem_cons_self ..)
    obtain ⟨n, hb, moreB⟩ := most b (List.mem_cons_of_mem _ (List.mem_cons_self ..))
    -- nothing is cut off, so the two were seen more often than all calls together
    have countA := ((reports.counts _ _).1 ha).2
    have countB := ((reports.counts _ _).1 hb).2
    have total := reports.total
    have together := exactCount_add_le records apart
    omega

end Tally

namespace CallProfile

/-- **Only one receiver can dominate.** Whatever calls are recorded: for a ratio beyond one half, each class
and each reference listed has more than half of the total, rounding or not. Only one is listed unless more
calls were recorded than fit in 64 bits. -/
theorem dominant_majority (samples : List Sample) {ratio : Single} (beyond : ratio.le half = false)
    (least : SampleCount) (limit : Nat) :
    Tally.Majority (samples.filterMap Sample.receiver?) (ofSamples samples).receivers
      ((ofSamples samples).receivers.dominant ratio least limit) ∧
    Tally.Majority (samples.filterMap Sample.reference?) (ofSamples samples).references
      ((ofSamples samples).references.dominant ratio least limit) := by
  rw [ofSamples_eq]
  exact ⟨(Tally.reports_ofRecords _).majority beyond least limit,
    (Tally.reports_ofRecords _).majority beyond least limit⟩

/-- Two classes that are one call apart, where a share has room for 24 bits only. -/
def closeCall : List Sample :=
  [.receiver ⟨1⟩ (.ofNat _ 9223372036854775807), .receiver ⟨2⟩ (.ofNat _ 9223372036854775808)]

/-- The smallest ratio beyond one half. -/
theorem dominant_majority_close :
    (Binary.ofBits 0x3f000001 : Single).le half = false ∧
      ((ofSamples closeCall).receivers.dominant (Binary.ofBits 0x3f000001) 0 2).length ≤ 1 := by
  have beyond : (Binary.ofBits 0x3f000001 : Single).le half = false := by decide
  exact ⟨beyond, (dominant_majority closeCall beyond 0 2).1.one (by decide)⟩

/-- Two classes with half of the calls each, which are too many to be counted. -/
def crowdedCall : List Sample :=
  [.receiver ⟨1⟩ (.ofNat _ 18446744073709551615), .receiver ⟨2⟩ (.ofNat _ 18446744073709551615)]

/-- The total is cut off, the counts are not: both classes are said to have all of the calls. -/
theorem two_dominant :
    (Binary.ofBits 0x3f19999a : Single).le half = false ∧
      (ofSamples crowdedCall).receivers.dominant (Binary.ofBits 0x3f19999a) (.ofNat _ 1) 4 =
        [(⟨1⟩, Binary.ofNat 1), (⟨2⟩, Binary.ofNat 1)] := by
  have sorted : (ofSamples crowdedCall).receivers.mergeSort Tally.before = (ofSamples crowdedCall).receivers :=
    List.mergeSort_of_pairwise (by decide)
  refine ⟨by decide, ?_⟩
  rw [Tally.dominant, sorted]
  decide +kernel

end CallProfile

end Inlining
