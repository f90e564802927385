import Mathlib
import Inlining.Program.Basic

/-!
# Tallies

A profile does not show in which order its calls were seen. Recording keeps two sums: the
count of each handle (`count_record`) and the total (`total_record`), and a saturating sum is
the exact one cut off once (`val_sum_eq_min`), whenever it saturates on the way. As the handles
of a tally are distinct (`nodup_record`), the tallies of two orders hold the same entries, in
another order perhaps (`tally_perm`), and sorting them gives one list, since no two entries
stand side by side in the order of frequency (`before_antisymm`). What is on such a list is said by
`Lists`. The profiles that a program comes with are recorded from the calls it lists (`profileOf?_eq_ofSamples`),
so the order of its lists does not matter either.
-/

namespace Inlining

/-- A sum is the exact sum cut off at the cap. -/
theorem Saturating.val_sum_eq_min {cap : Nat} (xs : List (Saturating cap)) :
    xs.sum.val = min (xs.map (·.val)).sum cap := by
  rw [val_sum, List.sum_eq_foldr, List.foldr_map]

theorem Saturating.sum_perm {cap : Nat} {xs ys : List (Saturating cap)} (same : xs.Perm ys) :
    xs.sum = ys.sum := by
  ext
  rw [val_sum_eq_min, val_sum_eq_min, (same.map _).sum_eq]

namespace Tally

variable {kind : HandleKind} {t u : Tally kind}

/-- The sum of the counts listed for a handle. -/
def count (t : Tally kind) (key : Handle kind) : SampleCount :=
  ((t.filter (·.1 = key)).map (·.2)).sum

/-- The number of calls listed for a handle, however many these are. -/
def exactCount (t : Tally kind) (key : Handle kind) : Nat :=
  ((t.filter (·.1 = key)).map (·.2.val)).sum

/-- The tally of counts recorded one after the other. -/
def ofRecords (records : List (Handle kind × SampleCount)) : Tally kind :=
  records.foldl (fun t entry => t.record entry.1 entry.2) []

theorem ofRecords_concat (records : List (Handle kind × SampleCount)) (last : Handle kind × SampleCount) :
    ofRecords (records ++ [last]) = (ofRecords records).record last.1 last.2 :=
  List.foldl_append ..

theorem val_count (t : Tally kind) (key : Handle kind) :
    (t.count key).val = min (t.exactCount key) 18446744073709551615 := by
  rw [count, Saturating.val_sum_eq_min, List.map_map]
  rfl

theorem count_cons (k : Handle kind) (c : SampleCount) (t : Tally kind) (key : Handle kind) :
    count ((k, c) :: t) key = (if k = key then c else 0) + count t key := by
  by_cases same : k = key
  · simp [count, same]
  · simp [count, same, Saturating.zero_add]

theorem total_cons (k : Handle kind) (c : SampleCount) (t : Tally kind) :
    total ((k, c) :: t) = c + t.total := by
  simp [total]

theorem count_eq_zero {key : Handle kind} (absent : key ∉ t.map (·.1)) : t.count key = 0 := by
  have none : t.filter (·.1 = key) = [] := by
    refine List.filter_eq_nil_iff.2 fun e he found => absent ?_
    rw [← of_decide_eq_true found]
    exact List.mem_map_of_mem he
  rw [count, none]
  rfl

/-- Where handles are listed once, an entry holds the count of its handle. -/
theorem count_eq_of_mem (distinct : (t.map (·.1)).Nodup) {e : Handle kind × SampleCount} (he : e ∈ t) :
    t.count e.1 = e.2 := by
  induction t with
  | nil => cases he
  | cons first rest ih =>
    obtain ⟨fresh, distinct⟩ := List.nodup_cons.1 distinct
    rw [count_cons]
    obtain rfl | he := List.mem_cons.1 he
    · rw [if_pos rfl, count_eq_zero fresh, Saturating.add_zero]
    · have other : first.1 ≠ e.1 := fun same => fresh (List.mem_map.2 ⟨e, he, same.symm⟩)
      rw [if_neg other, Saturating.zero_add, ih distinct he]

theorem count_perm (same : t.Perm u) (key : Handle kind) : t.count key = u.count key :=
  Saturating.sum_perm ((same.filter _).map _)

theorem total_perm (same : t.Perm u) : t.total = u.total :=
  Saturating.sum_perm (same.map _)

/-! ## What recording keeps -/

/-- Recording adds to the count of the handle, and to no other. -/
theorem count_record (key : Handle kind) (n : SampleCount) (t : Tally kind) (k : Handle kind) :
    (t.record key n).count k = t.count k + if key = k then n else 0 := by
  fun_induction record key n t with
  | case1 => exact (count_cons key n [] k).trans (Saturating.add_comm ..)
  | case2 c rest =>
    rw [count_cons, count_cons]
    split
    · rw [Saturating.add_assoc, Saturating.add_assoc, Saturating.add_comm n]
    · rw [Saturating.add_zero]
  | case3 k' c rest other ih => rw [count_cons, count_cons, ih, Saturating.add_assoc]

/-- Recording adds to the total. -/
theorem total_record (key : Handle kind) (n : SampleCount) (t : Tally kind) :
    (t.record key n).total = t.total + n := by
  fun_induction record key n t with
  | case1 => exact (total_cons key n []).trans (Saturating.add_comm ..)
  | case2 c rest =>
    rw [total_cons, total_cons, Saturating.add_assoc, Saturating.add_assoc, Saturating.add_comm n]
  | case3 k' c rest other ih => rw [total_cons, total_cons, ih, Saturating.add_assoc]

/-- The handles after recording: a handle that has an entry keeps its place. -/
theorem keys_record (key : Handle kind) (n : SampleCount) (t : Tally kind) :
    (t.record key n).map (·.1) =
      if key ∈ t.map (·.1) then t.map (·.1) else t.map (·.1) ++ [key] := by
  fun_induction record key n t with
  | case1 => simp
  | case2 c rest => simp
  | case3 k' c rest other ih =>
    rw [List.map_cons, ih]
    have listed : key ∈ (((k', c) :: rest).map (·.1)) ↔ key ∈ rest.map (·.1) := by
      simp [Ne.symm other]
    by_cases found : key ∈ rest.map (·.1)
    · rw [if_pos found, if_pos (listed.2 found), List.map_cons]
    · rw [if_neg found, if_neg (mt listed.1 found), List.map_cons, List.cons_append]

theorem mem_keys_record {key k : Handle kind} {n : SampleCount} :
    k ∈ (t.record key n).map (·.1) ↔ k ∈ t.map (·.1) ∨ k = key := by
  rw [keys_record]
  split <;> rename_i h
  · exact ⟨.inl, fun either => either.elim id (· ▸ h)⟩
  · rw [List.mem_append, List.mem_singleton]

theorem nodup_record (key : Handle kind) (n : SampleCount) (distinct : (t.map (·.1)).Nodup) :
    ((t.record key n).map (·.1)).Nodup := by
  rw [keys_record]
  split <;> rename_i h
  · exact distinct
  · exact distinct.append (List.nodup_singleton key) (by simpa using h)

/-- What a tally of `records` says about them: it has one entry for each handle, and neither the
counts nor the total depend on their order. -/
structure Sums (records : List (Handle kind × SampleCount)) (t : Tally kind) : Prop where
  distinct : (t.map (·.1)).Nodup
  keys : ∀ k, k ∈ t.map (·.1) ↔ k ∈ records.map (·.1)
  counts : ∀ k, t.count k = count records k
  sum : t.total = total records

theorem Sums.record {records : List (Handle kind × SampleCount)} (sums : Sums records t)
    (key : Handle kind) (n : SampleCount) : Sums ((key, n) :: records) (t.record key n) where
  distinct := nodup_record key n sums.distinct
  keys k := by rw [mem_keys_record, sums.keys, List.map_cons, List.mem_cons, or_comm]
  counts k := by rw [count_record, sums.counts, count_cons, Saturating.add_comm]
  sum := by rw [total_record, sums.sum, total_cons, Saturating.add_comm]

theorem Sums.perm {xs ys : List (Handle kind × SampleCount)} (sums : Sums xs t) (same : xs.Perm ys) :
    Sums ys t where
  distinct := sums.distinct
  keys k := (sums.keys k).trans (same.map _).mem_iff
  counts k := (sums.counts k).trans (count_perm same k)
  sum := sums.sum.trans (total_perm same)

/-- A tally sums up what was recorded in it, however long that is. -/
theorem sums_ofRecords (records : List (Handle kind × SampleCount)) : Sums records (ofRecords records) := by
  induction records using List.reverseRecOn with
  | nil => exact ⟨List.nodup_nil, fun _ => Iff.rfl, fun _ => rfl, rfl⟩
  | append_singleton records last ih =>
    rw [ofRecords_concat]
    exact (ih.record last.1 last.2).perm (List.perm_append_singleton last records).symm

namespace Sums

variable {records : List (Handle kind × SampleCount)}

/-- A handle is entered with the exact number of its calls, cut off at the cap. -/
theorem mem_iff (sums : Sums records t) {key : Handle kind} {n : SampleCount} :
    (key, n) ∈ t ↔ key ∈ records.map (·.1) ∧
      n.val = min (exactCount records key) 18446744073709551615 := by
  rw [← val_count, ← sums.counts, ← sums.keys]
  constructor
  · intro entered
    exact ⟨List.mem_map_of_mem entered, by rw [count_eq_of_mem sums.distinct entered]⟩
  · rintro ⟨listed, counted⟩
    obtain ⟨⟨_, m⟩, entered, rfl⟩ := List.mem_map.1 listed
    have : n = m := Saturating.ext (by rw [counted, count_eq_of_mem sums.distinct entered])
    exact this ▸ entered

/-- Two tallies of the same records hold the same entries. -/
theorem tally_perm (sums : Sums records t) (sums' : Sums records u) : t.Perm u := by
  rw [List.perm_ext_iff_of_nodup sums.distinct.of_map sums'.distinct.of_map]
  rintro ⟨key, n⟩
  rw [sums.mem_iff, sums'.mem_iff]

end Sums

/-! ## The order of frequency -/

theorem before_iff {a b : Handle kind × SampleCount} :
    before a b ↔ b.2.val < a.2.val ∨ a.2.val = b.2.val ∧ a.1.index ≤ b.1.index := by
  simp [before]

theorem before_trans (a b c : Handle kind × SampleCount) (h : before a b) (h' : before b c) :
    before a c := by
  rw [before_iff] at *
  omega

theorem before_total (a b : Handle kind × SampleCount) : before a b || before b a := by
  rw [Bool.or_eq_true, before_iff, before_iff]
  omega

/-- Entries that come before each other are one entry. -/
theorem before_antisymm {a b : Handle kind × SampleCount} (h : before a b) (h' : before b a) : a = b := by
  rw [before_iff] at h h'
  refine Prod.ext ?_ (Saturating.ext (by omega))
  have : a.1.index = b.1.index := by omega
  exact congrArg Handle.mk this

/-- Sorting a tally forgets the order of its entries. -/
theorem mergeSort_before_perm (same : t.Perm u) : t.mergeSort before = u.mergeSort before :=
  List.Perm.eq_of_pairwise (fun _ _ _ _ h h' => before_antisymm h h')
    (List.pairwise_mergeSort before_trans before_total t)
    (List.pairwise_mergeSort before_trans before_total u)
    ((List.mergeSort_perm t before).trans (same.trans (List.mergeSort_perm u before).symm))

theorem dominant_perm (same : t.Perm u) (ratio : Single) (samples : SampleCount) (limit : Nat) :
    t.dominant ratio samples limit = u.dominant ratio samples limit := by
  rw [dominant, dominant, total_perm same, mergeSort_before_perm same]

/-- Both handles have entries, and the first has the greater count or, of equal counts, is the smaller
handle. -/
def Precedes (t : Tally kind) (a b : Handle kind) : Prop :=
  ∃ m n, (a, m) ∈ t ∧ (b, n) ∈ t ∧ (n < m ∨ m = n ∧ a.index < b.index)

theorem precedes_of_before {a b : Handle kind × SampleCount} (ha : a ∈ t) (hb : b ∈ t)
    (order : before a b) (apart : a.1 ≠ b.1) : t.Precedes a.1 b.1 := by
  refine ⟨a.2, b.2, ha, hb, ?_⟩
  obtain more | ⟨same, least⟩ := before_iff.1 order
  · exact .inl more
  · have : a.1.index ≠ b.1.index := fun same => apart (congrArg Handle.mk same)
    exact .inr ⟨Saturating.ext same, by omega⟩

/-- A handle whose share of all calls reaches the ratio, with its share. -/
def Reaches (t : Tally kind) (ratio : Single) (e : Handle kind × Single) : Prop :=
  ∃ n, (e.1, n) ∈ t ∧ e.2 = share n t.total ∧ ratio.le e.2 = true

/-- The handles whose share reaches the ratio, in the order of frequency. -/
def ranking (t : Tally kind) (ratio : Single) : List (Handle kind × Single) :=
  ((t.mergeSort before).map fun entry => (entry.1, share entry.2 t.total)).filter fun e => ratio.le e.2

theorem dominant_eq (ratio : Single) (samples : SampleCount) (limit : Nat) :
    t.dominant ratio samples limit =
      if t.total = 0 ∨ t.total < samples then [] else (t.ranking ratio).take limit :=
  rfl

theorem mem_ranking {ratio : Single} {e : Handle kind × Single} :
    e ∈ t.ranking ratio ↔ t.Reaches ratio e := by
  rw [ranking, List.mem_filter, List.mem_map]
  constructor
  · rintro ⟨⟨entry, listed, rfl⟩, reaches⟩
    exact ⟨entry.2, List.mem_mergeSort.1 listed, rfl, reaches⟩
  · rintro ⟨n, listed, same, reaches⟩
    exact ⟨⟨(e.1, n), List.mem_mergeSort.2 listed, Prod.ext rfl same.symm⟩, reaches⟩

theorem ranking_pairwise (distinct : (t.map (·.1)).Nodup) (ratio : Single) :
    (t.ranking ratio).Pairwise fun a b => t.Precedes a.1 b.1 := by
  have sorted := List.pairwise_mergeSort before_trans before_total t
  have apart : ((t.mergeSort before).map (·.1)).Nodup :=
    ((List.mergeSort_perm t before).map _).nodup_iff.2 distinct
  have precedes : (t.mergeSort before).Pairwise fun a b => t.Precedes a.1 b.1 :=
    (sorted.and (List.pairwise_map.1 apart)).imp_of_mem fun ha hb h =>
      precedes_of_before (List.mem_mergeSort.1 ha) (List.mem_mergeSort.1 hb) h.1 h.2
  exact List.Pairwise.filter _ (List.pairwise_map.2 precedes)

/-- Who is in a sorted list, but not among the first of it, comes after all of these. -/
theorem later_of_not_mem_take {α : Type} {R : α → α → Prop} {xs : List α} {x : α} {limit : Nat}
    (sorted : xs.Pairwise R) (hx : x ∈ xs) (absent : x ∉ xs.take limit) :
    (xs.take limit).length = limit ∧ ∀ a ∈ xs.take limit, R a x := by
  rw [← List.take_append_drop limit xs] at hx sorted
  have later : x ∈ xs.drop limit := (List.mem_append.1 hx).resolve_left absent
  constructor
  · have more := List.length_pos_of_mem later
    rw [List.length_drop] at more
    rw [List.length_take]
    omega
  · intro a listed
    exact (List.pairwise_append.1 sorted).2.2 a listed x later

/-- The list of the dominant handles: in the order of frequency, and nobody is left out as long as there is
room and enough calls were seen. -/
structure Lists (t : Tally kind) (ratio : Single) (samples : SampleCount) (limit : Nat)
    (dominant : List (Handle kind × Single)) : Prop where
  ordered : dominant.Pairwise fun a b => t.Precedes a.1 b.1
  reaches : ∀ e ∈ dominant, t.Reaches ratio e
  bounded : dominant.length ≤ limit
  scarce : t.total = 0 ∨ t.total < samples → dominant = []
  leftOut : t.total ≠ 0 → samples ≤ t.total → ∀ e, t.Reaches ratio e → e ∉ dominant →
    dominant.length = limit ∧ ∀ a ∈ dominant, t.Precedes a.1 e.1

theorem lists_dominant (distinct : (t.map (·.1)).Nodup) (ratio : Single) (samples : SampleCount)
    (limit : Nat) : t.Lists ratio samples limit (t.dominant ratio samples limit) := by
  rw [dominant_eq]
  split
  next scarce =>
    refine ⟨List.Pairwise.nil, fun _ => ?_, Nat.zero_le _, fun _ => rfl, fun some enough => ?_⟩
    · intro listed
      cases listed
    · exact absurd scarce (not_or.2 ⟨some, Nat.not_lt.2 enough⟩)
  next enough =>
    have ranked := ranking_pairwise distinct ratio
    exact ⟨ranked.sublist (List.take_sublist ..),
      fun e listed => mem_ranking.1 (List.mem_of_mem_take listed),
      List.length_take_le ..,
      fun scarce => absurd scarce enough,
      fun _ _ e reaches absent => later_of_not_mem_take ranked (mem_ranking.2 reaches) absent⟩

/-- Nobody who asks for totals or dominant handles can tell the tallies apart. -/
structure Agrees (t u : Tally kind) : Prop where
  total : t.total = u.total
  dominant : ∀ ratio samples limit, t.dominant ratio samples limit = u.dominant ratio samples limit

/-- What `t` tells about the calls recorded in it: for each handle their exact number, cut off at 64 bits,
and which handles were seen most. -/
structure Reports (records : List (Handle kind × SampleCount)) (t : Tally kind) : Prop where
  distinct : (t.map (·.1)).Nodup
  counts : ∀ key n, (key, n) ∈ t ↔
    key ∈ records.map (·.1) ∧ n.val = min (exactCount records key) 18446744073709551615
  total : t.total.val = min (records.map (·.2.val)).sum 18446744073709551615
  ranked : ∀ ratio samples limit, t.Lists ratio samples limit (t.dominant ratio samples limit)

theorem agrees_of_perm {xs ys : List (Handle kind × SampleCount)} (same : xs.Perm ys) :
    (ofRecords xs).Agrees (ofRecords ys) := by
  have entries := ((sums_ofRecords xs).perm same).tally_perm (sums_ofRecords ys)
  exact ⟨total_perm entries, dominant_perm entries⟩

theorem reports_ofRecords (records : List (Handle kind × SampleCount)) :
    Reports records (ofRecords records) where
  distinct := (sums_ofRecords records).distinct
  counts _ _ := (sums_ofRecords records).mem_iff
  total := by
    rw [(sums_ofRecords records).sum, Tally.total, Saturating.val_sum_eq_min, List.map_map]
    rfl
  ranked := lists_dominant (sums_ofRecords records).distinct

end Tally

namespace CallProfile

/-- Calls that were seen. -/
inductive Sample where
  | receiver (receiver : ClassId) (count : SampleCount)
  | reference (reference : MethodRefId) (count : SampleCount)
deriving DecidableEq

/-- The calls with a receiver class. -/
def Sample.receiver? : Sample → Option (ClassId × SampleCount)
  | .receiver c n => some (c, n)
  | .reference .. => none

/-- The calls through a method reference. -/
def Sample.reference? : Sample → Option (MethodRefId × SampleCount)
  | .receiver .. => none
  | .reference r n => some (r, n)

/-- Records a sample. -/
def observe (p : CallProfile) : Sample → CallProfile
  | .receiver c n => p.record c n
  | .reference r n => p.recordReference r n

/-- The profile of the samples, recorded one after the other. -/
def ofSamples (samples : List Sample) : CallProfile := samples.foldl observe {}

/-- A profile keeps two tallies, of the classes and of the references. -/
theorem ofSamples_eq (samples : List Sample) :
    ofSamples samples =
      ⟨.ofRecords (samples.filterMap Sample.receiver?),
        .ofRecords (samples.filterMap Sample.reference?)⟩ := by
  induction samples using List.reverseRecOn with
  | nil => rfl
  | append_singleton samples last ih =>
    have step : ofSamples (samples ++ [last]) = (ofSamples samples).observe last := List.foldl_append ..
    rw [step, ih, List.filterMap_append, List.filterMap_append]
    cases last with
    | receiver c n =>
      simp [List.filterMap_cons, Sample.receiver?, Sample.reference?, Tally.ofRecords_concat, observe, record]
    | reference r n =>
      simp [List.filterMap_cons, Sample.receiver?, Sample.reference?, Tally.ofRecords_concat, observe,
        recordReference]

/-- A program that lists the calls of each kind gives the profile in which these were recorded. -/
theorem ofCounts_eq_ofSamples (receivers : List (ClassId × SampleCount))
    (references : List (MethodRefId × SampleCount)) :
    ofCounts receivers references =
      ofSamples (receivers.map (fun entry => .receiver entry.1 entry.2) ++
        references.map fun entry => .reference entry.1 entry.2) := by
  rw [ofSamples, List.foldl_append, List.foldl_map, List.foldl_map]
  rfl

/-- The calls that an entry of a program lists. -/
def listed (entry : ProfileDecl) : List Sample :=
  entry.receivers.map (fun seen => .receiver seen.1 seen.2) ++
    entry.references.map fun seen => .reference seen.1 seen.2

/-- The profile of a call is that of the calls that the last entry for it lists. -/
theorem profileOf?_eq_ofSamples {d : Description} {m : MethodId} {decl : MethodDecl} {index : Int}
    {entry : ProfileDecl} (hm : d.method? m = some decl)
    (last : decl.profiles.findRev? (·.index == index) = some entry) :
    d.profileOf? m index = some (ofSamples (listed entry)) := by
  rw [listed, ← ofCounts_eq_ofSamples, Description.profileOf?, hm]
  simp only [Option.bind_eq_bind, Option.bind_some, last, Option.pure_def]

theorem ofSamples_agrees {xs ys : List Sample} (same : xs.Perm ys) :
    (ofSamples xs).receivers.Agrees (ofSamples ys).receivers ∧
      (ofSamples xs).references.Agrees (ofSamples ys).references := by
  rw [ofSamples_eq, ofSamples_eq]
  exact ⟨Tally.agrees_of_perm (same.filterMap Sample.receiver?),
    Tally.agrees_of_perm (same.filterMap Sample.reference?)⟩

/-- **Profiles do not depend on the order of recording.** Whatever calls are recorded, in two orders: the
totals and the dominant classes and references are the same. Each class and each reference is counted as
often as it was recorded, exactly or up to 64 bits, and the most frequent are listed first. In whatever
order a program lists these calls for one of its own, it has a profile of that call which tells the same. -/
theorem ofSamples_perm {xs ys : List Sample} (same : xs.Perm ys) :
    (ofSamples xs).receivers.Agrees (ofSamples ys).receivers ∧
    (ofSamples xs).references.Agrees (ofSamples ys).references ∧
    (∀ ratio samples,
      (ofSamples xs).dominantReceiver? ratio samples = (ofSamples ys).dominantReceiver? ratio samples ∧
      (ofSamples xs).dominantReference? ratio samples = (ofSamples ys).dominantReference? ratio samples) ∧
    Tally.Reports (xs.filterMap Sample.receiver?) (ofSamples xs).receivers ∧
    Tally.Reports (xs.filterMap Sample.reference?) (ofSamples xs).references ∧
    ∀ (d : Description) (m : MethodId) (decl : MethodDecl) (index : Int) (entry : ProfileDecl),
      d.method? m = some decl → decl.profiles.findRev? (·.index == index) = some entry →
      (listed entry).Perm xs → ∃ profile, d.profileOf? m index = some profile ∧
        profile.receivers.Agrees (ofSamples xs).receivers ∧
        profile.references.Agrees (ofSamples xs).references := by
  obtain ⟨receivers, references⟩ := ofSamples_agrees same
  refine ⟨receivers, references, fun ratio samples => ⟨?_, ?_⟩, ?_, ?_,
    fun d m decl index entry hm last order => ⟨_, profileOf?_eq_ofSamples hm last, ofSamples_agrees order⟩⟩
  · rw [dominantReceiver?, dominantReceiver?, receivers.dominant]
  · rw [dominantReference?, dominantReference?, references.dominant]
  · rw [ofSamples_eq]
    exact Tally.reports_ofRecords _
  · rw [ofSamples_eq]
    exact Tally.reports_ofRecords _

/-- Calls on five objects and through a reference; one class alone fills the count. -/
def busyCall : List Sample :=
  [.receiver ⟨3⟩ (.ofNat _ 7), .receiver ⟨1⟩ (.ofNat _ 18446744073709551615), .reference ⟨2⟩ (.ofNat _ 19),
    .receiver ⟨1⟩ (.ofNat _ 5), .receiver ⟨2⟩ (.ofNat _ 7)]

/-- Recorded backwards, the calls give another profile that lists the same dominant classes. -/
theorem ofSamples_perm_reverse :
    ofSamples busyCall ≠ ofSamples busyCall.reverse ∧
      (ofSamples busyCall).receivers.dominant (Binary.ofNat 0) 0 3 =
        (ofSamples busyCall.reverse).receivers.dominant (Binary.ofNat 0) 0 3 :=
  ⟨by decide, (ofSamples_perm (List.reverse_perm busyCall).symm).1.dominant ..⟩

end CallProfile

end Inlining
