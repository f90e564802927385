import Inlining.Proofs.Reasons
import Inlining.Proofs.Ownership

/-!
# The report shows the live tree

The contents of a region are counted over all its sites and targets, while a report is built from the
root sites downwards. `Forest.below` lists the live targets that are reached on that way. No target is
reached twice, because the way to a target is determined by the target (`below_unique`), and without a
failed request every live target is reached, because a site that has one is neither dropped from the
body around it nor below a removed target (`Completes.mem_tree`). So the report shows exactly the live
targets, and the contents that it tells are those of what it shows (`report_shows_live`).
-/

namespace Inlining

/-- The live targets of a site and below it, down to a number of levels, from the top down. -/
def Forest.below (f : Forest) : Nat → SiteId → List TargetId
  | 0, _ => []
  | levels + 1, i => (f.live i).flatMap fun t => t :: (f.callees t).flatMap (f.below levels)

namespace Forest

variable {f : Forest} {limit levels levels' : Nat} {i j m : SiteId} {t u : TargetId} {k k' : Call}

theorem mem_below_succ : t ∈ f.below (levels + 1) i ↔
    ∃ u ∈ f.live i, t = u ∨ ∃ j ∈ f.callees u, t ∈ f.below levels j := by
  simp [below]

section Unique

variable (sound : f.Sound limit)
include sound

/-- A callee of a live target lies one level below the site of the target. -/
theorem depth_of_callee (hk : f.call? i = some k) (live : u ∈ f.live i) (callee : j ∈ f.callees u) :
    ∃ k', f.call? j = some k' ∧ k'.depth = k.depth + 1 := by
  obtain ⟨o, k₀, k', ho, hk₀, hk', deeper, -⟩ := sound.owned (List.mem_append_left _ callee)
  rw [sound.site_of_live ho live] at hk₀
  obtain rfl := Option.some.inj (hk.symm.trans hk₀)
  exact ⟨k', hk', deeper⟩

/-- What is listed below a site is live there or on a site further down. -/
theorem live_of_below (hk : f.call? i = some k) (h : t ∈ f.below levels i) :
    ∃ j k', t ∈ f.live j ∧ f.call? j = some k' ∧ k.depth ≤ k'.depth := by
  induction levels generalizing i k with
  | zero => cases h
  | succ levels ih =>
    obtain ⟨u, live, rfl | ⟨j, callee, h⟩⟩ := mem_below_succ.1 h
    · exact ⟨i, k, live, hk, Nat.le_refl _⟩
    · obtain ⟨k₁, hk₁, deeper⟩ := depth_of_callee sound hk live callee
      obtain ⟨j', k', live', hk', le⟩ := ih hk₁ h
      exact ⟨j', k', live', hk', by omega⟩

/-- A live target of a site is not listed below the callees of targets of its depth. -/
theorem not_below_callee (hk : f.call? i = some k) (hk' : f.call? j = some k') (le : k.depth ≤ k'.depth)
    (live : t ∈ f.live i) (live' : u ∈ f.live j) (callee : m ∈ f.callees u) : t ∉ f.below levels m := by
  intro h
  obtain ⟨k₁, hk₁, deeper⟩ := depth_of_callee sound hk' live' callee
  obtain ⟨i', k₂, live₂, hk₂, le'⟩ := live_of_below sound hk₁ h
  obtain rfl := sound.home_unique live live₂
  obtain rfl := Option.some.inj (hk.symm.trans hk₂)
  omega

/-- Of the sites of one depth only one has a given target below it. -/
theorem below_unique (hk : f.call? i = some k) (hk' : f.call? j = some k') (same : k.depth = k'.depth)
    (h : t ∈ f.below levels i) (h' : t ∈ f.below levels' j) : i = j := by
  induction levels generalizing levels' i j k k' with
  | zero => cases h
  | succ levels ih =>
    cases levels' with
    | zero => cases h'
    | succ levels' =>
      obtain ⟨u, live, here⟩ := mem_below_succ.1 h
      obtain ⟨u', live', there⟩ := mem_below_succ.1 h'
      rcases here with rfl | ⟨m, callee, h⟩ <;> rcases there with rfl | ⟨m', callee', h'⟩
      · exact sound.home_unique live live'
      · exact absurd h' (not_below_callee sound hk hk' same.le live live' callee')
      · exact absurd h (not_below_callee sound hk' hk same.ge live' live callee)
      · obtain ⟨k₁, hk₁, deeper⟩ := depth_of_callee sound hk live callee
        obtain ⟨k₂, hk₂, deeper'⟩ := depth_of_callee sound hk' live' callee'
        obtain rfl := ih hk₁ hk₂ (by omega) h h'
        obtain rfl := sound.owner_unique (List.mem_append_left _ callee) (List.mem_append_left _ callee')
        exact sound.home_unique live live'

/-- Sites of one depth list no target twice, neither one of them nor two. -/
theorem nodup_flatMap_below {sites : List SiteId} (distinct : sites.Nodup) {depth : Nat}
    (level : ∀ i ∈ sites, ∃ k, f.call? i = some k ∧ k.depth = depth)
    (each : ∀ i ∈ sites, (f.below levels i).Nodup) : (sites.flatMap (f.below levels)).Nodup := by
  refine List.nodup_flatMap.2 ⟨each, distinct.imp_of_mem fun {i j} hi hj ne => ?_⟩
  intro t h h'
  obtain ⟨k, hk, hd⟩ := level i hi
  obtain ⟨k', hk', hd'⟩ := level j hj
  exact ne (below_unique sound hk hk' (hd.trans hd'.symm) h h')

theorem nodup_below (hk : f.call? i = some k) : (f.below levels i).Nodup := by
  induction levels generalizing i k with
  | zero => exact List.nodup_nil
  | succ levels ih =>
    have inside (t : TargetId) (live : t ∈ f.live i) : ((f.callees t).flatMap (f.below levels)).Nodup := by
      refine nodup_flatMap_below sound (List.nodup_append'.1 (sound.owned_distinct t)).1
        (fun j callee => depth_of_callee sound hk live callee) fun j callee => ?_
      obtain ⟨k', hk', -⟩ := depth_of_callee sound hk live callee
      exact ih hk'
    refine List.nodup_flatMap.2 ⟨fun t live => List.nodup_cons.2 ⟨fun h => ?_, inside t live⟩, ?_⟩
    · obtain ⟨j, callee, h⟩ := List.mem_flatMap.1 h
      exact not_below_callee sound hk hk le_rfl live live callee h
    · refine (sound.live_nodup i).imp_of_mem fun {t u} live live' ne => ?_
      intro v h h'
      rcases List.mem_cons.1 h with rfl | h <;> rcases List.mem_cons.1 h' with rfl | h'
      · exact ne rfl
      · obtain ⟨j, callee, h'⟩ := List.mem_flatMap.1 h'
        exact not_below_callee sound hk hk le_rfl live live' callee h'
      · obtain ⟨j, callee, h⟩ := List.mem_flatMap.1 h
        exact not_below_callee sound hk hk le_rfl live' live callee h
      · -- what two targets have below them is below one site, which one of them owns
        obtain ⟨j, callee, h⟩ := List.mem_flatMap.1 h
        obtain ⟨j', callee', h'⟩ := List.mem_flatMap.1 h'
        obtain ⟨k₁, hk₁, deeper⟩ := depth_of_callee sound hk live callee
        obtain ⟨k₂, hk₂, deeper'⟩ := depth_of_callee sound hk live' callee'
        obtain rfl := below_unique sound hk₁ hk₂ (deeper.trans deeper'.symm) h h'
        exact ne (sound.owner_unique (List.mem_append_left _ callee) (List.mem_append_left _ callee'))

/-- The live targets of a callee are listed with the target whose callee it is, as long as the levels
reach that far down. -/
theorem below_of_callee (hk : f.call? i = some k) (h : u ∈ f.below levels i) (callee : j ∈ f.callees u)
    (hk' : f.call? j = some k') (reach : k'.depth < k.depth + levels) (live : t ∈ f.live j) :
    t ∈ f.below levels i := by
  induction levels generalizing i k with
  | zero => cases h
  | succ levels ih =>
    obtain ⟨v, live', rfl | ⟨m, callee', h⟩⟩ := mem_below_succ.1 h
    · obtain ⟨k₁, hk₁, deeper⟩ := depth_of_callee sound hk live' callee
      obtain rfl := Option.some.inj (hk'.symm.trans hk₁)
      refine mem_below_succ.2 ⟨u, live', .inr ⟨j, callee, ?_⟩⟩
      obtain ⟨levels, rfl⟩ : ∃ n, levels = n + 1 := ⟨levels - 1, by omega⟩
      exact mem_below_succ.2 ⟨t, live, .inl rfl⟩
    · obtain ⟨k₁, hk₁, deeper⟩ := depth_of_callee sound hk live' callee'
      exact mem_below_succ.2 ⟨v, live', .inr ⟨m, callee', ih hk₁ h (by omega)⟩⟩

end Unique

end Forest

namespace Region

variable (r : Region) (p : Program)

/-- The summary of a target, if it is there. -/
def summary? (t : TargetId) : Option TargetSummary := (r.targets.get? t).map (r.targetSummary p t)

variable {r p}

/-- The summary of a target is known by its handle. -/
theorem summary?_eq_some_iff {t : TargetId} {s : TargetSummary} :
    r.summary? p t = some s ↔ ∃ x, r.targets.get? t = some x ∧ s = r.targetSummary p t x := by
  simp [summary?, eq_comm]

theorem liveInAll_eq (ts : List TargetReport) : TargetReport.liveInAll ts = ts.flatMap (·.live) := by
  induction ts with
  | nil => rfl
  | cons t ts ih => rw [TargetReport.liveInAll, ih, List.flatMap_cons]

theorem sitesLiveInAll_eq (ss : List SiteReport) :
    SiteReport.liveInAll ss = ss.flatMap (·.liveTargets) := by
  induction ss with
  | nil => rfl
  | cons s ss ih => rw [SiteReport.liveInAll, ih, List.flatMap_cons]

/-- What the reports on some sites show is what the report on each of them shows. -/
theorem flatMap_filterMap {α β γ : Type} (report? : α → Option β) (show' : β → List γ)
    {shown : α → List γ} (same : ∀ a, ((report? a).map show').getD [] = shown a) (xs : List α) :
    (xs.filterMap report?).flatMap show' = xs.flatMap shown := by
  induction xs with
  | nil => rfl
  | cons x xs ih =>
    rw [List.flatMap_cons, ← ih, ← same x]
    cases h : report? x with
    | none => simp [h]
    | some y => simp [h]

/-- The report on a site shows the live targets below it. -/
theorem shown_below (levels : Nat) (i : SiteId) :
    ((r.siteReport? p levels i).map (·.liveTargets)).getD [] =
      (r.forest.below levels i).filterMap (r.summary? p) := by
  induction levels generalizing i with
  | zero => rfl
  | succ levels ih =>
    have target (t : TargetId) : ((r.targetReport? p (r.siteReport? p levels) t).map (·.live)).getD [] =
        (t :: (r.forest.callees t).flatMap (r.forest.below levels)).filterMap (r.summary? p) := by
      cases hx : r.targets.get? t with
      | none => simp [targetReport?, hx, forest, summary?]
      | some x =>
        have callees : (x.callees.filterMap (r.siteReport? p levels)).flatMap (·.liveTargets) =
            x.callees.flatMap fun j => (r.forest.below levels j).filterMap (r.summary? p) :=
          flatMap_filterMap _ _ ih _
        simp [targetReport?, hx, TargetReport.live, sitesLiveInAll_eq, callees, summary?,
          (forest_callees hx).1, List.filterMap_flatMap]
    cases hs : r.sites.get? i with
    | none => simp [siteReport?, hs, Forest.below, forest, liveTargets]
    | some s =>
      have live := flatMap_filterMap _ TargetReport.live target s.live
      simp [siteReport?, hs, SiteReport.liveTargets, liveInAll_eq, live, Forest.below, forest_live hs,
        List.filterMap_flatMap]

end Region

namespace Arena

variable {kind : HandleKind} {α : Type}

/-- No two things of an arena have one handle. -/
theorem nodup_handles (a : Arena kind α) : (a.entries.map (·.1)).Nodup := by
  have handles : a.entries.map (·.1) = (a.toList.zipIdx.map Prod.snd).map Handle.mk := by
    simp only [entries, List.map_map, Function.comp_def]
  rw [handles, List.zipIdx_map_snd]
  exact (List.nodup_range' ..).map fun _ _ h => congrArg Handle.index h

theorem mem_handles_iff {a : Arena kind α} {h : Handle kind} :
    h ∈ a.entries.map (·.1) ↔ ∃ x, a.get? h = some x := by
  simp [mem_entries_iff]

theorem map_snd_entries (a : Arena kind α) : a.entries.map (·.2) = a.toList := by
  simp [entries, Function.comp_def]

theorem length_entries (a : Arena kind α) : a.entries.length = a.size := by
  simp [entries, toList, size]

end Arena

namespace Region

variable {r : Region}

theorem mem_live_iff {t : TargetId} :
    t ∈ r.sites.toList.flatMap (·.live) ↔ ∃ i, t ∈ r.forest.live i := by
  simp only [List.mem_flatMap, Arena.mem_toList_iff]
  constructor
  · rintro ⟨s, ⟨i, hs⟩, ht⟩
    exact ⟨i, forest_live hs ▸ ht⟩
  · rintro ⟨i, ht⟩
    cases hs : r.sites.get? i with
    | none => simp [forest, liveTargets, hs] at ht
    | some s => exact ⟨s, ⟨i, hs⟩, forest_live hs ▸ ht⟩

/-- The targets of all sites are the live and the removed ones. -/
theorem placed_perm : r.placed.Perm
    (r.sites.toList.flatMap (·.live) ++ r.sites.toList.flatMap (·.removed)) :=
  (List.flatMap_append_perm r.sites.toList (·.live) (·.removed)).symm

/-- How many constants are recorded on a target. -/
def constantCount (r : Region) (t : TargetId) : Nat :=
  ((r.targets.get? t).map (·.constants.length)).getD 0

/-- The recorded constants are those of each target. -/
theorem stats_constants : r.stats.requiredConstants =
    ((r.targets.entries.map (·.1)).map r.constantCount).sum := by
  have counts : r.targets.entries.map (fun e => r.constantCount e.1) =
      r.targets.entries.map fun e => e.2.constants.length := by
    refine List.map_congr_left fun ⟨t, x⟩ he => ?_
    simp [constantCount, Arena.mem_entries_iff.1 he]
  have all : r.targets.toList.map (·.constants.length) =
      r.targets.entries.map fun e => e.2.constants.length := by
    rw [← Arena.map_snd_entries, List.map_map]
    rfl
  change (r.targets.toList.flatMap (·.constants)).length = _
  rw [List.length_flatMap, all, ← counts, List.map_map]
  rfl

section Sound

variable {limit : Nat} (sound : r.forest.Sound limit) (retired : r.Retired)
include sound retired

/-- Every target is on one site, once. -/
theorem placed_perm_handles : r.placed.Perm (r.targets.entries.map (·.1)) := by
  have there {t : TargetId} (ht : t ∈ r.placed) : ∃ x, r.targets.get? t = some x := by
    obtain ⟨s, hs, ht⟩ := List.mem_flatMap.1 ht
    obtain ⟨i, hs⟩ := Arena.mem_toList_iff.1 hs
    rw [← forest_live hs, ← forest_removed hs] at ht
    exact Option.ne_none_iff_exists'.1 (retired.there (List.mem_append.1 ht))
  have distinct : r.placed.Nodup := by
    refine List.nodup_iff_count_le_one.2 fun t => ?_
    by_cases ht : t ∈ r.placed
    · obtain ⟨x, hx⟩ := there ht
      exact (count_placed sound hx).1.le
    · exact (List.count_eq_zero.2 ht).le.trans (Nat.zero_le _)
  refine (List.perm_ext_iff_of_nodup distinct r.targets.nodup_handles).2 fun t => ?_
  rw [Arena.mem_handles_iff]
  refine ⟨there, fun ⟨x, hx⟩ => ?_⟩
  exact List.count_pos_iff.1 (by rw [(count_placed sound hx).1]; exact Nat.one_pos)

/-- Nothing is counted but what is live or removed. -/
theorem stats_targets : r.stats.liveTargets + r.stats.removedTargets = r.stats.callTargets := by
  have placed := (placed_perm.symm.trans (placed_perm_handles sound retired)).length_eq
  rwa [List.length_append, List.length_map, Arena.length_entries] at placed

/-- Only live targets have constants. -/
theorem stats_constants_live : r.stats.requiredConstants =
    ((r.sites.toList.flatMap (·.live)).map r.constantCount).sum := by
  have removed : ∀ n ∈ (r.sites.toList.flatMap (·.removed)).map r.constantCount, n = 0 := by
    intro n hn
    obtain ⟨t, ht, rfl⟩ := List.mem_map.1 hn
    obtain ⟨s, hs, ht⟩ := List.mem_flatMap.1 ht
    obtain ⟨i, hs⟩ := Arena.mem_toList_iff.1 hs
    rw [← forest_removed hs] at ht
    obtain ⟨x, hx⟩ := Option.ne_none_iff_exists'.1 (retired.there (.inr ht))
    simp [constantCount, hx, (retired.bare ht hx).1]
  have placed := (placed_perm.symm.trans (placed_perm_handles sound retired)).map r.constantCount
  rw [stats_constants, ← placed.sum_eq, List.map_append, List.sum_append, List.sum_eq_zero removed,
    Nat.add_zero]

end Sound

end Region

section Sessions

variable {p : Program} {config : Configuration} {earlier : List InlinedRecord} {c : Compilation}

/-- The live targets at and below the root sites. -/
def Compilation.tree (c : Compilation) (levels : Nat) : List TargetId :=
  c.roots.flatMap (c.region.forest.below levels)

theorem Completes.nodup_tree (h : Completes p config earlier c) (levels : Nat) :
    (c.tree levels).Nodup := by
  have accounts := h.accounts
  have sound := h.visits.sound
  have distinct := accounts.tops_distinct
  rw [List.append_nil] at distinct
  refine Forest.nodup_flatMap_below sound distinct accounts.root fun i hi => ?_
  obtain ⟨k, hk, -⟩ := accounts.root i hi
  exact Forest.nodup_below sound hk

/-- Every live target is in the tree: the target that has its site in its body is live too. -/
theorem Completes.mem_tree (h : Completes p config earlier c) {levels depth : Nat}
    (reach : depth < levels) {i : SiteId} {k : Call} (hk : c.region.forest.call? i = some k)
    (lies : k.depth = depth) {t : TargetId} (live : t ∈ c.region.forest.live i) : t ∈ c.tree levels := by
  have accounts := h.accounts
  have sound := h.visits.sound
  induction depth generalizing i k t with
  | zero =>
    have root : i ∈ c.roots := by
      have held := accounts.held i (by simp [hk])
      rw [List.append_nil] at held
      exact held.resolve_right fun ⟨u, owner⟩ => sound.not_owns_top hk lies owner
    obtain ⟨levels, rfl⟩ : ∃ n, levels = n + 1 := ⟨levels - 1, by omega⟩
    exact List.mem_flatMap.2 ⟨i, root, Forest.mem_below_succ.2 ⟨t, live, .inl rfl⟩⟩
  | succ depth ih =>
    obtain ⟨u, owner⟩ : ∃ u, c.region.forest.Owns u i := by
      have held := accounts.held i (by simp [hk])
      rw [List.append_nil] at held
      refine held.resolve_left fun root => ?_
      obtain ⟨k', hk', top⟩ := accounts.root i root
      obtain rfl := Option.some.inj (hk.symm.trans hk')
      omega
    have callee : i ∈ c.region.forest.callees u := by
      refine (List.mem_append.1 owner).resolve_right fun deleted => ?_
      exact List.not_mem_nil (sound.deleted_dead deleted ▸ live)
    obtain ⟨o, k₀, k', ho, hk₀, hk', deeper, -⟩ := sound.owned owner
    obtain rfl := Option.some.inj (hk.symm.trans hk')
    have live' : u ∈ c.region.forest.live o.site := by
      refine (sound.placed.2 (by simp [Forest.home?, ho])).resolve_right fun removed => ?_
      exact List.not_mem_nil (sound.removed_bare removed ▸ callee)
    obtain ⟨root, hroot, hu⟩ := List.mem_flatMap.1 (ih (by omega) hk₀ (by omega) live')
    obtain ⟨k₁, hk₁, top⟩ := accounts.root root hroot
    exact List.mem_flatMap.2
      ⟨root, hroot, Forest.below_of_callee sound hk₁ hu callee hk (by omega) live⟩

theorem Completes.tree_perm (h : Completes p config earlier c) :
    (c.tree (config.maxDepth + 1)).Perm (c.region.sites.toList.flatMap (·.live)) := by
  have sound := h.visits.sound
  have distinct : (c.region.sites.toList.flatMap (·.live)).Nodup := by
    have placed := Region.placed_perm_handles sound h.visits.retired
    exact (List.nodup_append'.1 (Region.placed_perm.nodup_iff.1
      (placed.nodup_iff.2 c.region.targets.nodup_handles))).1
  refine (List.perm_ext_iff_of_nodup (h.nodup_tree _) distinct).2 fun t => ?_
  rw [Region.mem_live_iff]
  constructor
  · intro ht
    obtain ⟨root, hroot, ht⟩ := List.mem_flatMap.1 ht
    obtain ⟨k, hk, -⟩ := h.accounts.root root hroot
    obtain ⟨i, -, live, -⟩ := Forest.live_of_below sound hk ht
    exact ⟨i, live⟩
  · rintro ⟨i, live⟩
    obtain ⟨k, hk⟩ := sound.call_of_live live
    have := sound.depth_lt hk live
    exact h.mem_tree (by omega) hk rfl live

/-- The report lists the targets in the tree, in the order of the tree. -/
theorem report_liveTargets : (c.report p config).liveTargets =
    (c.tree (config.maxDepth + 1)).filterMap (c.region.summary? p) := by
  rw [Report.liveTargets, Region.sitesLiveInAll_eq, Compilation.report, Compilation.tree,
    List.filterMap_flatMap]
  exact Region.flatMap_filterMap _ _ (Region.shown_below _) _

/-- A target that is shown as removed is shown empty. -/
theorem Visits.removed_shown (h : Visits p config earlier c) {summary : SiteSummary}
    {targets removed : List TargetReport}
    (shown : (c.report p config).Shows (.mk summary targets removed)) {head : TargetSummary}
    {callees : List SiteReport} (hr : .mk head callees ∈ removed) :
    callees = [] ∧ head.constants = [] := by
  obtain ⟨root, hroot, shown⟩ := shown
  obtain ⟨i, -, report⟩ := List.mem_filterMap.1 hroot
  obtain ⟨levels, i, report⟩ := Region.siteReport?_of_shows shown ⟨_, i, report⟩
  cases levels with
  | zero => cases report
  | succ levels =>
    obtain ⟨s, hs, report⟩ := Option.map_eq_some_iff.1 report
    cases report
    obtain ⟨t, ht, report⟩ := List.mem_filterMap.1 hr
    obtain ⟨x, hx, report⟩ := Option.map_eq_some_iff.1 report
    cases report
    rw [← Region.forest_removed hs] at ht
    have empty := h.sound.removed_bare ht
    rw [(Region.forest_callees hx).1] at empty
    rw [empty]
    exact ⟨rfl, by simp [Region.targetSummary, (h.retired.bare ht hx).1]⟩

/-- **The report shows the live tree.** After a session without a failed request, the report lists every
live target of the region once and nothing else, as it is. These are as many as its contents tell, all
other targets are removed ones, and these are shown without callees and without constants. The constants
that its contents tell are those shown with the live targets. -/
theorem report_shows_live (h : Completes p config earlier c) :
    let report := c.report p config
    (report.liveTargets.map (·.id)).Nodup ∧
    (∀ t, t ∈ report.liveTargets.map (·.id) ↔ ∃ i s, c.region.sites.get? i = some s ∧ t ∈ s.live) ∧
    (∀ summary ∈ report.liveTargets, ∃ x, c.region.targets.get? summary.id = some x ∧
      summary = c.region.targetSummary p summary.id x) ∧
    report.liveTargets.length = report.stats.liveTargets ∧
    report.stats.liveTargets + report.stats.removedTargets = report.stats.callTargets ∧
    (∀ summary targets removed, report.Shows (.mk summary targets removed) →
      ∀ head callees, .mk head callees ∈ removed → callees = [] ∧ head.constants = []) ∧
    report.stats.requiredConstants = (report.liveTargets.map (·.constants.length)).sum := by
  have sound := h.visits.sound
  have retired := h.visits.retired
  have perm := h.tree_perm
  have there {t : TargetId} (ht : t ∈ c.tree (config.maxDepth + 1)) :
      ∃ x, c.region.targets.get? t = some x := by
    obtain ⟨i, live⟩ := Region.mem_live_iff.1 (perm.mem_iff.1 ht)
    exact Option.ne_none_iff_exists'.1 (retired.there (.inl live))
  have listed {α : Type} {shown : TargetSummary → α} {known : TargetId → α}
      (same : ∀ t x, c.region.targets.get? t = some x →
        shown (c.region.targetSummary p t x) = known t) :
      (c.report p config).liveTargets.map shown = (c.tree (config.maxDepth + 1)).map known := by
    rw [report_liveTargets, List.map_filterMap, ← List.filterMap_eq_map]
    refine List.filterMap_congr fun t ht => ?_
    obtain ⟨x, hx⟩ := there ht
    simp [Region.summary?, hx, same t x hx]
  have ids : (c.report p config).liveTargets.map (·.id) = c.tree (config.maxDepth + 1) := by
    rw [@listed _ (·.id) id fun _ _ _ => rfl, List.map_id]
  have counts : (c.report p config).liveTargets.map (·.constants.length) =
      (c.tree (config.maxDepth + 1)).map c.region.constantCount :=
    listed fun t x hx => by simp [Region.targetSummary, Region.constantCount, hx]
  refine ⟨ids ▸ h.nodup_tree _, fun t => ?_, fun summary hs => ?_, ?_,
    Region.stats_targets sound retired, fun _ _ _ shown _ _ hr => h.visits.removed_shown shown hr, ?_⟩
  · rw [ids, perm.mem_iff]
    simp only [List.mem_flatMap, Arena.mem_toList_iff]
    exact ⟨fun ⟨s, ⟨i, hs⟩, live⟩ => ⟨i, s, hs, live⟩, fun ⟨i, s, hs, live⟩ => ⟨s, ⟨i, hs⟩, live⟩⟩
  · rw [report_liveTargets] at hs
    obtain ⟨t, -, hs⟩ := List.mem_filterMap.1 hs
    obtain ⟨x, hx, rfl⟩ := Region.summary?_eq_some_iff.1 hs
    exact ⟨x, hx, rfl⟩
  · rw [← List.length_map (·.id), ids]
    exact perm.length_eq
  · rw [counts]
    exact (Region.stats_constants_live sound retired).trans (perm.map _).sum_eq.symm

/-- Both shapes that were drawn are live in the body of `render`, which is live itself. -/
theorem report_shows_squares :
    let report := squaresDrawn.report shapes .standard
    report.liveTargets.map (·.id) = [⟨0⟩, ⟨1⟩, ⟨2⟩] ∧ (report.liveTargets.map (·.id)).Nodup ∧
      report.liveTargets.length = report.stats.liveTargets ∧ report.stats.callTargets = 3 := by
  obtain ⟨distinct, -, -, length, -⟩ := report_shows_live completes_squaresDrawn
  exact ⟨by decide +kernel, distinct, length, by decide +kernel⟩

end Sessions

end Inlining
