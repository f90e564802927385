import Inlining.Proofs.Requests

/-!
# Sizes and the budget

The sizes of targets are sums that are kept up to date in two places: where a body was explored,
and where a revisit adds a target inside it. In a session without a failed request they are at
every moment what one would get from the bodies alone (`fullSize_eq_sizeAnew`), and the total is
the sum over the targets of the compiled methods (`totalSize_accounted`).
-/

namespace Inlining

open Exploration

/-- The size of a target computed anew from the bodies below it, down to a number of levels. -/
def Region.sizeAnew (r : Region) : Nat → TargetId → Size
  | 0, _ => 0
  | levels + 1, t =>
    match r.targets.get? t with
    | none => 0
    | some x => x.size + ((x.callees.flatMap r.liveTargets).map (r.sizeAnew levels)).sum

namespace Forest

variable {f : Forest}

/-- What all live targets of some sites weigh when none is hidden. -/
theorem sum_weight (f : Forest) (sites : List SiteId) :
    (sites.map (f.weight [])).sum = ((sites.flatMap f.live).map f.fullSize).sum := by
  induction sites with
  | nil => rfl
  | cons i sites ih =>
    have all : f.weight [] i = ((f.live i).map f.fullSize).sum := by simp [weight]
    rw [List.map_cons, List.sum_cons, ih, all, List.flatMap_cons, List.map_append, List.sum_append]

end Forest

section Sizes

variable {p : Program} {config : Configuration} {earlier : List InlinedRecord} {c : Compilation}

/-- The size of a live target is that of its own body and of what is inlined into it. -/
theorem Completes.settled (h : Completes p config earlier c) {i : SiteId} {t : TargetId}
    (live : t ∈ c.region.liveTargets i) :
    ∃ x, c.region.targets.get? t = some x ∧
      x.fullSize = x.size + ((x.callees.flatMap c.region.liveTargets).map c.region.fullSize).sum ∧
      x.fullSize ≤ config.maxCallSize := by
  obtain ⟨⟨o, ho, sum⟩, fits⟩ := h.accounts.settled (t := t) (i := i) List.not_mem_nil live
  obtain ⟨x, hx, rfl⟩ := Region.target_of_origin ho
  rw [Region.forest_fullSize hx] at sum fits
  rw [(Region.forest_callees hx).1, Forest.sum_weight] at sum
  exact ⟨x, hx, sum, fits⟩

/-- Computing sizes anew gives the sizes at hand, from any number of levels on that reaches down
to the depth limit. -/
theorem Completes.sizeAnew (h : Completes p config earlier c) {levels : Nat} {i : SiteId} {s : CallSite}
    {t : TargetId} (hs : c.region.sites.get? i = some s) (live : t ∈ s.live)
    (reach : config.maxDepth ≤ s.depth + levels) :
    c.region.sizeAnew levels t = c.region.fullSize t := by
  have sound := h.visits.sound
  have hl : t ∈ c.region.forest.live i := by
    rw [Region.forest_live hs]
    exact live
  have hk := Region.forest_call hs
  induction levels generalizing i s t with
  | zero =>
    have within : s.depth < config.maxDepth := sound.depth_lt hk hl
    omega
  | succ levels ih =>
    obtain ⟨x, hx, sum, -⟩ := h.settled hl
    rw [show c.region.fullSize t = x.fullSize from Region.forest_fullSize hx, sum]
    simp only [Region.sizeAnew, hx]
    refine congrArg (x.size + ·) (congrArg List.sum (List.map_congr_left fun u hu => ?_))
    obtain ⟨j, hj, hu⟩ := List.mem_flatMap.1 hu
    -- the callees lie one level further down
    have owner := (Region.forest_owns hx).2 (List.mem_append_left _ hj)
    obtain ⟨o, k, k', ho, hk₁, hk₂, deeper, -⟩ := sound.owned owner
    rw [sound.site_of_live ho hl, hk] at hk₁
    cases hk₁
    obtain ⟨s', hs', rfl⟩ := Region.site_of_call hk₂
    have live' : u ∈ s'.live := by
      rw [← Region.forest_live hs']
      exact hu
    exact ih hs' live' (by omega) hu hk₂

/-- **Body sizes.** In a session without a failed request every live target is as large as its own
body and the live targets of its callees together, and not too large. That is what computing the
sizes anew from the innermost bodies gives. -/
theorem fullSize_eq_sizeAnew (h : Completes p config earlier c) {i : SiteId} {s : CallSite}
    {t : TargetId} (hs : c.region.sites.get? i = some s) (live : t ∈ s.live) :
    ∃ x, c.region.targets.get? t = some x ∧
      x.fullSize = x.size + ((x.callees.flatMap c.region.liveTargets).map c.region.fullSize).sum ∧
      x.fullSize ≤ config.maxCallSize ∧
      ∀ levels, config.maxDepth ≤ levels → c.region.sizeAnew levels t = x.fullSize := by
  have hl : t ∈ c.region.forest.live i := by
    rw [Region.forest_live hs]
    exact live
  obtain ⟨x, hx, sum, fits⟩ := h.settled hl
  refine ⟨x, hx, sum, fits, fun levels reach => ?_⟩
  rw [h.sizeAnew hs live (by omega)]
  exact Region.forest_fullSize hx

/-- `render` has grown by the second way of drawing. -/
theorem fullSize_render :
    ∃ s x, squaresDrawn.region.sites.get? ⟨0⟩ = some s ∧ ⟨0⟩ ∈ s.live ∧
      squaresDrawn.region.targets.get? ⟨0⟩ = some x ∧
      x.fullSize = x.size + ((x.callees.flatMap squaresDrawn.region.liveTargets).map
        squaresDrawn.region.fullSize).sum ∧
      squaresDrawn.region.sizeAnew 4 ⟨0⟩ = x.fullSize ∧ x.fullSize = .ofNat _ 60 := by
  have there : (squaresDrawn.region.sites.get? ⟨0⟩).any (·.live.contains ⟨0⟩) := by decide +kernel
  obtain ⟨s, hs, live⟩ := (Option.any_eq_true ..).1 there
  have live := List.contains_iff_mem.1 live
  obtain ⟨x, hx, sum, -, anew⟩ := fullSize_eq_sizeAnew completes_squaresDrawn hs live
  refine ⟨s, x, hs, live, hx, sum, anew 4 (Nat.le_refl 4), ?_⟩
  have size : squaresDrawn.region.fullSize ⟨0⟩ = .ofNat _ 60 := by decide +kernel
  simpa [Region.fullSize, hx] using size

/-- **The budget.** In every session the total stays within its limit and no request makes it
smaller. Without a failed request it is the sum of the sizes of all live targets of the root
sites. -/
theorem totalSize_accounted (h : Visits p config earlier c) :
    c.totalSize ≤ config.maxTotalSize ∧
      (∀ advice request answer c',
        (perform ⟨p, config, advice⟩ request).run c = (answer, c') → c.totalSize ≤ c'.totalSize) ∧
      (Completes p config earlier c →
        c.totalSize = ((c.roots.flatMap c.region.liveTargets).map c.region.fullSize).sum) := by
  have within : c.totalSize ≤ config.maxTotalSize := by
    refine h.invariant (P := fun c => c.totalSize ≤ config.maxTotalSize) (Nat.zero_le _)
      fun advice request c hc => ?_
    exact (maintains_perform ⟨p, config, advice⟩ 0 request c ⟨Nat.zero_le _, hc⟩).mono
      (fun _ _ h => h.2) fun _ _ h => h.2
  refine ⟨within, fun advice request answer c' run => ?_, fun h => ?_⟩
  · have spent := maintains_perform ⟨p, config, advice⟩ c.totalSize request c
      ⟨Nat.le_refl _, within⟩
    cases answer with
    | ok => exact (spent.post_of_ok run).1
    | error => exact (spent.fail_of_error run).1
  · have accounts := h.accounts
    have total := accounts.total
    have tops : (c.roots ++ []).filter c.region.forest.isTop = c.roots := by
      rw [List.append_nil]
      apply List.filter_eq_self.2
      intro i hi
      obtain ⟨k, hk, hd⟩ := accounts.root i hi
      simp [Forest.isTop, hk, hd]
    rw [tops, Forest.sum_weight] at total
    exact total

/-- The size of the squares was charged when `draw` was revisited inside `render`. -/
theorem totalSize_squaresDrawn :
    squaresDrawn.totalSize ≤ Configuration.standard.maxTotalSize ∧
      circlesDrawn.totalSize ≤ squaresDrawn.totalSize ∧
      squaresDrawn.totalSize = ((squaresDrawn.roots.flatMap squaresDrawn.region.liveTargets).map
        squaresDrawn.region.fullSize).sum ∧
      circlesDrawn.totalSize = .ofNat _ 30 ∧ squaresDrawn.totalSize = .ofNat _ 60 := by
  have before := totalSize_accounted completes_circlesDrawn.visits
  have after := totalSize_accounted completes_squaresDrawn.visits
  exact ⟨after.1, before.2.1 (drawing ⟨2⟩) (.revisit ⟨1⟩) _ _ rfl, after.2.2 completes_squaresDrawn,
    by decide +kernel, by decide +kernel⟩

end Sizes

end Inlining
