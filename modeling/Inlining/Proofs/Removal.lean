import Inlining.Proofs.Progress

/-!
# Removed for good

A target leaves the live targets of its site along four ways: its method may not be inlined, its
body outgrows the size of one call or the budget, or a target around it is given up. All of them end
in the removed targets of the site, and no request ever brings back any part of what was explored
below (`removed_for_good`). What carries this is that removing a target first empties its body: every
site below it was dropped from the body that it was found in (`Below.dropped`), and a site that was
dropped is never attached to a compiled method again.
-/

namespace Inlining

/-- A site was found in the body of a target, or in the body of a target of such a site, at any
depth. Dropped sites and removed targets count. -/
inductive Region.Below (r : Region) (t : TargetId) : SiteId → Prop
  | body {x : CallTarget} {i : SiteId} :
    r.targets.get? t = some x → i ∈ x.callees ++ x.deletedCallees → Below r t i
  | deeper {i j : SiteId} {s : CallSite} {u : TargetId} {y : CallTarget} :
    Below r t i → r.sites.get? i = some s → u ∈ s.live ++ s.removed →
    r.targets.get? u = some y → j ∈ y.callees ++ y.deletedCallees → Below r t j

open Exploration

/-- Nothing is left of a target that a site had. -/
structure Gone (p : Program) (config : Configuration) (c : Compilation) (i : SiteId) (t : TargetId) :
    Prop where
  /-- it is still among the removed targets of the site -/
  removed : ∃ s, c.region.sites.get? i = some s ∧ t ∈ s.removed
  /-- and a live target of none -/
  not_live : ∀ j s, c.region.sites.get? j = some s → t ∉ s.live
  /-- its body is empty, and nothing in it was folded -/
  bare : ∃ x, c.region.targets.get? t = some x ∧ x.callees = [] ∧ x.constants = []
  /-- nothing below it is live -/
  dead : ∀ {j}, c.region.Below t j → ∃ s, c.region.sites.get? j = some s ∧ s.live = []
  /-- resolving a site below it again does nothing, whatever the advice -/
  revisited : ∀ {j}, c.region.Below t j → ∀ advice,
    (revisit ⟨p, config, advice⟩ j).run c = (.ok false, c)
  /-- no fold of it is repeated -/
  replayed : ∀ folds, (replay t folds).run c =
    (.ok (folds.map fun _ => .unfolded .noRequiredConstant), c)

section Regions

variable {r : Region} {depth : Nat} {i j : SiteId} {t : TargetId}

/-- What lies below an empty body was dropped from some body. -/
theorem Region.Below.dropped (sound : r.forest.Sound depth) (empty : r.forest.callees t = [])
    (h : r.Below t j) : ∃ u, j ∈ r.forest.deleted u := by
  induction h with
  | @body x j hx hj =>
    rw [← (forest_callees hx).1, ← (forest_callees hx).2, empty] at hj
    exact ⟨t, hj⟩
  | @deeper i j s u y _ hs hu hy hj ih =>
    obtain ⟨v, hv⟩ := ih
    -- a site that was dropped has removed targets only, and these have empty bodies
    have dead := sound.deleted_dead hv
    rw [forest_live hs] at dead
    rw [dead, List.nil_append, ← forest_removed hs] at hu
    rw [← (forest_callees hy).1, ← (forest_callees hy).2, sound.removed_bare hu] at hj
    exact ⟨u, hj⟩

/-- A site that was dropped is there, without live targets. -/
theorem Region.site_of_deleted (sound : r.forest.Sound depth) (hj : j ∈ r.forest.deleted t) :
    ∃ s, r.sites.get? j = some s ∧ s.live = [] := by
  obtain ⟨_, _, _, _, _, hk, -⟩ := sound.owned (List.mem_append_right _ hj)
  obtain ⟨s, hs, -⟩ := site_of_call hk
  exact ⟨s, hs, by rw [← forest_live hs]; exact sound.deleted_dead hj⟩

end Regions

section Sessions

variable {p : Program} {config : Configuration} {earlier : List InlinedRecord} {c c' : Compilation}
  {i : SiteId} {t : TargetId}

/-- A removed target is gone. -/
theorem Visits.gone (h : Visits p config earlier c) (removed : t ∈ c.region.forest.removed i) :
    Gone p config c i t := by
  have sound := h.sound
  obtain ⟨s, hs⟩ : ∃ s, c.region.sites.get? i = some s := by
    cases hs : c.region.sites.get? i with
    | none => simp [Region.forest, hs] at removed
    | some s => exact ⟨s, rfl⟩
  obtain ⟨x, hx⟩ := Option.ne_none_iff_exists'.1 (h.retired.there (.inr removed))
  have empty := sound.removed_bare removed
  have folds := (h.retired.bare removed hx).1
  exact {
    removed := ⟨s, hs, by rwa [← Region.forest_removed hs]⟩
    not_live := by
      intro j s' hs' live
      rw [← Region.forest_live hs'] at live
      exact sound.not_removed live removed
    bare := ⟨x, hx, by rw [← (Region.forest_callees hx).1, empty], folds⟩
    dead := by
      intro j below
      obtain ⟨u, dropped⟩ := below.dropped sound empty
      exact Region.site_of_deleted sound dropped
    revisited := by
      intro j below advice
      obtain ⟨u, dropped⟩ := below.dropped sound empty
      exact run_revisit_of_deleted sound dropped
    replayed := run_replay_of_nil hx folds }

/-- **Removed for good.** From the moment a target is among the removed ones of a site it is gone, in
every session and with any advice. A site that was dropped from a body is never resolved again
either. -/
theorem removed_for_good (h : Visits p config earlier c) {s : CallSite}
    (hs : c.region.sites.get? i = some s) (removed : t ∈ s.removed) (later : Later p config c c') :
    Gone p config c' i t ∧
      ∀ {u x j}, c'.region.targets.get? u = some x → j ∈ x.deletedCallees → ∀ advice,
        (revisit ⟨p, config, advice⟩ j).run c' = (.ok false, c') := by
  have visits := h.later later
  rw [← Region.forest_removed hs] at removed
  refine ⟨visits.gone ((later.removed h i).subset removed), fun {u x j} hx dropped advice => ?_⟩
  rw [← (Region.forest_callees hx).2] at dropped
  exact run_revisit_of_deleted visits.sound dropped

end Sessions

/-- Too narrow for `render` with a circle drawn in it. -/
def narrow : Configuration := { Configuration.standard with maxCallSize := .ofNat _ 25 }

/-- `render` was given up after the circle was found to fit into it alone. -/
def renderRemoved : Compilation :=
  ((perform ⟨shapes, narrow, drawing ⟨1⟩⟩ (.explore ⟨0⟩)).run (.start narrow [])).2

/-- Drawing squares later does not bring `draw` back. -/
theorem removed_for_good_render :
    Gone shapes narrow ((perform ⟨shapes, narrow, drawing ⟨2⟩⟩ (.revisit ⟨1⟩)).run renderRemoved).2
        ⟨0⟩ ⟨0⟩ ∧ renderRemoved.region.Below ⟨0⟩ ⟨1⟩ := by
  have visits : Visits shapes narrow [] renderRemoved := .run .start (drawing ⟨1⟩) (.explore ⟨0⟩)
  have there : (renderRemoved.region.sites.get? ⟨0⟩).any (·.removed.contains ⟨0⟩) := by decide +kernel
  obtain ⟨s, hs, removed⟩ := (Option.any_eq_true ..).1 there
  have dropped : (renderRemoved.region.targets.get? ⟨0⟩).any (·.deletedCallees.contains ⟨1⟩) := by
    decide +kernel
  obtain ⟨x, hx, dropped⟩ := (Option.any_eq_true ..).1 dropped
  refine ⟨(removed_for_good visits hs (List.contains_iff_mem.1 removed)
    (.single ⟨drawing ⟨2⟩, .revisit ⟨1⟩, _, rfl⟩)).1, .body hx ?_⟩
  exact List.mem_append_right _ (List.contains_iff_mem.1 dropped)

end Inlining
