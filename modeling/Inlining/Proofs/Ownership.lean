import Inlining.Proofs.Requests

/-!
# The forest of sites and targets

In a session without a failed request the sites and targets of a region form a forest below the
root sites, and what the body of a target holds is what its instructions call.
-/

namespace Inlining

namespace Region

variable (r : Region)

/-- Every target as often as it is on a site, live or removed. -/
def placed : List TargetId := r.sites.toList.flatMap fun s => s.live ++ s.removed

/-- Every site as often as it is in the body of a target. -/
def enclosed : List SiteId := r.targets.toList.flatMap fun x => x.callees ++ x.deletedCallees

/-- The sites and targets of a region form a forest below its roots. -/
structure IsForest (p : Program) (roots : List SiteId) : Prop where
  /-- a target is on the site that it was added to and nowhere else -/
  target_once : ∀ {t x}, r.targets.get? t = some x → r.placed.count t = 1 ∧
    ∃ s, r.sites.get? x.callSite = some s ∧ t ∈ s.live ++ s.removed
  /-- a site is a root, or in one body -/
  site_once : ∀ {i s}, r.sites.get? i = some s →
    roots.count i = (if s.depth = 0 then 1 else 0) ∧
      r.enclosed.count i = if s.depth = 0 then 0 else 1
  /-- a site in a body lies one level below the target and is a call of its method -/
  nested : ∀ {t x i}, r.targets.get? t = some x → i ∈ x.callees ++ x.deletedCallees →
    ∃ outer inner, r.sites.get? x.callSite = some outer ∧ r.sites.get? i = some inner ∧
      inner.depth = outer.depth + 1 ∧ inner.caller = x.method
  /-- the sites in a body that may be inlined are its calls, one for each -/
  calls : ∀ {t x}, r.targets.get? t = some x → p.isInlinable x.method →
    ∃ outer found, r.sites.get? x.callSite = some outer ∧
      found.Perm (x.callees ++ x.deletedCallees) ∧
      List.Forall₂ (fun i call => ∃ inner, r.sites.get? i = some inner ∧
        inner.toCall = .ofInstruction i x.method (outer.depth + 1) call)
        found (p.instructionsOf x.method)
  callees_live : ∀ {t x i}, r.targets.get? t = some x → i ∈ x.callees → r.liveTargets i ≠ []
  deleted_dead : ∀ {t x i}, r.targets.get? t = some x → i ∈ x.deletedCallees →
    r.liveTargets i = []
  counts : ∀ {t x}, r.targets.get? t = some x →
    x.calleeCount = x.callees.length ∧ x.deletedCalleeCount = x.deletedCallees.length

section Clauses

variable {r} {depth : Nat} (sound : r.forest.Sound depth)
include sound

theorem count_placed {t : TargetId} {x : CallTarget} (hx : r.targets.get? t = some x) :
    r.placed.count t = 1 ∧ ∃ s, r.sites.get? x.callSite = some s ∧ t ∈ s.live ++ s.removed := by
  have home : r.forest.home? t = some x.callSite := by simp [Forest.home?, forest_origin hx]
  obtain ⟨k, hk, -⟩ := sound.within home
  obtain ⟨s, hs, -⟩ := site_of_call hk
  have mem : t ∈ s.live ++ s.removed := by
    rw [← forest_live hs, ← forest_removed hs]
    exact List.mem_append.2 (sound.placed.2 home)
  have distinct := sound.distinct x.callSite
  rw [forest_live hs, forest_removed hs] at distinct
  refine ⟨?_, s, hs, mem⟩
  rw [placed, Arena.count_flatMap hs, List.count_eq_one_of_mem distinct mem]
  intro j s' hs' ht
  rw [← forest_live hs', ← forest_removed hs'] at ht
  exact Option.some.inj ((sound.placed.1 (List.mem_append.1 ht)).symm.trans home)

/-- A site of a compiled method is in no body. -/
theorem count_enclosed_top {i : SiteId} {s : CallSite} (hs : r.sites.get? i = some s)
    (top : s.depth = 0) : r.enclosed.count i = 0 := by
  apply List.count_eq_zero.2
  intro hi
  obtain ⟨x, hx, hi⟩ := List.mem_flatMap.1 hi
  obtain ⟨t, hx⟩ := Arena.mem_toList_iff.1 hx
  exact sound.not_owns_top (forest_call hs) top ((forest_owns hx).2 hi)

/-- An owned site is in one body. -/
theorem count_enclosed {i : SiteId} {t : TargetId} (owner : r.forest.Owns t i) :
    r.enclosed.count i = 1 := by
  obtain ⟨o, _, _, ho, _⟩ := sound.owned owner
  obtain ⟨x, hx, -⟩ := target_of_origin ho
  have distinct := sound.owned_distinct t
  rw [(forest_callees hx).1, (forest_callees hx).2] at distinct
  rw [enclosed, Arena.count_flatMap hx, List.count_eq_one_of_mem distinct ((forest_owns hx).1 owner)]
  exact fun u y hy hi => sound.owner_unique ((forest_owns hy).2 hi) owner

/-- What a target owns lies one level below it. -/
theorem nested_of_owned {t : TargetId} {x : CallTarget} {i : SiteId} (hx : r.targets.get? t = some x)
    (hi : i ∈ x.callees ++ x.deletedCallees) :
    ∃ outer inner, r.sites.get? x.callSite = some outer ∧ r.sites.get? i = some inner ∧
      inner.depth = outer.depth + 1 ∧ inner.caller = x.method := by
  obtain ⟨o, k, k', ho, hk, hk', deeper, caller⟩ := sound.owned ((forest_owns hx).2 hi)
  obtain rfl := Option.some.inj ((forest_origin hx).symm.trans ho)
  obtain ⟨outer, houter, rfl⟩ := site_of_call hk
  obtain ⟨inner, hinner, rfl⟩ := site_of_call hk'
  exact ⟨outer, inner, houter, hinner, deeper, caller⟩

end Clauses

end Region

open Exploration

variable {p : Program} {config : Configuration} {earlier : List InlinedRecord} {c : Compilation}

/-- A site is a root exactly if it is one of a compiled method; any other site is in one body. -/
theorem Completes.site_once (h : Completes p config earlier c) {i : SiteId} {s : CallSite}
    (hs : c.region.sites.get? i = some s) :
    c.roots.count i = (if s.depth = 0 then 1 else 0) ∧
      c.region.enclosed.count i = if s.depth = 0 then 0 else 1 := by
  have sound := h.visits.sound
  have accounts := h.accounts
  have held := accounts.held i (by simp [Region.forest_call hs])
  have distinct := accounts.tops_distinct
  rw [List.append_nil] at held distinct
  by_cases top : s.depth = 0
  · have root : i ∈ c.roots := held.resolve_right fun ⟨u, owner⟩ =>
      sound.not_owns_top (Region.forest_call hs) top owner
    rw [if_pos top, if_pos top]
    exact ⟨List.count_eq_one_of_mem distinct root, Region.count_enclosed_top sound hs top⟩
  · have inner : i ∉ c.roots := by
      intro root
      obtain ⟨k, hk, hd⟩ := accounts.root i root
      obtain rfl := Option.some.inj ((Region.forest_call hs).symm.trans hk)
      exact top hd
    obtain ⟨u, owner⟩ := held.resolve_left inner
    rw [if_neg top, if_neg top]
    exact ⟨List.count_eq_zero.2 inner, Region.count_enclosed sound owner⟩

/-- The sites of a target that may be inlined are the calls of its method. -/
theorem Completes.calls (h : Completes p config earlier c) {t : TargetId} {x : CallTarget}
    (hx : c.region.targets.get? t = some x) (inlinable : p.isInlinable x.method) :
    ∃ outer found, c.region.sites.get? x.callSite = some outer ∧
      found.Perm (x.callees ++ x.deletedCallees) ∧
      List.Forall₂ (fun i call => ∃ inner, c.region.sites.get? i = some inner ∧
        inner.toCall = .ofInstruction i x.method (outer.depth + 1) call)
        found (p.instructionsOf x.method) := by
  have ho := Region.forest_origin hx
  obtain ⟨k, hk, -⟩ := Forest.Accounts.sited h.visits.sound ho
  obtain ⟨outer, houter, rfl⟩ := Region.site_of_call hk
  obtain ⟨found, perm, calls⟩ := h.accounts.corresponds t List.not_mem_nil _ _ ho hk inlinable
  rw [(Region.forest_callees hx).1, (Region.forest_callees hx).2] at perm
  exact ⟨outer, found, houter, perm, calls.imp fun _ _ hk => Region.site_of_call hk⟩

/-- **The ownership forest.** In a session without a failed request the sites and targets form a
forest below the roots. -/
theorem isForest_of_completes (h : Completes p config earlier c) : c.region.IsForest p c.roots where
  target_once hx := Region.count_placed h.visits.sound hx
  site_once hs := h.site_once hs
  nested hx hi := Region.nested_of_owned h.visits.sound hx hi
  calls hx inlinable := h.calls hx inlinable
  callees_live := by
    intro t x i hx hi
    rw [← (Region.forest_callees hx).1] at hi
    obtain ⟨u, hu, -⟩ := h.accounts.callee_alive List.not_mem_nil hi
    exact List.ne_nil_of_mem hu
  deleted_dead := by
    intro t x i hx hi
    rw [← (Region.forest_callees hx).2] at hi
    exact h.visits.sound.deleted_dead hi
  counts := by
    intro t x hx
    have callees := h.visits.sound.calleeCount t
    have deleted := h.visits.sound.deletedCount t
    simp [Region.forest, hx] at callees deleted
    exact ⟨callees, deleted⟩

/-- `main` calls `render`, in whose body the call of `draw` has two targets. -/
theorem isForest_squaresDrawn :
    squaresDrawn.region.IsForest shapes squaresDrawn.roots ∧ squaresDrawn.roots = [⟨0⟩] ∧
      squaresDrawn.region.enclosed = [⟨1⟩] ∧ squaresDrawn.region.placed = [⟨0⟩, ⟨1⟩, ⟨2⟩] :=
  ⟨isForest_of_completes completes_squaresDrawn, by decide +kernel, by decide +kernel,
    by decide +kernel⟩

end Inlining
