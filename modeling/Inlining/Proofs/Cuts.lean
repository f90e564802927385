import Inlining.Proofs.Ensures
import Inlining.Proofs.Forest

/-!
# What giving up does

Pruning and giving up a target are made of three strokes: a site loses one live target, or all
of them, or a target loses a callee. `Cut` lists them. What every stroke maintains is maintained
by the recursion as a whole, wherever it stops (`maintains_abandon`).
-/

namespace Inlining

namespace SiteScope

variable (s : SiteScope)

/-- The scope in which a live target was given up. A site that is left without target gets the
same reason. -/
def giveUp (t : TargetId) (reason : FailureReason) : SiteScope :=
  let s := retire { s with site := { s.site with live := s.site.live.erase t } } t reason
  if s.site.live.isEmpty then s.setFailureReason reason else s

/-- The scope in which all live targets were given up. -/
def giveUpAll (reason : FailureReason) : SiteScope :=
  (retireAll { s with site := { s.site with live := [] } } s.site.live reason).setFailureReason reason

/-- Retiring targets one after the other retires each of them. -/
theorem get?_retireAll (s : SiteScope) (ts : List TargetId) (reason : FailureReason) (t : TargetId) :
    (s.retireAll ts reason).targets.get? t =
      if t ∈ ts then (s.targets.get? t).map (·.retire reason) else s.targets.get? t := by
  induction ts generalizing s with
  | nil => rfl
  | cons u ts ih =>
    refine (ih (s.retire u reason)).trans ?_
    simp only [retire, note, Arena.get?_modify, List.mem_cons]
    by_cases same : u = t
    · subst u
      cases s.targets.get? t <;> simp [CallTarget.retire]
    · simp [same, Ne.symm same]

variable {s} {t : TargetId} {reason : FailureReason}

theorem remove_eq_ok_iff {s' : SiteScope} :
    (do
      let s ← s.remove t reason
      return if s.site.live.isEmpty then s.setFailureReason reason else s) = .ok s' ↔
      t ∈ s.site.live ∧ s' = s.giveUp t reason := by
  by_cases live : t ∈ s.site.live
  · rw [eq_comm (a := s')]
    simp [remove, checkLive, giveUp, live, bind, Except.bind, pure, Except.pure]
  · simp [remove, checkLive, live, bind, Except.bind]

theorem removeAll_eq (s : SiteScope) (reason : FailureReason) :
    (do return (← s.removeAll reason).setFailureReason reason) = .ok (s.giveUpAll reason) := by
  simp [removeAll, removeFrom, giveUpAll, bind, Except.bind, pure, Except.pure]

/-- From `s` to `s'` the site gave up the live targets `ts`. -/
structure Drops (reason : FailureReason) (s s' : SiteScope) (ts : List TargetId) : Prop where
  call : s'.site.toCall = s.site.toCall
  dropped : ∀ t ∈ ts, t ∈ s.site.live
  live : ∀ t ∈ s'.site.live, t ∈ s.site.live
  removed : s'.site.removed = s.site.removed ++ ts
  target : ∀ t, s'.targets.get? t =
    if t ∈ ts then (s.targets.get? t).map (·.retire reason) else s.targets.get? t

theorem drops_giveUp (live : t ∈ s.site.live) : s.Drops reason (s.giveUp t reason) [t] := by
  have retired :=
    get?_retireAll { s with site := { s.site with live := s.site.live.erase t } } [t] reason
  have kept : ∀ u ∈ s.site.live.erase t, u ∈ s.site.live := fun _ => List.mem_of_mem_erase
  unfold giveUp
  dsimp only
  split
  · exact ⟨rfl, by simpa using live, kept, rfl, retired⟩
  · exact ⟨rfl, by simpa using live, kept, rfl, retired⟩

theorem drops_giveUpAll (s : SiteScope) (reason : FailureReason) :
    s.Drops reason (s.giveUpAll reason) s.site.live := by
  have retired := get?_retireAll { s with site := { s.site with live := [] } } s.site.live reason
  obtain ⟨site, -⟩ := Region.retireAll_node { s with site := { s.site with live := [] } } s.site.live
    reason
  refine ⟨?_, fun _ h => h, ?_, ?_, retired⟩
  all_goals simp [giveUpAll, setFailureReason, site]

end SiteScope

/-- One stroke of giving something up for a reason. -/
inductive Cut (reason : FailureReason) (c : Compilation) : Compilation → Prop
  | target {id : SiteId} {s : CallSite} {t : TargetId} :
    c.region.sites.get? id = some s → t ∈ s.live →
    Cut reason c (c.update id ((c.scope s).giveUp t reason))
  | site {id : SiteId} {s : CallSite} :
    c.region.sites.get? id = some s → Cut reason c (c.update id ((c.scope s).giveUpAll reason))
  | callee {t : TargetId} {x y : CallTarget} {i : SiteId} :
    c.region.targets.get? t = some x → x.removeCallee t i = .ok y →
    Cut reason c
      { c with region := { c.region with targets := c.region.targets.modify t fun _ => y } }

/-- A cut drops targets from a site, or a callee from a target. -/
theorem Cut.cases {reason : FailureReason} {c c' : Compilation} (h : Cut reason c c') :
    (∃ id s scope ts, c.region.sites.get? id = some s ∧ (c.scope s).Drops reason scope ts ∧
      c' = c.update id scope) ∨
    ∃ t x y i, c.region.targets.get? t = some x ∧ x.removeCallee t i = .ok y ∧
      c' = { c with region := { c.region with targets := c.region.targets.modify t fun _ => y } } := by
  cases h with
  | target hs live => exact .inl ⟨_, _, _, _, hs, SiteScope.drops_giveUp live, rfl⟩
  | site hs => exact .inl ⟨_, _, _, _, hs, SiteScope.drops_giveUpAll .., rfl⟩
  | callee hx hy => exact .inr ⟨_, _, _, _, hx, hy, rfl⟩

theorem Cut.totalSize {reason : FailureReason} {c c' : Compilation} (h : Cut reason c c') :
    c'.totalSize = c.totalSize := by
  cases h <;> rfl

namespace Exploration

variable {P : Compilation → Prop} {reason : FailureReason}
  (closed : ∀ {c c'}, P c → Cut reason c c' → P c')
include closed

theorem maintains_removeTarget {env : Environment} {id : SiteId} {t : TargetId} :
    Maintains P (removeTarget env id t reason) := by
  refine .bind (fun c hc => ensures_changeSite.2 ⟨fun s hs => ⟨fun scope h => ?_, fun _ _ => hc⟩,
    fun _ => hc⟩) fun _ => ?_
  · obtain ⟨live, rfl⟩ := SiteScope.remove_eq_ok_iff.1 h
    exact closed hc (.target hs live)
  · split
    · exact .bind maintains_site fun _ => maintains_ofExcept
    · exact maintains_pure

theorem maintains_pruneCallees {levels : Nat} {t : TargetId} :
    Maintains P (pruneCallees reason levels t) := by
  induction levels generalizing t with
  | zero => exact maintains_pure
  | succ levels ih =>
    refine .bind maintains_target fun _ => .forM fun callee => ?_
    refine .bind maintains_site fun _ => .bind (.forM fun _ => ih) fun _ => .bind ?_ fun _ => ?_
    · refine fun c hc => ensures_changeSite.2 ⟨fun s hs => ⟨fun scope h => ?_, fun _ _ => hc⟩,
        fun _ => hc⟩
      rw [SiteScope.removeAll_eq] at h
      cases h
      exact closed hc (.site hs)
    · intro c hc
      rw [ensures_bind, ensures_target]
      refine ⟨fun x hx => ?_, fun _ => hc⟩
      rw [ensures_bind, ensures_ofExcept]
      exact ⟨fun y hy => closed hc (.callee hx hy), fun _ _ => hc⟩

theorem maintains_abandon {env : Environment} {id : SiteId} {t : TargetId} :
    Maintains P (abandon env id t reason) :=
  .bind (maintains_pruneCallees closed) fun _ => maintains_removeTarget closed

end Exploration

end Inlining
