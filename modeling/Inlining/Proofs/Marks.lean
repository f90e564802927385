import Inlining.Proofs.Provenance
import Inlining.Proofs.Undisturbed

/-!
# Inlined methods are not taken again

A method that counts as inlined at a depth, because an earlier pass inlined it there or because a
target was marked, gets no further target at that depth: at no site, in no compiled method, with no
advice (`inlined_not_taken_again`). What counts as inlined is copied into the stack of every
exploration and every revisit, where screening consults it. `Compilation.Barred` is therefore stable:
what counts as inlined only grows, and a target is only ever taken from screened candidates.
-/

namespace Inlining

open Exploration

/-- A method counts as inlined below sites at `depth`, and the only targets of such sites that are
bound to it are `old` ones. -/
structure Compilation.Barred (c : Compilation) (m : MethodId) (depth : Nat) (old : Set TargetId) :
    Prop where
  recorded : ⟨m, depth + 1⟩ ∈ c.previouslyInlined
  ids : ∀ {i k}, c.region.forest.call? i = some k → k.id = i
  only : ∀ {t o}, c.region.forest.origin? t = some o →
    ∃ k, c.region.forest.call? o.site = some k ∧ (o.method = m → k.depth = depth → t ∈ old)

section Stable

variable {c c' : Compilation} {m : MethodId} {depth : Nat} {old : Set TargetId} {env : Environment}

theorem Compilation.Barred.congr (h : c.Barred m depth old)
    (forest : c'.region.forest = c.region.forest)
    (more : c.previouslyInlined ⊆ c'.previouslyInlined) : c'.Barred m depth old :=
  ⟨more h.recorded, fun hk => h.ids (forest ▸ hk), fun ho => by rw [forest] at ho ⊢; exact h.only ho⟩

theorem Compilation.Barred.change (h : c.Barred m depth old) (change : SiteChange env c c')
    (recorded : ⟨m, depth + 1⟩ ∈ c'.previouslyInlined)
    (origin : ∀ {t o}, c'.region.forest.origin? t = some o →
      c.region.forest.origin? t = some o ∨ Taken env c c' o) : c'.Barred m depth old where
  recorded := recorded
  ids hk := (change.call hk).elim h.ids fun ⟨_, _, _, source⟩ => congrArg Call.id source
  only ho := by
    rcases origin ho with before | ⟨k, stack, already, b, hk, earlier, hb, same⟩
    · obtain ⟨k, hk, only⟩ := h.only before
      exact ⟨k, change.call_kept hk, only⟩
    · -- a candidate for such a site is bound to another method
      refine ⟨k, hk, fun method lies => absurd ?_ (Environment.screened hb)⟩
      rw [earlier, same, method, lies]
      exact h.recorded

/-- A target that is bound to the method below such a site is an old one. -/
theorem Compilation.Barred.mem (h : c.Barred m depth old) {t : TargetId} {x : CallTarget}
    {s : CallSite} (hx : c.region.targets.get? t = some x)
    (hs : c.region.sites.get? x.callSite = some s) (method : x.method = m) (lies : s.depth = depth) :
    t ∈ old := by
  obtain ⟨k, hk, only⟩ := h.only (Region.forest_origin hx)
  obtain rfl := Option.some.inj ((Region.forest_call hs).symm.trans hk)
  exact only method lies

/-- What is barred stays barred. -/
theorem stable_barred : Stable env fun c => c.Barred m depth old where
  effect h effect := h.change effect.siteChange (effect.fixed.1 ▸ h.recorded) (effect.origin h.ids)
  broken h broke := by
    have recorded := h.recorded
    refine h.change broke.siteChange ?_ fun ho => .inl (broke.origin ▸ ho)
    cases broke <;> exact recorded
  adopt _ _ h := h.congr rfl (List.Subset.refl _)
  mark h _ _ := h.congr (Compilation.forest_marked ..) (List.subset_append_left ..)
  replay _ h _ := h.congr (Compilation.forest_replayed ..) (List.Subset.refl _)
  invalidate _ h := h.congr rfl (List.Subset.refl _)

/-- The call of a site stays as it is. -/
theorem stable_call (i : SiteId) (k : Call) :
    Stable env fun c => c.region.forest.call? i = some k :=
  .of_sites fun h change => change.call_kept h

end Stable

section Sessions

variable {p : Program} {config : Configuration} {earlier : List InlinedRecord} {c c' : Compilation}

/-- A method that counts as inlined gets no targets but those that it has. -/
theorem Visits.barred (h : Visits p config earlier c) {m : MethodId} {depth : Nat}
    (recorded : ⟨m, depth + 1⟩ ∈ c.previouslyInlined) :
    c.Barred m depth {t | c.region.targets.get? t ≠ none} where
  recorded := recorded
  ids := h.sound.call_id
  only {t o} ho := by
    have home : c.region.forest.home? t = some o.site := by simp [Forest.home?, ho]
    obtain ⟨k, hk, -⟩ := h.sound.within home
    obtain ⟨x, hx, -⟩ := Region.target_of_origin ho
    exact ⟨k, hk, fun _ _ => by simp [hx]⟩

/-- **Inlined once.** After a target was marked as inlined no later request, successful or not, takes
its method for a target of any site at the same depth; the targets that were there are left, and those
that were live stay live. The same holds from the start of what earlier passes inlined. -/
theorem inlined_not_taken_again (h : Visits p config earlier c) :
    (∀ advice t c₁, (perform ⟨p, config, advice⟩ (.markInlined t)).run c = (.ok (), c₁) →
      ∃ x s, c.region.targets.get? t = some x ∧ c.region.sites.get? x.callSite = some s ∧
        ∀ c₂, Later p config c₁ c₂ →
          (∀ u y s', c₂.region.targets.get? u = some y → c₂.region.sites.get? y.callSite = some s' →
            y.method = x.method → s'.depth = s.depth → c.region.targets.get? u ≠ none) ∧
          ∀ i s', c.region.sites.get? i = some s' →
            ∃ s'', c₂.region.sites.get? i = some s'' ∧ ∀ u ∈ s'.live, u ∈ s''.live) ∧
    ∀ m depth, ⟨m, depth + 1⟩ ∈ earlier → ∀ u y s, c.region.targets.get? u = some y →
      c.region.sites.get? y.callSite = some s → y.method = m → s.depth ≠ depth := by
  constructor
  · intro advice t c₁ run
    have marked : Ensures (perform ⟨p, config, advice⟩ (.markInlined t)) c
        (fun _ c₁ => ∃ x s, c.region.targets.get? t = some x ∧
          c.region.sites.get? x.callSite = some s ∧ c₁ = c.marked t x.method (s.depth + 1))
        fun _ _ => True :=
      ensures_markInlined.2 ⟨fun x hx => ⟨fun s hs => ⟨x, s, hx, hs, rfl⟩, fun _ => trivial⟩,
        fun _ => trivial⟩
    obtain ⟨x, s, hx, hs, hc₁⟩ := marked.post_of_ok run
    have visits : Visits p config earlier c₁ := h.step advice (.markInlined t) run
    refine ⟨x, s, hx, hs, fun c₂ later => ⟨fun u y s' hy hs' method lies => ?_, fun i s' hs' => ?_⟩⟩
    · have recorded : ⟨x.method, s.depth + 1⟩ ∈ c₁.previouslyInlined := by
        rw [hc₁]
        exact List.mem_append_right _ (List.mem_singleton_self _)
      have barred := later.stable visits (fun _ => stable_barred) (visits.barred recorded)
      have old : c₁.region.targets.get? u ≠ none := barred.mem hy hs' method lies
      rw [hc₁] at old
      simpa [Compilation.marked, Arena.get?_modify, apply_ite (· = none)] using old
    · have same : c₁.region.sites.get? i = some s' := by rw [hc₁]; exact hs'
      obtain ⟨s'', hs'', -⟩ := Region.site_of_call
        (later.stable visits (fun _ => stable_call i s'.toCall) (Region.forest_call same))
      refine ⟨s'', hs'', fun u live => ?_⟩
      rw [← Region.forest_live same] at live
      rw [← Region.forest_live hs'']
      exact later.live visits live
  · intro m depth recorded u y s hy hs method lies
    have start : (Compilation.start config earlier).Barred m depth ∅ := by
      refine ⟨recorded, fun hk => ?_, fun ho => ?_⟩
      · simp [Compilation.forest_start] at hk
      · simp [Compilation.forest_start] at ho
    exact (h.stable (fun _ => stable_barred) start).mem hy hs method lies

end Sessions

/-- The target for the `draw` of circles was marked as inlined. -/
def circleInlined : Compilation :=
  ((perform ⟨shapes, .standard, drawing ⟨1⟩⟩ (.markInlined ⟨1⟩)).run circlesDrawn).2

/-- `main` was explored once more. -/
def circlesSkipped : Compilation :=
  ((perform ⟨shapes, .standard, drawing ⟨1⟩⟩ (.explore ⟨0⟩)).run circleInlined).2

/-- No other target is bound to the `draw` of circles inside `render`: the call there stays without. -/
theorem inlined_not_taken_again_draw :
    (∀ u y s, circlesSkipped.region.targets.get? u = some y →
      circlesSkipped.region.sites.get? y.callSite = some s → y.method = ⟨3⟩ → s.depth = 1 →
      circlesDrawn.region.targets.get? u ≠ none) ∧
    circlesSkipped.region.liveTargets ⟨2⟩ = [⟨2⟩] ∧ circlesSkipped.region.liveTargets ⟨3⟩ = [] := by
  obtain ⟨x, s, hx, hs, after⟩ := (inlined_not_taken_again completes_circlesDrawn.visits).1
    (drawing ⟨1⟩) ⟨1⟩ circleInlined (run_of_ok (by decide +kernel))
  have method : (circlesDrawn.region.targets.get? ⟨1⟩).any fun x =>
      x.method = ⟨3⟩ ∧ (circlesDrawn.region.sites.get? x.callSite).any (·.depth = 1) := by
    decide +kernel
  simp only [hx, hs, Option.any_some, Bool.decide_and, Bool.and_eq_true, decide_eq_true_eq] at method
  obtain ⟨fresh, -⟩ := after circlesSkipped (.single ⟨drawing ⟨1⟩, .explore ⟨0⟩, .ok (),
    run_of_ok (by decide +kernel)⟩)
  refine ⟨fun u y s' hy hs' bound lies => fresh u y s' hy hs' ?_ ?_, by decide +kernel, by decide +kernel⟩
  · rw [bound, method.1]
  · rw [lies, method.2]

end Inlining
