import Inlining.Proofs.Independence
import Inlining.Proofs.Turns

/-!
# Every fold is recorded

When the body of a target is entered, all folds of its method are recorded. Every target is taken up, so
after a request that succeeds no target is left whose folds were not recorded, other than those that were
given up (`Stocked`); afterwards a constant is lost only when a replay does not repeat its fold. So a live
target has exactly the constants that its method folds to (`folds_recorded`). What is recorded is faithful,
and assumptions are not shared, in all sessions (`Region.Recorded`).
-/

namespace Inlining

open Exploration

/-- If `t` is neither waiting nor removed, something is recorded at `b` if its method has a fold there. -/
def Compilation.Stocked (p : Program) (t : TargetId) (b : Int) (waiting : List TargetId)
    (c : Compilation) : Prop :=
  ∀ ⦃x⦄, c.region.targets.get? t = some x → t ∈ waiting ∨ (∃ i, t ∈ c.region.forest.removed i) ∨
    ∀ fold, lastFold? (p.foldsOf x.method) b = some fold → x.constants.get? b ≠ none

section Turns

variable {env : Environment} {p : Program} {c c' : Compilation} {t u : TargetId} {b : Int}
  {waiting waiting' : List TargetId}

/-- A target that has the constant at `b` that it had is as well stocked as it was. -/
theorem Compilation.Stocked.kept (h : c.Stocked p t b waiting) (waits : t ∈ waiting → t ∈ waiting')
    (removed : ∀ i, t ∈ c.region.forest.removed i → t ∈ c'.region.forest.removed i) {x y : CallTarget}
    (hx : c.region.targets.get? t = some x) (method : y.method = x.method)
    (same : y.constants.get? b = x.constants.get? b) :
    t ∈ waiting' ∨ (∃ i, t ∈ c'.region.forest.removed i) ∨
      ∀ fold, lastFold? (p.foldsOf y.method) b = some fold → y.constants.get? b ≠ none := by
  rw [method, same]
  exact (h hx).imp waits (Or.imp_left (Exists.imp removed))

theorem Compilation.get?_numbered_of_ne (c : Compilation) (other : t ≠ u) :
    (c.numbered u).region.targets.get? t = c.region.targets.get? t := by
  simp [numbered, Arena.get?_modify, Ne.symm other]

/-- A turn leaves nothing unrecorded, other than on targets that wait. -/
theorem Turn.stocked {a a' : List TargetId × Compilation} (h : Turn env a a')
    (retired : a.2.region.Retired) (stocked : a.2.Stocked env.program t b a.1) :
    a'.2.Stocked env.program t b a'.1 := by
  have removed (i : SiteId) : t ∈ a.2.region.forest.removed i → t ∈ a'.2.region.forest.removed i :=
    fun ht => (h.steps.removed i).subset ht
  intro y hy
  cases h with
  | quiet quiet =>
    obtain ⟨x, hx, agrees | ⟨reason, i, -, -, gone⟩⟩ := quiet.target hy
    · exact stocked.kept id removed hx agrees.method (by rw [agrees.constants])
    · exact .inr (.inl ⟨i, gone⟩)
  | @call waiting c k _ stack hk =>
    rcases Compilation.isNew_resolve (c.get?_withSite (congrArg Call.id hk)) stack hy with old | ⟨-, live⟩
    · exact stocked.kept (List.mem_append_right _) removed old rfl rfl
    · exact .inl (List.mem_append_left _ live)
  | @again waiting new c id s _ stack hs _ _ _ added =>
    cases hx : c.region.targets.get? t with
    | some x =>
      have still : (c.resolve env stack id s).region.targets.get? t = some x :=
        ((c.scope s).extends_resolved env stack).target hx
      obtain rfl := Option.some.inj (still.symm.trans hy)
      exact stocked.kept (List.mem_append_right _) removed hx rfl rfl
    | none =>
      rcases Compilation.isNew_resolve hs stack hy with old | ⟨-, live⟩
      · cases hx.symm.trans old
      · rw [added] at live
        refine .inl (List.mem_append_left _ ((List.mem_append.1 live).resolve_left fun before => ?_))
        exact retired.there (.inl (Region.forest_live hs ▸ before)) hx
  | @refuse waiting c u x id s hx _ hs live =>
    have drops : ((c.numbered u).scope s).Drops .uninlineable
        (((c.numbered u).scope s).giveUp u .uninlineable) [u] := SiteScope.drops_giveUp live
    generalize ((c.numbered u).scope s).giveUp u .uninlineable = scope at *
    by_cases here : t = u
    · have gone := (Region.forest_put_site (r := (c.numbered u).region) hs scope id).2.2.trans (if_pos rfl)
      refine .inr (.inl ⟨id, ?_⟩)
      refine gone.symm ▸ drops.removed ▸ ?_
      simp [here]
    · change scope.targets.get? t = some y at hy
      rw [drops.target, if_neg (by simpa using here)] at hy
      change (c.numbered u).region.targets.get? t = some y at hy
      rw [Compilation.get?_numbered_of_ne c here] at hy
      exact stocked.kept (fun waits => (List.mem_cons.1 waits).resolve_left here) removed hy rfl rfl
  | @enter waiting c u x depth hx _ _ =>
    by_cases here : t = u
    · subst here
      have numbered : (c.numbered t).region.targets.get? t =
          some { x with number := some c.nextNumber } := by
        simp [Compilation.numbered, Arena.get?_modify, hx]
      obtain ⟨cs, hcs, recorded⟩ := Region.get?_recordFolds numbered (env.program.foldsOf x.method)
      obtain rfl := Option.some.inj (hcs.symm.trans hy)
      refine .inr (.inr fun fold last => ?_)
      obtain ⟨k, hk, -⟩ := (recorded b).2 fold last
      simp [hk]
    · change ((c.numbered u).region.recordFolds u _).targets.get? t = some y at hy
      rw [Region.get?_recordFolds_of_ne _ (Ne.symm here), Compilation.get?_numbered_of_ne c here] at hy
      exact stocked.kept (fun waits => (List.mem_cons.1 waits).resolve_left here) removed hy rfl rfl

/-- After some turns nothing is unrecorded, other than on targets that wait. -/
theorem Turns.stocked {a a' : List TargetId × Compilation} (h : Turns env a a')
    (retired : a.2.region.Retired) (stocked : a.2.Stocked env.program t b a.1) :
    a'.2.Stocked env.program t b a'.1 := by
  have both : a'.2.region.Retired ∧ a'.2.Stocked env.program t b a'.1 :=
    h.invariant (P := fun waiting c => c.region.Retired ∧ c.Stocked env.program t b waiting)
      (fun ⟨retired, stocked⟩ turn =>
        ⟨turn.steps.invariant (P := fun c => c.region.Retired) (fun h effect => effect.retired h) retired,
          turn.stocked retired stocked⟩) ⟨retired, stocked⟩
  exact both.2

end Turns

/-- The request is a replay of `t` that does not repeat some fold at `b`. -/
def Request.Unfolds (c : Compilation) (t : TargetId) (b : Int) (request : Request) : Prop :=
  ∃ (folds : List (Int × Constant)) (outcomes : List FoldOutcome) (c' : Compilation) (i : Nat)
    (v : Constant) (reason : UnfoldReason), request = .replay t folds ∧
      (Exploration.replay t folds).run c = (.ok outcomes, c') ∧ folds[i]? = some (b, v) ∧
      outcomes[i]? = some (.unfolded reason)

section Sessions

variable (p : Program) (config : Configuration) (earlier : List InlinedRecord)

/-- The compilations that some session leads to in which no request failed and every replay of `t`
repeated its folds at `b`. -/
inductive Repeats (t : TargetId) (b : Int) : Compilation → Prop
  | start : Repeats t b (.start config earlier)
  | step {c c' : Compilation} (advice : Advice) (request : Request) :
    Repeats t b c → ¬ request.Unfolds c t b →
    (perform ⟨p, config, advice⟩ request).run c = (.ok (), c') → Repeats t b c'

variable {p config earlier} {c : Compilation} {t : TargetId} {b : Int}

theorem Repeats.completes (h : Repeats p config earlier t b c) : Completes p config earlier c := by
  induction h with
  | start => exact .start
  | step advice request _ _ run ih => exact ih.step advice request run

/-- A request that succeeds and repeats the folds of `t` at `b` leaves nothing unrecorded there. -/
theorem Visits.ensures_stocked (h : Visits p config earlier c) (stocked : c.Stocked p t b [])
    (advice : Advice) {request : Request} (repeats : ¬ request.Unfolds c t b) :
    Ensures (perform ⟨p, config, advice⟩ request) c (fun _ c' => c'.Stocked p t b []) fun _ _ => True := by
  have retired := h.retired
  cases request with
  | explore method =>
    refine ensures_discard.2 ((ensures_exploreTurns h.sound method).imp ?_)
    rintro - _ ⟨c₁, roots, compiled, turns, rfl⟩
    exact turns.stocked retired stocked
  | revisit id =>
    exact ensures_discard.2 ((ensures_revisitTurns h.sound id).imp fun _ _ turns =>
      turns.stocked retired stocked)
  | markInlined u =>
    refine ensures_markInlined.2 ⟨fun x hx => ⟨fun s hs y hy => ?_, fun _ => trivial⟩, fun _ => trivial⟩
    obtain ⟨z, hz, agrees⟩ := Region.agrees_modify hy fun _ _ => ⟨rfl, rfl, rfl⟩
    exact stocked.kept id (fun _ => id) hz agrees.method (by rw [agrees.constants])
  | replay u folds =>
    refine ensures_discard.2 (ensures_replay.2 ⟨fun x hx y hy => ?_, fun _ => trivial⟩)
    obtain ⟨z, hz, rfl | ⟨rfl, rfl⟩⟩ := Arena.of_get?_modify hy
    · exact stocked.kept id (fun _ => id) hz rfl rfl
    · obtain rfl := Option.some.inj (hx.symm.trans hz)
      refine stocked.kept id (fun _ => id) hx rfl (Replay.get?_foldAll fun i v reason hi out => ?_)
      exact repeats ⟨folds, _, _, i, v, reason, rfl, run_replay hx folds, hi, out⟩
  | invalidate a => exact stocked

theorem Repeats.stocked (h : Repeats p config earlier t b c) : c.Stocked p t b [] := by
  induction h with
  | start =>
    intro x hx
    simp at hx
  | step advice request before repeats run ih =>
    exact (before.completes.visits.ensures_stocked ih advice repeats).post_of_ok run

/-- Invalidating an assumption of a constant spares all other folds. -/
theorem Region.Unshared.spares {r : Region} (h : r.Unshared) {u : TargetId} {m : MethodId} {b' : Int}
    {k : RequiredConstant} (holds : r.Holds u m b' k) {a : AssumptionId} (ha : a ∈ k.assumptions)
    (other : (u, b') ≠ (t, b)) : (Request.invalidate a).Spares r t b := by
  intro x k' hx hk' ha'
  obtain ⟨rfl, rfl⟩ := h.owner holds ⟨x, hx, rfl, hk'⟩ ha ha'
  exact other rfl

/-- **Folds are recorded faithfully and share no assumptions.** In every session without a failed request,
a live target, of which all replays repeated the folds at an index so far, has a constant recorded there
exactly if its method is folded there: the value of the last such fold, under assumptions that are described
as those of that fold, in order. No assumption is mentioned twice. So a broken assumption of one fold spares
all others, and what a replay of a fold answers stays the same whatever is requested in between, other than
a replay of that fold and the loss of an assumption of its own. -/
theorem folds_recorded (h : Completes p config earlier c) :
    (∀ t b, Repeats p config earlier t b c → ∀ i s, c.region.sites.get? i = some s → t ∈ s.live →
      ∃ x, c.region.targets.get? t = some x ∧
        (x.constants.get? b ≠ none ↔ ∃ fold ∈ p.foldsOf x.method, fold.index = b) ∧
        ∀ k, x.constants.get? b = some k → ∃ fold, lastFold? (p.foldsOf x.method) b = some fold ∧
          k.Records c.region.assumptions fold) ∧
    c.region.citations.Nodup ∧
    (∀ u m b' k a, c.region.Holds u m b' k → a ∈ k.assumptions → ∀ t b, (u, b') ≠ (t, b) →
      (Request.invalidate a).Spares c.region t b) ∧
    ∀ t b x c', c.region.targets.get? t = some x → Spared p config t b c c' →
      ∀ v, ((replay t [(b, v)]).run c').1 = ((replay t [(b, v)]).run c).1 := by
  have recorded := h.visits.recorded
  refine ⟨fun t b repeats i s hs live => ?_, recorded.nodup_citations,
    fun u m b' k a holds ha t b other => recorded.spares holds ha other,
    fun t b x c' hx spared v => (h.visits.leaves_of_spared spared).2.answer hx v⟩
  rw [← Region.forest_live hs] at live
  obtain ⟨x, hx⟩ := Option.ne_none_iff_exists'.1 (h.visits.retired.there (.inl live))
  have faithful {k} (hk : x.constants.get? b = some k) := recorded.faithful ⟨x, hx, rfl, hk⟩
  refine ⟨x, hx, ⟨fun some => ?_, fun ⟨fold, mem, index⟩ => ?_⟩, fun k hk => faithful hk⟩
  · obtain ⟨k, hk⟩ := Option.ne_none_iff_exists'.1 some
    obtain ⟨fold, last, -⟩ := faithful hk
    exact ⟨fold, mem_of_lastFold? last⟩
  · obtain ⟨last, hlast⟩ := exists_lastFold? mem index
    rcases repeats.stocked hx with waits | ⟨j, removed⟩ | stocked
    · cases waits
    · exact absurd removed (h.visits.sound.not_removed live)
    · exact stocked last hlast

end Sessions

/-- Of `factor` the last fold at 2 is recorded and nothing at 3. It is repeated as before once the promise
that the load at 6 depends on was broken. -/
theorem folds_recorded_factor :
    (∃ x k, scaled.region.targets.get? ⟨0⟩ = some x ∧ x.constants.get? 2 = some k ∧
      k.Records scaled.region.assumptions ⟨2, .int 4, ["unit is set", "unit is final"]⟩ ∧
      x.constants.get? 3 = none) ∧
    scaled.region.citations.Nodup ∧
    ((replay ⟨0⟩ [(2, .int 4)]).run shifted).1 = ((replay ⟨0⟩ [(2, .int 4)]).run scaled).1 := by
  have completes : Completes scaling .standard [] scaled := .of_run .start (by decide +kernel)
  have repeats (b : Int) : Repeats scaling .standard [] ⟨0⟩ b scaled :=
    .step .unprofiled (.explore ⟨0⟩) .start (fun ⟨_, _, _, _, _, _, h, _⟩ => nomatch h)
      (run_of_ok (by decide +kernel))
  obtain ⟨exact, distinct, apart, same⟩ := folds_recorded completes
  have there : (scaled.region.sites.get? ⟨0⟩).any (·.live.contains ⟨0⟩) := by decide +kernel
  obtain ⟨s, hs, live⟩ := (Option.any_eq_true ..).1 there
  have exact (b : Int) := exact ⟨0⟩ b (repeats b) ⟨0⟩ s hs (List.contains_iff_mem.1 live)
  have bound : (scaled.region.targets.get? ⟨0⟩).any fun x => x.method = ⟨1⟩ ∧
      (x.constants.get? 6).any (·.assumptions.contains ⟨1⟩) := by decide +kernel
  obtain ⟨x, hx, bound⟩ := (Option.any_eq_true ..).1 bound
  obtain ⟨method, shift⟩ := of_decide_eq_true bound
  obtain ⟨k₆, hk₆, shift⟩ := (Option.any_eq_true ..).1 shift
  obtain ⟨y, hy, folded, records⟩ := exact 2
  obtain rfl := Option.some.inj (hx.symm.trans hy)
  obtain ⟨k, hk⟩ := Option.ne_none_iff_exists'.1 (folded.2 (by rw [method]; decide))
  obtain ⟨fold, last, records⟩ := records k hk
  rw [method] at last
  obtain rfl : _ = fold := Option.some.inj last
  obtain ⟨z, hz, unfolded, -⟩ := exact 3
  obtain rfl := Option.some.inj (hx.symm.trans hz)
  refine ⟨⟨x, k, hx, hk, records, not_not.1 (mt unfolded.1 (by rw [method]; decide))⟩, distinct, ?_⟩
  have spared : Spared scaling .standard ⟨0⟩ 2 scaled shifted :=
    .single ⟨.unprofiled, .invalidate ⟨1⟩, _, apart ⟨0⟩ _ 6 k₆ ⟨1⟩ ⟨x, hx, rfl, hk₆⟩
      (List.contains_iff_mem.1 shift) ⟨0⟩ 2 (by decide), rfl⟩
  exact same ⟨0⟩ 2 x shifted hx spared (.int 4)

end Inlining
