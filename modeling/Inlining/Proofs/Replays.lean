import Inlining.Proofs.Recording

/-!
# Replays never fold wrongly

Code generation replays the folds of a target, possibly long after the target was explored, more than
once, and while assumptions break. A fold that is repeated is the one that was recorded, with the value
that was observed, under assumptions that were valid all the time, since no request broke one, and are
confirmed afterwards (`Justified`); one that is not repeated is never repeated again (`GivenUp`). That is
so in every session, whatever is requested in between and in whatever order (`replay_never_wrong`). It
rests on two things that only go one way: of the constants of a target nothing is ever replaced
(`CallTarget.Ages`), and assumptions that were invalidated stay so (`AssumptionState.Leads`).
-/

namespace Inlining

open Exploration

section Definitions

variable (p : Program) (config : Configuration) (earlier : List InlinedRecord)

/-- A target was found by the request that ended in `c₁`, which left `x` of it. The session went on to
`c`. -/
structure Found (t : TargetId) (x : CallTarget) (c₁ c : Compilation) : Prop where
  request : ∃ c₀, Visits p config earlier c₀ ∧ Advances p config c₀ c₁ ∧
    c₀.region.targets.get? t = none
  there : c₁.region.targets.get? t = some x
  later : Later p config c₁ c

/-- The replay of the fold at `b` to the value `v`, on a target of which the request that found it, in
`c₁`, left `x`, led from `c` to `c'` and was answered rightly by `fold`. -/
structure Justified (t : TargetId) (x : CallTarget) (b : Int) (v : Constant) (c₁ c c' : Compilation)
    (fold : GeneratedFold) : Prop where
  index : fold.index = b
  value : fold.value = v
  /-- this value was recorded, with these assumptions in this order -/
  recorded : x.constants.get? b = some ⟨v, fold.assumptions⟩
  /-- for the last fold there in the body of the method -/
  source : ∃ source, lastFold? (p.foldsOf x.method) b = some source ∧
    RequiredConstant.Records ⟨v, fold.assumptions⟩ c.region.assumptions source
  /-- no assumption was invalidated at any time since then -/
  valid : ∀ a ∈ fold.assumptions, ∀ c₂, Later p config c₁ c₂ → Later p config c₂ c →
    ∃ state, c₂.region.assumptions.state? a = some state ∧ state ≠ .invalidated
  /-- no request broke one of these promises since then -/
  unbroken : ∀ a ∈ fold.assumptions, ∀ advice answer c₂ c₃, Later p config c₁ c₂ →
    (perform ⟨p, config, advice⟩ (.invalidate a)).run c₂ = (answer, c₃) → ¬ Later p config c₃ c
  /-- and now all of them are confirmed -/
  confirmed : ∀ a ∈ fold.assumptions, c'.region.assumptions.state? a = some .confirmed
  /-- the target is not a removed one -/
  kept : ∀ i s, c.region.sites.get? i = some s → t ∉ s.removed

/-- No replay of `t` repeats a fold at `b` any more. -/
def GivenUp (t : TargetId) (b : Int) (c : Compilation) : Prop :=
  ∀ c₂, Later p config c c₂ → ∀ (folds : List (Int × Constant)) (outcomes : List FoldOutcome) (c₃),
    (replay t folds).run c₂ = (.ok outcomes, c₃) →
      ∀ (i : Nat) v, folds[i]? = some (b, v) → ∃ reason, outcomes[i]? = some (.unfolded reason)

end Definitions

section Replays

variable {p : Program} {config : Configuration} {earlier : List InlinedRecord} {c c' c₁ : Compilation}
  {t : TargetId} {x y : CallTarget} {b : Int} {v : Constant}

/-- Every target was found by some request of the session. -/
theorem Visits.found (h : Visits p config earlier c) (hy : c.region.targets.get? t = some y) :
    ∃ c₁ x, Found p config earlier t x c₁ c := by
  induction h generalizing y with
  | start => simp at hy
  | @step c c' answer advice request before run ih =>
    have advances : Advances p config c c' := ⟨advice, request, answer, run⟩
    cases old : c.region.targets.get? t with
    | none => exact ⟨c', y, ⟨c, before, advances, old⟩, hy, .refl⟩
    | some z =>
      obtain ⟨c₁, x, found⟩ := ih old
      exact ⟨c₁, x, { found with later := found.later.tail advances }⟩

theorem Found.visits (h : Found p config earlier t x c₁ c) : Visits p config earlier c₁ := by
  obtain ⟨c₀, visits, ⟨advice, request, answer, run⟩, -⟩ := h.request
  exact visits.step advice request run

/-- Replaying folds of a target that is there. -/
theorem run_replay (hx : c.region.targets.get? t = some x) (folds : List (Int × Constant)) :
    (replay t folds).run c = (.ok (Replay.foldAll ⟨x.constants, c.region.assumptions⟩ folds).1,
      c.replayed t (Replay.foldAll ⟨x.constants, c.region.assumptions⟩ folds).2) := by
  refine Ensures.run_ok (ensures_replay.2 ⟨fun y hy => ?_, fun gone => by simp [hx] at gone⟩)
  obtain rfl := Option.some.inj (hx.symm.trans hy)
  exact ⟨rfl, rfl⟩

/-- The request that breaks a promise leaves its assumption invalidated. -/
theorem state?_of_invalidate {advice : Advice} {answer : Except Fault Unit} {a : AssumptionId}
    (run : (perform ⟨p, config, advice⟩ (.invalidate a)).run c = (answer, c')) :
    c'.region.assumptions.state? a =
      (c.region.assumptions.state? a).map fun _ => .invalidated := by
  obtain ⟨-, rfl⟩ := Prod.mk.inj run
  exact (AssumptionTable.invalidate_state? ..).trans (if_pos rfl)

/-- Replaying is a request that succeeds. -/
theorem Visits.replayed (h : Visits p config earlier c) (hx : c.region.targets.get? t = some x)
    (folds : List (Int × Constant)) : Visits p config earlier
      (c.replayed t (Replay.foldAll ⟨x.constants, c.region.assumptions⟩ folds).2) :=
  h.step .unprofiled (.replay t folds) (run_bind_of_ok (f := fun _ => pure ()) (run_replay hx folds))

/-- Where nothing is recorded no fold is repeated, now or later. -/
theorem Visits.givenUp (h : Visits p config earlier c) (hy : c.region.targets.get? t = some y)
    (empty : y.constants.get? b = none) : GivenUp p config t b c := by
  intro c₂ later folds outcomes c₃ run i v hi
  obtain ⟨z, hz, ages⟩ := (later.ages h).target hy
  rw [run_replay hz] at run
  obtain rfl := Except.ok.inj (Prod.mk.inj run).1
  have none := RequiredConstants.get?_eq_none_of_sublist ages.constants empty
  exact Replay.foldAll_of_none (r := ⟨z.constants, c₂.region.assumptions⟩) none hi

/-- Replaying folds invalidates nothing. -/
theorem Replay.Wears.isViable {r r' : Replay} (h : r.Wears r') (k : RequiredConstant) :
    k.isViable r'.assumptions = k.isViable r.assumptions :=
  RequiredConstant.isViable_congr fun a _ => ⟨h.valid, fun bad => by
    obtain ⟨state, now, leads⟩ := h.assumptions.leads bad
    cases leads <;> exact now⟩

/-- An assumption of a recorded constant has a state at any time since then. -/
theorem Found.state (h : Found p config earlier t x c₁ c) {k : RequiredConstant}
    (recorded : x.constants.get? b = some k) {a : AssumptionId} (ha : a ∈ k.assumptions)
    {table : AssumptionTable} (ages : c₁.region.assumptions.Ages table) :
    ∃ state, table.state? a = some state := by
  have there := h.visits.recorded.there ⟨x, h.there, rfl, recorded⟩ a ha
  obtain ⟨entry, he⟩ := Option.ne_none_iff_exists'.1 there
  obtain ⟨entry', he', -⟩ := ages.entry he
  exact ⟨entry'.state, by simp [AssumptionTable.state?, he']⟩

/-- If it is still valid, it was valid at any time since then. -/
theorem Found.valid (h : Found p config earlier t x c₁ c) {k : RequiredConstant}
    (recorded : x.constants.get? b = some k) {a : AssumptionId} (ha : a ∈ k.assumptions)
    (valid : c.region.assumptions.state? a ≠ some .invalidated) {c₂ : Compilation}
    (later : Later p config c₁ c₂) (later' : Later p config c₂ c) :
    ∃ state, c₂.region.assumptions.state? a = some state ∧ state ≠ .invalidated := by
  obtain ⟨state, hs⟩ := h.state recorded ha (later.ages h.visits).assumptions
  exact ⟨state, hs, (later'.ages (h.visits.later later)).assumptions.valid hs valid⟩

/-- If it is still valid, no request broke its promise since then. -/
theorem Found.unbroken (h : Found p config earlier t x c₁ c) {k : RequiredConstant}
    (recorded : x.constants.get? b = some k) {a : AssumptionId} (ha : a ∈ k.assumptions)
    (valid : c.region.assumptions.state? a ≠ some .invalidated) {advice : Advice}
    {answer : Except Fault Unit} {c₂ c₃ : Compilation} (later : Later p config c₁ c₂)
    (run : (perform ⟨p, config, advice⟩ (.invalidate a)).run c₂ = (answer, c₃)) :
    ¬ Later p config c₃ c := by
  intro later'
  obtain ⟨state, hs, good⟩ := h.valid recorded ha valid (later.tail ⟨advice, _, answer, run⟩) later'
  rw [state?_of_invalidate run] at hs
  obtain ⟨-, -, bad⟩ := Option.map_eq_some_iff.1 hs
  exact good bad.symm

/-- A fold that is repeated is repeated rightly. -/
theorem Found.justified (h : Found p config earlier t x c₁ c) (hy : c.region.targets.get? t = some y)
    {before after : Replay} (wears : (⟨y.constants, c.region.assumptions⟩ : Replay).Wears before)
    {k : RequiredConstant} (hk : before.constants.get? b = some k)
    (viable : k.isViable before.assumptions = true)
    (left : ({ before with assumptions := before.assumptions.confirmAll k.assumptions } : Replay).Wears
      after) (table : c'.region.assumptions = after.assumptions) :
    Justified p config t x b k.value c₁ c c' ⟨b, k.value, k.assumptions⟩ := by
  have visits := h.visits.later h.later
  obtain ⟨z, hz, ages⟩ := (h.later.ages h.visits).target h.there
  obtain rfl := Option.some.inj (hy.symm.trans hz)
  have method : y.method = x.method := by rw [ages.same]
  have recorded : y.constants.get? b = some k :=
    (visits.recorded.ascending hy).get?_sublist wears.constants hk
  have recorded₁ : x.constants.get? b = some k :=
    (h.visits.recorded.ascending h.there).get?_sublist ages.constants recorded
  have valid : ∀ a ∈ k.assumptions, c.region.assumptions.state? a ≠ some .invalidated := by
    rw [wears.isViable] at viable
    simpa [RequiredConstant.isViable] using viable
  have viable : ∀ a ∈ k.assumptions, before.assumptions.state? a ≠ some .invalidated := by
    simpa [RequiredConstant.isViable] using viable
  exact {
    index := rfl
    value := rfl
    recorded := recorded₁
    source := by
      obtain ⟨source, last, records⟩ := visits.recorded.faithful ⟨y, hy, method, recorded⟩
      exact ⟨source, last, records⟩
    valid := fun a ha c₂ later later' => h.valid recorded₁ ha (valid a ha) later later'
    unbroken := fun a ha advice answer c₂ c₃ later run => h.unbroken recorded₁ ha (valid a ha) later run
    confirmed := fun a ha => by
      have aged := (h.later.ages h.visits).assumptions.trans wears.assumptions
      obtain ⟨now, hnow⟩ := h.state recorded₁ ha aged
      have confirmed : (before.assumptions.confirmAll k.assumptions).state? a = some .confirmed := by
        rw [AssumptionTable.confirmAll_state?, if_pos ha, hnow]
        cases now with
        | pending | confirmed => rfl
        | invalidated => exact absurd hnow (viable a ha)
      rw [table]
      exact left.confirmed confirmed
    kept := fun i s hs removed => by
      rw [← Region.forest_removed hs] at removed
      rw [(visits.retired.bare removed hy).1] at recorded
      cases recorded }

/-- **Replays never fold wrongly.** In every session the states of assumptions only move on. Every target
was found by some request, and every replay of it answers each fold: what it repeats is right, and what
it does not repeat is repeated neither by what is left of this replay nor by any later one. -/
theorem replay_never_wrong (h : Visits p config earlier c) :
    (∀ c', Later p config c c' → ∀ a state, c.region.assumptions.state? a = some state →
      ∃ state', c'.region.assumptions.state? a = some state' ∧ state.Leads state') ∧
    ∀ t y, c.region.targets.get? t = some y → (∃ c₁ x, Found p config earlier t x c₁ c) ∧
      ∀ folds : List (Int × Constant), ∃ (outcomes : List FoldOutcome) (c' : Compilation),
        (replay t folds).run c = (.ok outcomes, c') ∧
        outcomes.length = folds.length ∧ ∀ (j : Nat) b v, folds[j]? = some (b, v) →
          (∀ fold, outcomes[j]? = some (.folded fold) →
            ∀ c₁ x, Found p config earlier t x c₁ c → Justified p config t x b v c₁ c c' fold) ∧
          ∀ reason, outcomes[j]? = some (.unfolded reason) →
            (∀ (i : Nat) w, j < i → folds[i]? = some (b, w) →
              ∃ reason', outcomes[i]? = some (.unfolded reason')) ∧ GivenUp p config t b c' := by
  refine ⟨fun c' later a state hs => (later.ages h).assumptions.leads hs, fun t y hy => ⟨h.found hy,
    fun folds => ⟨_, _, run_replay hy folds, Replay.length_foldAll .., fun j b v hj => ?_⟩⟩⟩
  obtain ⟨before, wears, answer, left, rest⟩ :=
    Replay.foldAll_getElem? (r := ⟨y.constants, c.region.assumptions⟩) hj
  rw [answer]
  rcases before.foldAt_cases b v with ⟨k, hk, rfl, viable, run⟩ | ⟨reason, r', run, none, -⟩
  · rw [run] at left ⊢
    refine ⟨fun fold hf c₁ x found => ?_, nofun⟩
    obtain rfl := FoldOutcome.folded.inj (Option.some.inj hf)
    exact found.justified hy wears hk viable left rfl
  · rw [run] at left rest ⊢
    refine ⟨nofun, fun reason' _ => ⟨fun i w behind hi => ?_, ?_⟩⟩
    · obtain ⟨d, rfl⟩ := Nat.exists_eq_add_of_lt behind
      rw [show j + d + 1 = j + 1 + d by omega] at hi ⊢
      rw [rest d]
      exact Replay.foldAll_of_none none (by rw [List.getElem?_drop]; exact hi)
    · refine (h.replayed hy folds).givenUp (y := { y with
        constants := (Replay.foldAll ⟨y.constants, c.region.assumptions⟩ folds).2.constants }) ?_ ?_
      · simp [Compilation.replayed, Arena.get?_modify, hy]
      · exact RequiredConstants.get?_eq_none_of_sublist left.constants none

end Replays

/-- `main` calls `factor`, where two loads are folded, one of them twice. -/
def scaling : Program where
  classes := [{ id := ⟨0⟩, name := "Scale" }]
  methods := [
    { id := ⟨0⟩, name := "main", declaringClass := ⟨0⟩, kind := .static, size := .ofNat _ 5,
      calls := [{ index := 1, shape := .direct, method := some ⟨1⟩ }] },
    { id := ⟨1⟩, name := "factor", declaringClass := ⟨0⟩, kind := .static, size := .ofNat _ 4,
      folds := [⟨2, .int 3, ["unit is set"]⟩, ⟨6, .int 1, ["shift is final"]⟩,
        ⟨2, .int 4, ["unit is set", "unit is final"]⟩] }]
  accepted := by decide +kernel

/-- `main` was explored, and `factor` in it. -/
def scaled : Compilation :=
  ((perform ⟨scaling, .standard, .unprofiled⟩ (.explore ⟨0⟩)).run (.start .standard [])).2

/-- The promise that the load at 6 depends on was broken. -/
def shifted : Compilation :=
  ((perform ⟨scaling, .standard, .unprofiled⟩ (.invalidate ⟨1⟩)).run scaled).2

/-- The load at 2 is repeated with its last value, under the assumptions of its last fold. The one at 6
is not, and never will be. -/
theorem replay_never_wrong_factor : ∃ x outcomes c', scaled.region.targets.get? ⟨0⟩ = some x ∧
    (replay ⟨0⟩ [(2, .int 4), (6, .int 1)]).run shifted = (.ok outcomes, c') ∧
    outcomes = [.folded ⟨2, .int 4, [⟨2⟩, ⟨3⟩]⟩, .unfolded .assumptionInvalidated] ∧
    Justified scaling .standard ⟨0⟩ x 2 (.int 4) scaled shifted c' ⟨2, .int 4, [⟨2⟩, ⟨3⟩]⟩ ∧
    GivenUp scaling .standard ⟨0⟩ 6 c' := by
  have explored : Visits scaling .standard [] scaled := .run .start .unprofiled (.explore ⟨0⟩)
  have visits : Visits scaling .standard [] shifted := explored.run .unprofiled (.invalidate ⟨1⟩)
  have there : (scaled.region.targets.get? ⟨0⟩).isSome := by decide +kernel
  obtain ⟨x, hx⟩ := Option.isSome_iff_exists.1 there
  have now : (shifted.region.targets.get? ⟨0⟩).isSome := by decide +kernel
  obtain ⟨y, hy⟩ := Option.isSome_iff_exists.1 now
  have found : Found scaling .standard [] ⟨0⟩ x scaled shifted :=
    ⟨⟨.start .standard [], .start, .of_run _ .unprofiled (.explore ⟨0⟩),
      Compilation.target_start ..⟩, hx, .single (.of_run _ .unprofiled (.invalidate ⟨1⟩))⟩
  obtain ⟨outcomes, c', run, -, each⟩ :=
    ((replay_never_wrong visits).2 ⟨0⟩ y hy).2 [(2, .int 4), (6, .int 1)]
  have answers : ((replay ⟨0⟩ [(2, .int 4), (6, .int 1)]).run shifted).1 =
      .ok [.folded ⟨2, .int 4, [⟨2⟩, ⟨3⟩]⟩, .unfolded .assumptionInvalidated] := by decide +kernel
  rw [run] at answers
  obtain rfl := Except.ok.inj answers
  exact ⟨x, _, c', hx, run, rfl, (each 0 2 (.int 4) rfl).1 _ rfl scaled x found,
    ((each 1 6 (.int 1) rfl).2 _ rfl).2⟩

end Inlining
