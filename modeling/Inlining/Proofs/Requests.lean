import Inlining.Proofs.Revisits

/-!
# Sessions keep the forest in order

Every request keeps the region sound, whether it succeeds or fails, and one that succeeds leaves
accounts without exceptions (`orderly_perform`). So the region is sound in every session
(`Visits.sound`), and in a session without a failed request all sizes, owners and roots are as
`Forest.Accounts` says (`Completes.accounts`).
-/

namespace Inlining

/-- Floating sites of a compiled method may become roots. -/
theorem Forest.Accounts.adopt {f : Forest} {p : Program} {limit total : Size}
    {roots floating : List SiteId} {hidden unsettled : List TargetId}
    (h : f.Accounts p limit roots total hidden unsettled floating)
    (tops : ∀ i ∈ floating, ∃ k, f.call? i = some k ∧ k.depth = 0) :
    f.Accounts p limit (roots ++ floating) total hidden unsettled [] :=
  { h with
    tops_distinct := by simpa using h.tops_distinct
    root := fun i hi => (List.mem_append.1 hi).elim (h.root i) (tops i)
    floats := nofun
    held := by simpa using h.held
    total := by simpa using h.total }

@[simp] theorem Compilation.site_start (config : Configuration) (earlier : List InlinedRecord)
    (i : SiteId) : (start config earlier).region.sites.get? i = none :=
  Arena.get?_eq_none_iff.2 (Nat.zero_le _)

@[simp] theorem Compilation.target_start (config : Configuration) (earlier : List InlinedRecord)
    (t : TargetId) : (start config earlier).region.targets.get? t = none :=
  Arena.get?_eq_none_iff.2 (Nat.zero_le _)

/-- Nothing is known of a compilation that has not begun. -/
theorem Compilation.forest_start (config : Configuration) (earlier : List InlinedRecord) :
    (start config earlier).region.forest =
      { call? := fun _ => none, live := fun _ => [], removed := fun _ => [], totalAdded := fun _ => 0
        origin? := fun _ => none, fullSize := fun _ => 0, callees := fun _ => []
        deleted := fun _ => [], calleeCount := fun _ => 0, deletedCount := fun _ => 0 } := by
  ext1 <;> simp [Region.forest, Region.liveTargets, Region.fullSize, funext_iff]

theorem Compilation.sound_start (config : Configuration) (earlier : List InlinedRecord) :
    (start config earlier).region.forest.Sound config.maxDepth := by
  rw [forest_start]
  constructor <;> simp [Forest.home?, Forest.Owns]

theorem Compilation.accounts_start (p : Program) (config : Configuration)
    (earlier : List InlinedRecord) : (start config earlier).Accounts p config [] [] [] := by
  unfold Compilation.Accounts
  rw [forest_start]
  constructor <;> simp [start, Forest.Corresponds]

namespace Exploration

variable {α : Type} {env : Environment}

/-- The region stays sound, and without a failure the accounts stay in order. -/
def Orderly (env : Environment) (x : Exploration α) : Prop :=
  ∀ c, c.region.forest.Sound env.config.maxDepth →
    Ensures x c
      (fun _ c' => c'.region.forest.Sound env.config.maxDepth ∧
        (c.Accounts env.program env.config [] [] [] → c'.Accounts env.program env.config [] [] []))
      fun _ c' => c'.region.forest.Sound env.config.maxDepth

theorem Orderly.discard {x : Exploration α} (h : Orderly env x) :
    Orderly env (Functor.discard x) :=
  fun c sound => .bind (h c sound) fun _ _ h => h

theorem orderly_explore (method : MethodId) : Orderly env (explore env method) := by
  intro c sound
  have explores : ∀ {c id t k} stack, c.region.forest.Sound env.config.maxDepth →
      c.region.forest.Pending id t → c.region.forest.call? id = some k → k.depth = 0 →
      Ensures (exploreTarget env env.config.maxDepth stack id t) c (fun _ => Explored env id t c)
        fun _ => Grown env.config.maxDepth ∅ {t} c :=
    fun _ sound pending hk _ => ensures_exploreTarget sound pending hk (Nat.le_add_left ..)
  by_cases missing : env.program.sizeOf? method = none
  · exact .of_error (run_explore_of_none missing) sound
  refine ensures_explore_within missing fun stack _ =>
    (ensures_exploreBody explores stack (c := { c with
      journal := c.journal.record (.framePushed method 0) }) sound method).mono ?_
      fun _ _ grown => grown.sound
  intro found c₁ walked
  refine ⟨walked.grown.sound, fun h => ?_⟩
  apply Forest.Accounts.adopt (walked.accounts h)
  intro i hi
  obtain ⟨call, hk⟩ := walked.call i (by simpa using hi)
  exact ⟨_, hk, rfl⟩

theorem orderly_revisit (id : SiteId) : Orderly env (revisit env id) :=
  fun _ sound => ensures_revisit sound

/-- What the forest does not see keeps the order. -/
theorem orderly_of_forest {x : Exploration α}
    (h : ∀ c, Ensures x c
      (fun _ c' => c'.region.forest = c.region.forest ∧ c'.roots = c.roots ∧ c'.totalSize = c.totalSize)
      fun _ c' => c'.region.forest = c.region.forest) : Orderly env x := by
  intro c sound
  refine (h c).mono ?_ fun _ c' forest => forest ▸ sound
  rintro _ c' ⟨forest, roots, total⟩
  exact ⟨forest ▸ sound, fun h => h.of_forest forest roots total⟩

theorem orderly_markInlined (t : TargetId) : Orderly env (markInlined t) := by
  apply orderly_of_forest
  intro c
  unfold markInlined
  rw [ensures_bind, ensures_target]
  refine ⟨fun x hx => ?_, fun _ => rfl⟩
  rw [ensures_bind, ensures_site]
  refine ⟨fun s hs => ?_, fun _ => rfl⟩
  exact ⟨Region.forest_modify_target fun _ => rfl, rfl, rfl⟩

theorem orderly_replay (t : TargetId) (folds : List (Int × Constant)) :
    Orderly env (replay t folds) := by
  apply orderly_of_forest
  intro c
  unfold replay
  rw [ensures_bind, ensures_target]
  refine ⟨fun x hx => ?_, fun _ => rfl⟩
  rw [ensures_get_bind]
  generalize Replay.foldAll _ folds = answer
  obtain ⟨outcomes, after⟩ := answer
  dsimp only
  rw [ensures_bind, ensures_modifyTarget, ensures_bind, ensures_modifyRegion, ensures_pure]
  have same := Region.forest_modify_target (r := c.region) (t := t)
    (f := fun x => { x with constants := after.constants }) fun _ => rfl
  exact ⟨same, rfl, rfl⟩

theorem orderly_perform (env : Environment) (request : Request) : Orderly env (perform env request) := by
  cases request with
  | explore method => exact (orderly_explore method).discard
  | revisit site => exact (orderly_revisit site).discard
  | markInlined target => exact orderly_markInlined target
  | replay target folds => exact (orderly_replay target folds).discard
  | invalidate a => exact orderly_of_forest fun c => ⟨rfl, rfl, rfl⟩

end Exploration

open Exploration

variable {p : Program} {config : Configuration} {earlier : List InlinedRecord} {c : Compilation}

/-- The region is sound in every session. -/
theorem Visits.sound (h : Visits p config earlier c) : c.region.forest.Sound config.maxDepth :=
  h.invariant (P := fun c => c.region.forest.Sound config.maxDepth)
    (Compilation.sound_start config earlier) fun advice request c sound =>
    (orderly_perform ⟨p, config, advice⟩ request c sound).imp fun _ _ h => h.1

/-- In a session without a failed request the accounts have no exceptions. -/
theorem Completes.accounts (h : Completes p config earlier c) : c.Accounts p config [] [] [] :=
  h.invariant (P := fun c => c.Accounts p config [] [] [])
    (Compilation.accounts_start p config earlier) fun advice request c visited accounts =>
    (orderly_perform ⟨p, config, advice⟩ request c visited.sound).mono
      (fun _ _ h => h.2 accounts) fun _ _ _ => trivial

end Inlining
