import Inlining.Proofs.Faults
import Inlining.Proofs.Undisturbed

/-!
# Explorations that fail

An exploration that fails gives up its method, and none of the sites that it made becomes a root. What
it accepted up to then stays charged all the same: the calls of a compiled method are explored one
after the other, and the size of a target of such a call is spent as soon as the target is accepted
(`Begun`). So the total grows by the sizes of targets that no root shows (`abandoned_charged`), and
what is compiled next has that much less budget left.
-/

namespace Inlining

open Exploration

/-- From `c` to `c'` calls of a compiled method became the sites `found`. Of the live targets of these
sites, `charged` are charged to the total; `waiting` are those that a failure kept from being explored
to the end. -/
structure Begun (env : Environment) (method : MethodId) (found : List SiteId)
    (charged waiting : List TargetId) (c c' : Compilation) : Prop where
  grown : Grown env.config.maxDepth ∅ ∅ c c'
  fresh : ∀ i ∈ found, c.region.forest.call? i = none
  site : ∀ i ∈ found, ∃ k, c'.region.forest.call? i = some k ∧ k.caller = method ∧ k.depth = 0
  distinct : found.Nodup
  live : found.flatMap c'.region.forest.live = charged ++ waiting
  total : c'.totalSize = c.totalSize + c'.region.totalSize charged

section Calls

variable {env : Environment} {c c' c'' : Compilation} {method : MethodId} {found found' : List SiteId}
  {charged charged' waiting : List TargetId} {id : SiteId} {k : Call} {new : List TargetId}

theorem Begun.refl (sound : c.region.forest.Sound env.config.maxDepth) :
    Begun env method [] [] [] c c where
  grown := ⟨sound, .refl ..⟩
  fresh := nofun
  site := nofun
  distinct := List.nodup_nil
  live := rfl
  total := by simp [Region.totalSize]

/-- What was charged before a further call is explored keeps its size. -/
theorem Begun.totalSize_charged (h : Begun env method found charged waiting c c')
    (kept : c'.region.Keeps c''.region ∅ ∅) :
    c''.region.totalSize charged = c'.region.totalSize charged := by
  refine congrArg List.sum (List.map_congr_left fun t ht => Region.fullSize_congr ?_)
  have live : t ∈ found.flatMap c'.region.forest.live := by
    rw [h.live]
    exact List.mem_append_left _ ht
  obtain ⟨i, -, live⟩ := List.mem_flatMap.1 live
  obtain ⟨o, ho, -⟩ := h.grown.sound.origin_of_live live
  obtain ⟨x, hx, -⟩ := Region.target_of_origin ho
  rw [hx, kept.target hx (Set.notMem_empty t)]

/-- Calls that were explored to the end are followed by further ones. -/
theorem Begun.trans (h : Begun env method found charged [] c c')
    (h' : Begun env method found' charged' waiting c' c'') :
    Begun env method (found ++ found') (charged ++ charged') waiting c c'' := by
  have there (i : SiteId) (hi : i ∈ found) : c'.region.forest.call? i ≠ none := by
    obtain ⟨k, hk, -⟩ := h.site i hi
    simp [hk]
  exact {
    grown := h.grown.trans h'.grown (fun _ hi _ => hi) fun _ ht _ => ht
    fresh := by
      intro i hi
      rcases List.mem_append.1 hi with hi | hi
      · exact h.fresh i hi
      · by_contra old
        obtain ⟨k, hk⟩ := Option.ne_none_iff_exists'.1 old
        cases (h'.fresh i hi).symm.trans (h.grown.keeps.call hk)
    site := by
      intro i hi
      rcases List.mem_append.1 hi with hi | hi
      · exact (h.site i hi).imp fun _ hk => ⟨h'.grown.keeps.call hk.1, hk.2⟩
      · exact h'.site i hi
    distinct := List.nodup_append'.2
      ⟨h.distinct, h'.distinct, fun i hi hi' => there i hi (h'.fresh i hi')⟩
    live := by
      have before : found.flatMap c''.region.forest.live = found.flatMap c'.region.forest.live :=
        List.flatMap_congr fun i hi => h'.grown.keeps.live (there i hi) (Set.notMem_empty i)
      rw [List.flatMap_append, before, h.live, h'.live, List.append_nil, List.append_assoc]
    total := by
      have sizes := h.totalSize_charged h'.grown.keeps
      have sum : c''.region.totalSize (charged ++ charged') =
          c''.region.totalSize charged + c''.region.totalSize charged' := by
        simp [Region.totalSize]
      rw [h'.total, h.total, sum, sizes, add_assoc] }

/-- A call that became a site, the targets of which were charged one after the other. -/
theorem Begun.of_resumed (opened : Opened env id k new c c') (caller : k.caller = method)
    (top : k.depth = 0) (total : c'.totalSize = c.totalSize)
    (grown : Grown env.config.maxDepth {id} {t | t ∈ new ∨ t ∈ []} c' c'')
    (resumed : Resumed [] id [] charged waiting c' c'') :
    Begun env method [id] charged waiting c c'' where
  grown := opened.trans (grown.mono le_rfl fun _ ht => ht.resolve_right List.not_mem_nil)
  fresh i hi := List.mem_singleton.1 hi ▸ opened.fresh
  site i hi := List.mem_singleton.1 hi ▸ ⟨k, grown.keeps.call opened.call, caller, top⟩
  distinct := List.nodup_singleton id
  live := by simpa using resumed.live
  total := by rw [resumed.total, total]

/-- Exploring one call of a compiled method. -/
theorem ensures_beginCall {stack : CallStack} (stands : stack.Stands [method] c.previouslyInlined)
    (sound : c.region.forest.Sound env.config.maxDepth) (call : CallInstruction) :
    Ensures (exploreCall env (exploreTarget env env.config.maxDepth) stack method 0 call) c
      (fun id c' => c'.previouslyInlined = c.previouslyInlined ∧
        ∃ charged, Begun env method [id] charged [] c c')
      fun _ c' => ∃ found charged waiting, Begun env method found charged waiting c c' := by
  generalize hk : Call.ofInstruction c.region.sites.next method 0 call = k
  have kid : k.id = c.region.sites.next := by rw [← hk]; rfl
  have caller : k.caller = method := by rw [← hk]; rfl
  have top : k.depth = 0 := by rw [← hk]; rfl
  rcases run_exploreCall stands sound hk.symm with ⟨-, stack', stands', run⟩ | ⟨-, e, -, run⟩
  · have opened := opened_opened sound kid stack'
    have enclosed : (c.opened env stack' k).region.forest.Encloses [].reverse k.id :=
      ⟨k, opened.call, top⟩
    have total : (c.opened env stack' k).totalSize = c.totalSize := rfl
    have earlier : (c.opened env stack' k).previouslyInlined = c.previouslyInlined := rfl
    refine .congr (run _) ?_
    generalize c.opened env stack' k = c₁ at *
    have reach : env.config.maxDepth ≤ k.depth + env.config.maxDepth := Nat.le_add_left ..
    have live : c₁.region.forest.live k.id = [] ++ c₁.region.forest.live k.id := rfl
    refine .bind ((ensures_resumeAll opened.grown.sound opened.call enclosed live opened.pending
      fun {c₂ t} sound₁ hk₁ enclosed₁ pending earlier₁ => ?_).imp_fail ?_) ?_
    · have frames : stack'.Stands [method] c₂.previouslyInlined := by
        rw [earlier₁, earlier]
        exact stands'
      refine ((ensures_exploreTarget sound₁ pending hk₁ reach).and
        (ensures_descendTarget stack' sound₁ pending hk₁ reach (by rw [top]; rfl) frames)).imp ?_
      rintro - c₃ ⟨explored, descended⟩
      exact ⟨explored.charged sound₁ pending enclosed₁ fun _ => rfl,
        Absorbed.of_descended sound₁ pending enclosed₁ explored hk₁ descended fun _ => rfl⟩
    · rintro e c₂ ⟨grown, -, charged, waiting, resumed⟩
      exact ⟨_, charged, waiting, .of_resumed opened caller top total grown resumed⟩
    · rintro - c₂ ⟨grown, steps, charged, resumed⟩
      exact ⟨steps.previouslyInlined.trans earlier, charged,
        .of_resumed opened caller top total grown resumed⟩
  · have opened := opened_refused sound kid
    have live := opened.live
    exact .of_error (run _) ⟨[k.id], [], [], .of_resumed opened caller top rfl
      ⟨opened.grown.sound, .refl ..⟩ (.refl (by rw [live]; rfl))⟩

/-- Exploring the calls of a compiled method one after the other. -/
theorem ensures_beginBody {stack : CallStack} (stands : stack.Stands [method] c.previouslyInlined)
    (sound : c.region.forest.Sound env.config.maxDepth) :
    Ensures (exploreBody env (exploreTarget env env.config.maxDepth) stack method 0) c
      (fun found c' => ∃ charged, Begun env method found charged [] c c')
      fun _ c' => ∃ found charged waiting, Begun env method found charged waiting c c' := by
  let inv (_ : List CallInstruction) (done : List SiteId) (c' : Compilation) : Prop :=
    c'.previouslyInlined = c.previouslyInlined ∧ ∃ charged, Begun env method done charged [] c c'
  rw [exploreBody_eq]
  refine (Ensures.mapM inv ?_ ⟨rfl, [], .refl sound⟩).imp fun _ _ h => h.2
  rintro call rest done c₁ ⟨earlier, charged, begun⟩
  refine (ensures_beginCall (by rw [earlier]; exact stands) begun.grown.sound call).mono ?_ ?_
  · rintro id c₂ ⟨earlier', charged', one⟩
    exact ⟨earlier'.trans earlier, _, begun.trans one⟩
  · rintro e c₂ ⟨found, charged', waiting, one⟩
    exact ⟨_, _, waiting, begun.trans one⟩

end Calls

/-- From `c` to `c'` the exploration of a method was abandoned. The sites `found`, which it made for
calls of the method itself, are nobody's roots; `charged` are those of their live targets that it had
accepted. -/
structure Abandoned (c : Compilation) (method : MethodId) (found : List SiteId)
    (charged waiting : List TargetId) (c' : Compilation) : Prop where
  /-- nothing new is shown -/
  roots : c'.roots = c.roots
  compiled : c'.compiled = c.compiled
  /-- and everything is left as it was -/
  kept : c.region.Extends c'.region
  fresh : ∀ i ∈ found, c.region.sites.get? i = none
  site : ∀ i ∈ found, ∃ s, c'.region.sites.get? i = some s ∧ s.caller = method ∧ s.depth = 0
  distinct : found.Nodup
  live : found.flatMap c'.region.liveTargets = charged ++ waiting
  /-- but the total -/
  total : c'.totalSize = c.totalSize + c'.region.totalSize charged

/-- An exploration that fails is abandoned. -/
theorem ensures_abandoned {env : Environment} {c : Compilation} {method : MethodId}
    (sound : c.region.forest.Sound env.config.maxDepth) :
    Ensures (explore env method) c (fun _ _ => True)
      fun _ c' => ∃ found charged waiting, Abandoned c method found charged waiting c' := by
  by_cases missing : env.program.sizeOf? method = none
  · exact .of_error (run_explore_of_none missing) ⟨[], [], [], rfl, rfl, ⟨id, id⟩, nofun, nofun,
      List.nodup_nil, rfl, by simp [Region.totalSize]⟩
  have begins : Ensures (explore env method) c (fun _ _ => True)
      fun _ c' => ∃ found charged waiting, Begun env method found charged waiting
        { c with journal := c.journal.record (.framePushed method 0) } c' :=
    ensures_explore_within missing fun stack stands =>
      (ensures_beginBody (c := { c with journal := c.journal.record (.framePushed method 0) }) stands
        sound).imp fun _ _ _ => trivial
  refine ((ensures_exploreStrokes sound missing).and begins).mono (fun _ _ _ => trivial) ?_
  rintro e c' ⟨⟨-, fails⟩, found, charged, waiting, begun⟩
  obtain ⟨-, roots, compiled⟩ := fails.fixed
  refine ⟨found, charged, waiting, roots, compiled, begun.grown.keeps.extends, fun i hi => ?_,
    fun i hi => ?_, begun.distinct, begun.live, begun.total⟩
  · simpa [Region.forest] using begun.fresh i hi
  · obtain ⟨k, hk, caller, top⟩ := begun.site i hi
    obtain ⟨s, hs, rfl⟩ := Region.site_of_call hk
    exact ⟨s, hs, caller, top⟩

/-- **A failed exploration is charged for what it accepted.** In every session, an exploration that
fails leaves the roots, the compiled methods and all sites and targets as they were. The total has
grown by the sizes of the targets that it accepted for calls of the method before it failed, although
no root shows them. -/
theorem abandoned_charged {p : Program} {config : Configuration} {earlier : List InlinedRecord}
    {c c' : Compilation} (h : Visits p config earlier c) (advice : Advice) {method : MethodId}
    {e : Fault} (run : (explore ⟨p, config, advice⟩ method).run c = (.error e, c')) :
    ∃ found charged waiting, Abandoned c method found charged waiting c' := by
  have abandoned : Ensures (explore ⟨p, config, advice⟩ method) c _ _ := ensures_abandoned h.sound
  exact abandoned.fail_of_error run

/-- `main` calls `log` before it makes a virtual call to `exit`, which is static. -/
def crossedLate : Program where
  classes := [{ id := ⟨0⟩, name := "System" }]
  methods := [
    { id := ⟨0⟩, name := "main", declaringClass := ⟨0⟩, kind := .static, size := .ofNat _ 5,
      calls := [{ index := 1, shape := .direct, method := some ⟨2⟩ },
        { index := 2, shape := .virtual, method := some ⟨1⟩ }] },
    { id := ⟨1⟩, name := "exit", declaringClass := ⟨0⟩, kind := .static, size := .ofNat _ 1 },
    { id := ⟨2⟩, name := "log", declaringClass := ⟨0⟩, kind := .static, size := .ofNat _ 10 }]
  accepted := by decide +kernel

/-- `main` was explored up to its call of `exit`. -/
def exitAbandoned : Compilation :=
  ((explore ⟨crossedLate, verified, .unprofiled⟩ ⟨0⟩).run (.start verified [])).2

/-- `main` was given up at its call of `exit`. -/
theorem run_exitAbandoned : (explore ⟨crossedLate, verified, .unprofiled⟩ ⟨0⟩).run (.start verified []) =
    (.error (.inconsistentInitialCallee ⟨1⟩ .dispatchedStatic), exitAbandoned) := by
  have refused : ((explore ⟨crossedLate, verified, .unprofiled⟩ ⟨0⟩).run (.start verified [])).1 =
      .error (.inconsistentInitialCallee ⟨1⟩ .dispatchedStatic) := by decide +kernel
  exact Prod.ext refused (by rw [exitAbandoned])

/-- When `main` is given up, `log` stays charged. -/
theorem abandoned_charged_log : ∃ found charged waiting,
    Abandoned (.start verified []) ⟨0⟩ found charged waiting exitAbandoned ∧
      exitAbandoned.totalSize = .ofNat _ 10 := by
  obtain ⟨found, charged, waiting, abandoned⟩ :=
    abandoned_charged (.start : Visits crossedLate verified [] _) .unprofiled run_exitAbandoned
  exact ⟨found, charged, waiting, abandoned, by decide +kernel⟩

/-- A failed exploration does not leave the total as it was. -/
theorem abandoned_not_refunded :
    ¬ ∀ p config earlier c advice method e c', Visits p config earlier c →
      (explore ⟨p, config, advice⟩ method).run c = (.error e, c') →
        c'.totalSize = c.totalSize ∧ c'.roots = c.roots ∧ c'.compiled = c.compiled ∧
          c.region.Extends c'.region := by
  intro refunded
  have same := (refunded crossedLate verified [] _ .unprofiled ⟨0⟩ _ _ .start run_exitAbandoned).1
  have charged : exitAbandoned.totalSize ≠ (Compilation.start verified []).totalSize := by decide +kernel
  exact charged same

end Inlining
