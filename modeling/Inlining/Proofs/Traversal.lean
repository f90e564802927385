import Inlining.Proofs.Fates
import Inlining.Proofs.Surroundings

/-!
# The way that an exploration takes

An exploration makes a site of each call of a body, one after the other, and goes down into the targets of
each; a revisit resolves its site again and goes down into what is new there. `Traversal` says what a
relation between the compilations before and after has to satisfy at each turn of this way, in which it
may follow the targets that are taken up. It then relates the beginning and the end of every exploration
and revisit that succeeds (`Traversal.ensures_explore`, `Traversal.ensures_revisit`). Nothing else has to
be known of the recursion.
-/

namespace Inlining

/-- A quiet stroke after which targets come from where they came from, and own the sites that they
owned. -/
structure Still (env : Environment) (c c' : Compilation) : Prop where
  quiet : Quiet env c c'
  origin : c'.region.forest.origin? = c.region.forest.origin?
  owns : ∀ t i, c'.region.forest.Owns t i ↔ c.region.forest.Owns t i

section Still

variable {env : Environment} {c c' : Compilation}

theorem Still.of_forest (quiet : Quiet env c c') (forest : c'.region.forest = c.region.forest) :
    Still env c c' :=
  ⟨quiet, by rw [forest], fun t i => by rw [forest]⟩

theorem Cut.still {reason : FailureReason} (h : Cut reason c c') (terminal : reason.isTerminal = true) :
    Still env c c' :=
  ⟨.cut terminal h, h.calm.origin, h.calm.owns⟩

theorem Still.charge (c : Compilation) (chain : List TargetId) (size : Size) :
    Still env c
      { c with region := c.region.grow chain size, totalSize := c.totalSize + size } :=
  ⟨.charge chain size, c.region.origin_grow chain size, c.region.owns_grow chain size⟩

end Still

open Exploration

/-- `R` holds from the beginning of a part of an exploration to its end if it holds for the parts that it
is made of. The list is that of the targets that waited and were taken up. -/
structure Traversal (env : Environment) (R : List TargetId → Compilation → Compilation → Prop) :
    Prop where
  refl : ∀ c, R [] c c
  trans : ∀ {ts us c c' c''}, R ts c c' → R us c' c'' → R (ts ++ us) c c''
  earlier : ∀ {ts c c'}, R ts c c' → c'.previouslyInlined = c.previouslyInlined
  still : ∀ {ts c c' c''}, R ts c c' → Still env c' c'' → R ts c c''
  call : ∀ {c c' k instruction stack}, c.region.forest.Sound env.config.maxDepth →
    k = .ofInstruction c.region.sites.next k.caller k.depth instruction →
    instruction ∈ env.program.instructionsOf k.caller → k.depth ≤ env.config.maxDepth →
    k.Checked env → stack.previouslyInlined = c.previouslyInlined →
    R ((c.opened env stack k).region.forest.live k.id) (c.opened env stack k) c' → R [] c c'
  again : ∀ {c c' id s chain stack new}, c.region.forest.Sound env.config.maxDepth →
    c.region.sites.get? id = some s → c.region.enclosing? s = some chain → s.toCall.Checked env →
    stack.previouslyInlined = c.previouslyInlined →
    c.region.Adds env.config.maxDepth id (c.resolve env stack id s).region new →
    R new (c.resolve env stack id s) c' → R [] c c'
  refuse : ∀ {c t x id s}, c.region.forest.Pending id t → c.region.targets.get? t = some x →
    env.program.isInlinable x.method = false → c.region.sites.get? id = some s → t ∈ s.live →
    R [t] c ((c.numbered t).update id (((c.numbered t).scope s).giveUp t .uninlineable))
  body : ∀ {c c' t x id depth found}, c.region.forest.Sound env.config.maxDepth →
    c.region.forest.Pending id t → c.region.targets.get? t = some x →
    env.program.isInlinable x.method = true → R [] (c.entered env t x.method depth) c' →
    Walked env x.method depth (env.program.instructionsOf x.method) found
      (c.entered env t x.method depth) c' →
    R [t] c { c' with region := c'.region.settle t found }

namespace Exploration

section Loops

variable {c : Compilation} {fail : Fault → Compilation → Prop}

/-- Going through new targets of a site, each of which leaves the others as new as they were. -/
theorem ensures_forNew {f : TargetId → Exploration Unit} {id : SiteId}
    (inv : List TargetId → Compilation → Prop)
    (each : ∀ {c t rest}, inv (t :: rest) c → c.region.forest.Pending id t → Ensures (f t) c
      (fun _ c' => inv rest c' ∧
        ∀ u, u ≠ t → c.region.forest.Pending id u → c'.region.forest.Pending id u) fail)
    {new : List TargetId} (distinct : new.Nodup)
    (pending : ∀ t ∈ new, c.region.forest.Pending id t) (hc : inv new c) :
    Ensures (new.forM f) c (fun _ => inv []) fail := by
  induction new generalizing c with
  | nil => exact hc
  | cons t new ih =>
    obtain ⟨ht, distinct⟩ := List.nodup_cons.1 distinct
    refine .bind (each hc (pending t (List.mem_cons_self ..))) fun _ c' ⟨hc', others⟩ => ?_
    exact ih distinct (fun u hu => others u (ne_of_mem_of_not_mem hu ht)
      (pending u (List.mem_cons_of_mem _ hu))) hc'

variable {env : Environment} {P : Compilation → Prop} {id : SiteId} {t : TargetId}
  (closed : ∀ {c c'}, P c → Still env c c' → P c')
include closed

/-- What is left to do for a target once its body was explored and settled is still. -/
theorem still_finish {stack : CallStack} {m : MethodId} {depth : Nat} {found : List SiteId}
    (inside : stack.At m depth) (settled : P { c with region := c.region.settle t found }) :
    Ensures (finish env stack id t depth found) c (fun _ => P) fun _ => P := by
  refine ensures_finish inside (fun reason large => ?_) (fun _ _ => ?_) fun _ _ => ?_
  · exact maintains_abandon (fun h cut => closed h (cut.still (overflow?_terminal large))) _
      (closed settled (.of_forest (.leave m depth false) rfl))
  · have left := closed settled (.of_forest (.leave m depth true) rfl)
    exact maintains_checkCallees _ (closed left (.of_forest (.spend _) rfl))
  · exact maintains_checkCallees _ (closed settled (.of_forest (.leave m depth true) rfl))

/-- Charging a target is still, whether it is accepted or given up. -/
theorem still_charge (chain : List TargetId) : Maintains P (charge env chain id t) := by
  intro c hc
  rw [charge, ensures_get_bind]
  dsimp only
  split
  · exact maintains_abandon (fun h cut => closed h (cut.still rfl)) c hc
  · split
    · exact maintains_abandon (fun h cut => closed h (cut.still rfl)) c hc
    · exact closed hc (.charge c chain _)

end Loops

end Exploration

namespace Traversal

variable {env : Environment} {R : List TargetId → Compilation → Compilation → Prop}
  (traversal : Traversal env R) {c : Compilation} {depth : Nat} {id : SiteId} {t : TargetId} {k : Call}
  {methods : List MethodId}
include traversal

section Body

variable {levels : Nat} (reach : env.config.maxDepth ≤ depth + levels)
  (descends : ∀ {c id t k} stack, c.region.forest.Sound env.config.maxDepth →
    c.region.forest.Pending id t → c.region.forest.call? id = some k → k.depth = depth →
    stack.Stands methods c.previouslyInlined →
    Ensures (exploreTarget env levels stack id t) c (fun _ => R [t] c) fun _ _ => True)
include reach descends

/-- Exploring new targets of a site one after the other. -/
theorem ensures_exploreNew (stack : CallStack) (stands : stack.Stands methods c.previouslyInlined)
    (sound : c.region.forest.Sound env.config.maxDepth) (hk : c.region.forest.call? id = some k)
    (hd : k.depth = depth) {new : List TargetId} (distinct : new.Nodup)
    (pending : ∀ t ∈ new, c.region.forest.Pending id t) :
    Ensures (new.forM (exploreTarget env levels stack id)) c (fun _ => R new c) fun _ _ => True := by
  let inv (rest : List TargetId) (c' : Compilation) : Prop :=
    c'.region.forest.Sound env.config.maxDepth ∧ c'.region.forest.call? id = some k ∧
      ∃ done, done ++ rest = new ∧ R done c c'
  refine (ensures_forNew inv ?_ distinct pending ⟨sound, hk, [], rfl, traversal.refl c⟩).imp ?_
  · rintro c₁ t rest ⟨sound₁, hk₁, done, parts, before⟩ pending₁
    refine ((ensures_exploreTarget sound₁ pending₁ hk₁ (by omega)).and (descends stack sound₁ pending₁
      hk₁ hd (by rwa [traversal.earlier before]))).mono ?_ fun _ _ _ => trivial
    rintro - c₂ ⟨explored, one⟩
    exact ⟨⟨explored.grown.sound, explored.grown.keeps.call hk₁, done ++ [t], by simpa using parts,
      traversal.trans before one⟩, fun u other hu => explored.pending sound₁ hu other⟩
  · rintro - c₁ ⟨-, -, done, parts, all⟩
    rwa [← parts, List.append_nil]

/-- Exploring one call of a body. -/
theorem ensures_exploreCall {method : MethodId} {outer : List MethodId} (hm : methods = method :: outer)
    (stack : CallStack) (stands : stack.Stands methods c.previouslyInlined)
    (sound : c.region.forest.Sound env.config.maxDepth) {call : CallInstruction}
    (hcall : call ∈ env.program.instructionsOf method) (shallow : depth ≤ env.config.maxDepth) :
    Ensures (exploreCall env (exploreTarget env levels) stack method depth call) c
      (fun _ => R [] c) fun _ _ => True := by
  subst hm
  generalize hk : Call.ofInstruction c.region.sites.next method depth call = k
  have kid : k.id = c.region.sites.next := by rw [← hk]; rfl
  have source : k = .ofInstruction c.region.sites.next k.caller k.depth call := by rw [← hk]; rfl
  have caller : k.caller = method := by rw [← hk]; rfl
  have lies : k.depth = depth := by rw [← hk]; rfl
  rw [← caller] at hcall
  rcases run_exploreCall stands sound hk.symm with ⟨checked, stack', stands', run⟩ | ⟨-, e, -, run⟩
  · have opened := opened_opened sound kid stack'
    have targets := traversal.ensures_exploreNew (c := c.opened env stack' k) reach descends stack'
      stands' opened.grown.sound opened.call lies (opened.grown.sound.live_nodup k.id) opened.pending
    refine .congr (run _) (.bind targets ?_)
    intro _ c₁ below
    exact traversal.call sound source hcall (lies ▸ shallow) checked stands'.earlier below
  · exact .of_error (run _) trivial

/-- Exploring the calls of a body one after the other. -/
theorem ensures_exploreBody {method : MethodId} {outer : List MethodId} (hm : methods = method :: outer)
    (stack : CallStack) (stands : stack.Stands methods c.previouslyInlined)
    (sound : c.region.forest.Sound env.config.maxDepth) (shallow : depth ≤ env.config.maxDepth) :
    Ensures (exploreBody env (exploreTarget env levels) stack method depth) c
      (fun found c' => R [] c c' ∧
        Walked env method depth (env.program.instructionsOf method) found c c') fun _ _ => True := by
  have explores {c id t k} (stack : CallStack) (sound : c.region.forest.Sound env.config.maxDepth)
      (pending : c.region.forest.Pending id t) (hk : c.region.forest.call? id = some k)
      (hd : k.depth = depth) : Ensures (exploreTarget env levels stack id t) c _ _ :=
    ensures_exploreTarget sound pending hk (by omega)
  let inv (rest : List CallInstruction) (_ : List SiteId) (c' : Compilation) : Prop :=
    (∀ call ∈ rest, call ∈ env.program.instructionsOf method) ∧
      c'.region.forest.Sound env.config.maxDepth ∧ R [] c c'
  have calls : Ensures (exploreBody env (exploreTarget env levels) stack method depth) c
      (inv []) fun _ _ => True := by
    refine Ensures.mapM inv ?_ ⟨fun _ h => h, sound, traversal.refl c⟩
    rintro call rest - c₁ ⟨calls, sound₁, before⟩
    refine ((Exploration.ensures_exploreCall explores stack sound₁ method call).and
      (traversal.ensures_exploreCall reach descends hm stack (by rwa [traversal.earlier before]) sound₁
        (calls call (List.mem_cons_self ..)) shallow)).mono ?_ fun _ _ _ => trivial
    rintro i c₂ ⟨walked, one⟩
    exact ⟨fun call' h => calls call' (List.mem_cons_of_mem _ h), walked.grown.sound,
      traversal.trans before one⟩
  refine (calls.and (Exploration.ensures_exploreBody explores stack sound method)).mono ?_
    fun _ _ _ => trivial
  rintro found c' ⟨⟨-, -, all⟩, walked⟩
  exact ⟨all, walked⟩

end Body

/-- Removing a new target whose method may not be inlined. -/
theorem ensures_removeTarget (pending : c.region.forest.Pending id t) {x : CallTarget}
    (hx : c.region.targets.get? t = some x) (uninlinable : env.program.isInlinable x.method = false) :
    Ensures (removeTarget env id t .uninlineable) (c.numbered t) (fun _ => R [t] c)
      fun _ _ => True := by
  refine .bind (ensures_changeSite.2 ⟨fun s hs => ⟨fun scope h => ?_, fun _ _ => trivial⟩,
    fun _ => trivial⟩) fun _ c₁ (refused : R [t] c c₁) => ?_
  · obtain ⟨live, rfl⟩ := SiteScope.remove_eq_ok_iff.1 h
    exact traversal.refuse pending hx uninlinable hs live
  · have checked : Maintains (R [t] c) (do
        if env.config.verifyInvariants then
          Exploration.ofExcept (← site id).checkTargetCounts) := by
      split
      · exact .bind maintains_site fun _ => maintains_ofExcept
      · exact maintains_pure
    exact (checked c₁ refused).imp_fail fun _ _ _ => trivial

/-- Exploring a new target of a site inside frames of `methods`. -/
theorem ensures_exploreTarget {levels : Nat} (stack : CallStack)
    (sound : c.region.forest.Sound env.config.maxDepth) (pending : c.region.forest.Pending id t)
    (hk : c.region.forest.call? id = some k) (reach : env.config.maxDepth ≤ k.depth + levels)
    (height : methods.length = k.depth + 1) (stands : stack.Stands methods c.previouslyInlined) :
    Ensures (exploreTarget env levels stack id t) c (fun _ => R [t] c) fun _ _ => True := by
  have within := sound.depth_lt hk pending.live
  induction levels generalizing c stack id t k methods with
  | zero => omega
  | succ levels ih =>
    obtain ⟨o, ho, -⟩ := sound.origin_of_live pending.live
    obtain ⟨x, hx, -⟩ := Region.target_of_origin ho
    cases inlinable : env.program.isInlinable x.method with
    | false =>
      exact .congr (run_exploreTarget_uninlinable hk hx inlinable stack levels)
        (traversal.ensures_removeTarget pending hx inlinable)
    | true =>
      obtain ⟨inner, stands', inside, run⟩ := run_exploreTarget hk hx inlinable stands height
      have sound' : (c.entered env t x.method (k.depth + 1)).region.forest.Sound _ :=
        (c.forest_entered env t x.method (k.depth + 1)).symm ▸ sound
      refine .congr (run levels) (.bind (traversal.ensures_exploreBody (by omega)
        (fun {c id t k'} stack sound pending hk' deeper stands => ih stack sound pending hk' (by omega)
          (by simp [height, deeper]) stands (sound.depth_lt hk' pending.live)) rfl inner stands' sound'
          within) ?_)
      rintro found c₁ ⟨below, walked⟩
      exact (still_finish traversal.still inside
        (traversal.body sound pending hx inlinable below walked)).imp_fail fun _ _ _ => trivial

/-- Exploring a method, after which the sites that were found in its body are adopted. -/
theorem ensures_explore (sound : c.region.forest.Sound env.config.maxDepth) (method : MethodId) :
    Ensures (explore env method) c
      (fun _ c' => ∃ c₁ roots compiled, R [] c c₁ ∧ c' = { c₁ with roots, compiled })
      fun _ _ => True := by
  by_cases missing : env.program.sizeOf? method = none
  · exact .of_error (run_explore_of_none missing) trivial
  refine ensures_explore_within missing fun stack stands => ?_
  let c₀ : Compilation := { c with journal := c.journal.record (.framePushed method 0) }
  have entered : R [] c c₀ := traversal.still (traversal.refl c) (.of_forest (.enter method 0) rfl)
  have body : Ensures (exploreBody env (exploreTarget env env.config.maxDepth) stack method 0) c₀ _ _ :=
    traversal.ensures_exploreBody (Nat.le_add_left ..) (fun stack sound pending hk hd stands =>
      traversal.ensures_exploreTarget stack sound pending hk (Nat.le_add_left ..) (by rw [hd]; rfl) stands)
      rfl stack stands sound (Nat.zero_le _)
  refine body.imp fun found c₁ ⟨below, _⟩ => ?_
  exact ⟨_, _, _, traversal.still (traversal.trans entered below)
    (.of_forest (.leave method 0 true) rfl), rfl⟩

/-- Exploring a new target of a site inside `chain` and charging it. -/
theorem ensures_absorb {chain : List TargetId} (stack : CallStack)
    (sound : c.region.forest.Sound env.config.maxDepth) (pending : c.region.forest.Pending id t)
    (hk : c.region.forest.call? id = some k) (height : methods.length = k.depth + 1)
    (stands : stack.Stands methods c.previouslyInlined) :
    Ensures (absorb env (env.config.maxDepth - k.depth) stack chain id t) c
      (fun _ => R [t] c) fun _ _ => True := by
  refine .bind (traversal.ensures_exploreTarget stack sound pending hk (by omega) height stands)
    fun _ c₁ one => ?_
  have charged : Maintains (R [t] c) (do
      if (← site id).live.contains t && !chain.isEmpty then
        charge env chain id t) := by
    refine .bind maintains_site fun s => ?_
    split
    · exact still_charge traversal.still chain
    · exact maintains_pure
  exact (charged c₁ one).imp_fail fun _ _ _ => trivial

/-- Revisiting a site. -/
theorem ensures_revisit (sound : c.region.forest.Sound env.config.maxDepth) (id : SiteId) :
    Ensures (revisit env id) c (fun _ c' => R [] c c') fun _ _ => True := by
  cases hs : c.region.sites.get? id with
  | none => exact .of_error (run_revisit_of_none hs) trivial
  | some s =>
  cases hchain : c.region.enclosing? s with
  | none => exact .of_ok (run_revisit_of_detached hs hchain) (traversal.refl c)
  | some chain =>
  have hk := Region.forest_call hs
  obtain ⟨root, methods, frames⟩ := Region.frames_of_enclosing sound hs hchain
  have enclosed := frames.encloses
  have undeleted := enclosed.undeleted sound
  have height := frames.height sound hk
  refine ensures_revisit_within sound frames hs (by rwa [List.reverse_reverse]) fun stack stands => ?_
  rw [List.reverse_reverse]
  obtain ⟨-, new, adds⟩ := adds_resolved stack c.journal sound hs undeleted
  refine .bind ((ensures_resolveStroke stack sound hs undeleted).imp_fail fun _ _ _ => trivial) ?_
  rintro - c₁ ⟨checked, hc₁⟩
  have adds₁ : c.region.Adds env.config.maxDepth id c₁.region new := hc₁ ▸ adds
  have same : c₁.previouslyInlined = c.previouslyInlined := by rw [hc₁]; rfl
  have hk₁ := adds₁.keeps.call hk
  obtain ⟨s₁, hs₁, -⟩ := Region.site_of_call hk₁
  have added := adds₁.new_live sound hs hs₁
  refine .congr (run_bind_of_ok (run_site hs₁)) ?_
  rw [added]
  let inv (rest : List TargetId) (c' : Compilation) : Prop :=
    c'.region.forest.Sound env.config.maxDepth ∧ c'.region.forest.call? id = some s.toCall ∧
      c'.region.forest.Encloses chain.reverse id ∧ ∃ done, done ++ rest = new ∧ R done c₁ c'
  refine .bind (ensures_forNew inv ?_ adds₁.nodup (fun t ht => adds₁.pending sound ht)
    ⟨adds₁.sound, hk₁, adds₁.encloses sound enclosed, [], rfl, traversal.refl c₁⟩) ?_
  · rintro c₂ t rest ⟨sound₂, hk₂, enclosed₂, done, parts, before⟩ pending
    have earlier : c₂.previouslyInlined = c.previouslyInlined := (traversal.earlier before).trans same
    refine ((ensures_exploreCharge stack sound₂ hk₂ enclosed₂ pending).and (traversal.ensures_absorb stack
      sound₂ pending hk₂ height (by rwa [earlier]))).mono ?_ fun _ _ _ => trivial
    rintro - c₃ ⟨charged, one⟩
    exact ⟨⟨charged.grown.sound, charged.grown.keeps.call hk₂, charged.encloses, done ++ [t],
      by simpa using parts, traversal.trans before one⟩, fun u other hu => charged.pending other hu⟩
  · rintro - c₂ ⟨-, -, -, done, parts, all⟩
    rw [List.append_nil] at parts
    subst parts hc₁
    exact ensures_bind.2 (ensures_site.2 ⟨fun _ _ =>
      traversal.again sound hs hchain checked stands.earlier adds all, fun _ => trivial⟩)

end Traversal

end Inlining
