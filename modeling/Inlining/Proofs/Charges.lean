import Inlining.Proofs.Descent
import Inlining.Proofs.Revisits

/-!
# What a revisit charges

A target that a revisit adds to a site is given up, or its size is charged: to every body around
the site and to the total (`Absorbed`). Over all new targets the charges add up to the sizes of
those that stayed live, and nothing else that was there changes but the site itself
(`ensures_revisitStrokes`). Where a revisit fails, the targets that were not reached yet are live and
uncharged.
-/

namespace Inlining

/-- The target with a size inlined into it. -/
def CallTarget.raise (x : CallTarget) (a : Size) : CallTarget := { x with fullSize := x.fullSize + a }

theorem CallTarget.raise_zero (x : CallTarget) : x.raise 0 = x := by
  simp [raise]

theorem CallTarget.raise_raise (x : CallTarget) (a b : Size) :
    (x.raise a).raise b = x.raise (a + b) := by
  simp [raise, add_assoc]

namespace Region

variable {r r' r'' : Region} {chain : List TargetId} {a b : Size}

theorem get?_grow (r : Region) {ts : List TargetId} (distinct : ts.Nodup) (a : Size) (t : TargetId) :
    (r.grow ts a).targets.get? t =
      if t ∈ ts then (r.targets.get? t).map (·.raise a) else r.targets.get? t := by
  induction ts generalizing r with
  | nil => rfl
  | cons u ts ih =>
    obtain ⟨hu, distinct⟩ := List.nodup_cons.1 distinct
    refine (ih { r with targets := r.targets.modify u (·.raise a) } distinct).trans ?_
    rw [Arena.get?_modify]
    by_cases same : u = t
    · subst u
      simp [hu]
    · simp [same, Ne.symm same]

/-- From `r` to `r'` every target in `chain` grew by `a` and changed in nothing else. -/
def Raises (r r' : Region) (chain : List TargetId) (a : Size) : Prop :=
  ∀ e ∈ chain, ∀ x, r.targets.get? e = some x → r'.targets.get? e = some (x.raise a)

theorem Raises.trans (h : r.Raises r' chain a) (h' : r'.Raises r'' chain b) :
    r.Raises r'' chain (a + b) := by
  intro e he x hx
  rw [← x.raise_raise]
  exact h' e he _ (h e he x hx)

theorem Keeps.raises {S : Set SiteId} {T : Set TargetId} (kept : r.Keeps r' S T)
    (above : ∀ e ∈ chain, e ∉ T) : r.Raises r' chain 0 := by
  intro e he x hx
  rw [x.raise_zero]
  exact kept.target hx (above e he)

theorem raises_grow (r : Region) (distinct : chain.Nodup) (a : Size) :
    r.Raises (r.grow chain a) chain a := by
  intro e he x hx
  rw [get?_grow r distinct, if_pos he, hx]
  rfl

theorem fullSize_congr {t : TargetId} (h : r'.targets.get? t = r.targets.get? t) :
    r'.fullSize t = r.fullSize t := by
  rw [fullSize, h, fullSize]

end Region

theorem Forest.Encloses.nodup {f : Forest} {depth : Nat} (sound : f.Sound depth)
    {chain : List TargetId} {i : SiteId} (h : f.Encloses chain i) : chain.Nodup := by
  induction chain generalizing i with
  | nil => exact List.nodup_nil
  | cons e rest ih =>
    obtain ⟨-, j, he, hj⟩ := h
    exact List.nodup_cons.2 ⟨hj.not_mem sound he, ih hj⟩

namespace Exploration

variable {env : Environment} {c c' c'' : Compilation} {id : SiteId} {t : TargetId} {k : Call}
  {chain : List TargetId} {methods : List MethodId} {a : Size}

/-- From `c` to `c'` a new target of a site inside `chain` was explored, and `a` was charged for
it. -/
structure Absorbed (env : Environment) (chain : List TargetId) (id : SiteId) (t : TargetId) (a : Size)
    (c c' : Compilation) : Prop where
  steps : Steps env c c'
  raises : c.region.Raises c'.region chain a
  total : c'.totalSize = c.totalSize + a
  outcome : t ∈ c'.region.forest.live id ∧ c'.region.forest.live id = c.region.forest.live id ∧
      a = c'.region.fullSize t ∨
    t ∉ c'.region.forest.live id ∧
      c'.region.forest.live id = (c.region.forest.live id).erase t ∧ a = 0

/-- Only a site of a compiled method has no body around it. -/
theorem depth_eq_zero_iff (sound : c.region.forest.Sound env.config.maxDepth)
    (hk : c.region.forest.call? id = some k) (enclosed : c.region.forest.Encloses chain.reverse id) :
    k.depth = 0 ↔ chain = [] := by
  have top := enclosed.isTop_iff sound
  simpa [Forest.isTop, hk] using top

section One

variable (sound : c.region.forest.Sound env.config.maxDepth)
  (pending : c.region.forest.Pending id t)
  (enclosed : c.region.forest.Encloses chain.reverse id)
include sound pending enclosed

section Explored

variable (explored : Explored env id t c c')
include explored

theorem Explored.raises : c.region.Raises c'.region chain 0 := by
  refine explored.grown.keeps.raises fun e he same => ?_
  rw [Set.mem_singleton_iff] at same
  exact enclosed.not_mem sound pending.live (same ▸ List.mem_reverse.2 he)

/-- A target that was given up costs nothing. -/
theorem Absorbed.of_gone (frugal : Frugal env c c') (gone : t ∉ c'.region.forest.live id) :
    Absorbed env chain id t 0 c c' where
  steps := frugal.1
  raises := explored.raises sound pending enclosed
  total := by rw [frugal.2, add_zero]
  outcome := by
    refine .inr ⟨gone, explored.live.resolve_left fun same => gone ?_, rfl⟩
    rw [same]
    exact pending.live

variable (hk : c.region.forest.call? id = some k) (descended : Descended env methods k.depth id t c c')
include hk descended

/-- A target that was given up costs nothing, and one of a compiled method was charged when its body
was accepted. -/
theorem Absorbed.of_descended (done : t ∈ c'.region.forest.live id → chain = []) :
    ∃ a, Absorbed env chain id t a c c' := by
  by_cases live : t ∈ c'.region.forest.live id
  · have empty := done live
    have top := (depth_eq_zero_iff sound hk enclosed).2 empty
    have total := descended.total
    rw [if_pos ⟨top, live⟩] at total
    subst empty
    exact ⟨_, descended.steps, fun e he => absurd he List.not_mem_nil, total,
      .inl ⟨live, explored.live_eq sound live, rfl⟩⟩
  · have total := descended.total
    rw [if_neg fun h => live h.2] at total
    exact ⟨0, .of_gone sound pending enclosed explored ⟨descended.steps, total⟩ live⟩

/-- Charging a target that is live inside another body after it was explored. -/
theorem ensures_chargeStrokes (live : t ∈ c'.region.forest.live id) (nested : chain ≠ [])
    {fail : Fault → Compilation → Prop} :
    Ensures (charge env chain id t) c' (fun _ c'' => ∃ a, Absorbed env chain id t a c c'') fail := by
  have total : c'.totalSize = c.totalSize := by
    rw [descended.total, if_neg fun h => nested ((depth_eq_zero_iff sound hk enclosed).1 h.1)]
  have given_up {reason : FailureReason} (terminal : reason.isTerminal = true) :
      Ensures (abandon env id t reason) c' (fun _ c'' => ∃ a, Absorbed env chain id t a c c'') fail := by
    refine ((ensures_giveUp sound pending enclosed explored live nested reason).and_kept
      (maintains_abandon (Frugal.cut terminal) c' ⟨descended.steps, total⟩)).imp ?_
    rintro - c₂ ⟨⟨explored₂, gone⟩, frugal⟩
    exact ⟨0, .of_gone sound pending enclosed explored₂ frugal gone⟩
  rw [charge, ensures_get_bind]
  dsimp only
  split
  · exact given_up rfl
  · split
    · exact given_up rfl
    rw [ensures_modify]
    have distinct : chain.Nodup := by simpa using enclosed.nodup sound
    have outside : t ∉ chain := fun ht => enclosed.not_mem sound pending.live (List.mem_reverse.2 ht)
    have raised := (explored.raises sound pending enclosed).trans
      (c'.region.raises_grow distinct (c'.region.fullSize t))
    rw [zero_add] at raised
    refine ⟨c'.region.fullSize t, descended.steps.trans (Effect.charge ..).steps, raised, ?_,
      .inl ⟨live, explored.live_eq sound live, ?_⟩⟩
    · rw [total]
    · refine (Region.fullSize_congr ?_).symm
      rw [Region.get?_grow _ distinct, if_neg outside]

end Explored

/-- Exploring and charging one new target of a site. -/
theorem ensures_absorb (hk : c.region.forest.call? id = some k) (stack : CallStack)
    (stands : stack.Stands methods c.previouslyInlined) (height : methods.length = k.depth + 1) :
    Ensures (absorb env (env.config.maxDepth - k.depth) stack chain id t) c
      (fun _ c' => ∃ a, Absorbed env chain id t a c c')
      fun e c' => Grown env.config.maxDepth ∅ {t} c c' ∧ Stopped env (k.depth + 1) e c c' := by
  refine .bind ((ensures_exploreTarget sound pending hk (by omega)).and
    (ensures_descendTarget stack sound pending hk (by omega) height stands)) ?_
  rintro - c₁ ⟨explored, descended⟩
  rw [ensures_bind, ensures_site]
  refine ⟨fun s hs => ?_, fun h => ?_⟩
  · have live := Region.forest_live hs
    split
    next charged =>
      simp only [Bool.and_eq_true, List.contains_iff_mem, Bool.not_eq_true', List.isEmpty_eq_false_iff]
        at charged
      exact ensures_chargeStrokes sound pending enclosed explored hk descended
        (by rw [live]; exact charged.1) charged.2
    next done =>
      refine Absorbed.of_descended sound pending enclosed explored hk descended fun still => ?_
      rw [live] at still
      simpa [still] using done
  · have := explored.grown.keeps.call hk
    simp [Region.forest, h] at this

end One

/-- From `c` to `c'` the site, whose live targets were `old`, was given more. Of those that are live
now, `charged` were charged to the bodies around the site and to the total, and `waiting` were not
explored to the end. -/
structure Resumed (chain : List TargetId) (id : SiteId) (old charged waiting : List TargetId)
    (c c' : Compilation) : Prop where
  live : c'.region.forest.live id = old ++ charged ++ waiting
  raises : c.region.Raises c'.region chain (c'.region.totalSize charged)
  total : c'.totalSize = c.totalSize + c'.region.totalSize charged

section Resumed

variable {old charged waiting : List TargetId}

theorem Resumed.refl (live : c.region.forest.live id = old ++ waiting) :
    Resumed chain id old [] waiting c c where
  live := by simpa using live
  raises := fun e _ x hx => by simpa [Region.totalSize, x.raise_zero] using hx
  total := by simp [Region.totalSize]

variable (h : Resumed chain id old charged (t :: waiting) c c')
  (sound : c'.region.forest.Sound env.config.maxDepth)
  (enclosed : c'.region.forest.Encloses chain.reverse id)
include h sound

/-- The charged targets keep their sizes while the next one is explored. -/
theorem Resumed.totalSize_charged {S : Set SiteId} {T : Set TargetId}
    (kept : c'.region.Keeps c''.region S T)
    (others : ∀ u ∈ c'.region.forest.live id, u ∈ T → u = t) :
    c''.region.totalSize charged = c'.region.totalSize charged := by
  have distinct := sound.live_nodup id
  rw [h.live] at distinct
  refine congrArg List.sum (List.map_congr_left fun u hu => Region.fullSize_congr ?_)
  have live : u ∈ c'.region.forest.live id := by
    rw [h.live]
    simp [hu]
  obtain ⟨o, ho, -⟩ := sound.origin_of_live live
  obtain ⟨x, hx, -⟩ := Region.target_of_origin ho
  have other : u ∉ T := by
    intro hT
    obtain rfl := others u live hT
    have apart := List.disjoint_of_nodup_append distinct
    exact apart (List.mem_append_right _ hu) (List.mem_cons_self ..)
  rw [hx, kept.target hx other]

/-- A failure leaves the targets that were not reached uncharged. -/
theorem Resumed.stopped (grown : Grown env.config.maxDepth ∅ {t} c' c'')
    (total : c''.totalSize = c'.totalSize) (above : ∀ e ∈ chain, e ≠ t) :
    Resumed chain id old charged (t :: waiting) c c'' := by
  have sizes := h.totalSize_charged sound grown.keeps (fun u _ hu => hu)
  have site : c'.region.forest.call? id ≠ none := by
    have : t ∈ c'.region.forest.live id := by simp [h.live]
    obtain ⟨k, hk⟩ := sound.call_of_live this
    simp [hk]
  refine ⟨?_, ?_, ?_⟩
  · rw [grown.keeps.live site (Set.notMem_empty id), h.live]
  · have raised := h.raises.trans (grown.keeps.raises above)
    rwa [add_zero, ← sizes] at raised
  · rw [total, h.total, sizes]

include enclosed

/-- The next target is charged or given up. -/
theorem Resumed.next (kept : c'.region.Keeps c''.region {id} {u | u = t ∨ u ∈ chain})
    (absorbed : Absorbed env chain id t a c' c'') :
    ∃ charged', Resumed chain id old charged' waiting c c'' := by
  have distinct := sound.live_nodup id
  rw [h.live] at distinct
  have sizes := h.totalSize_charged sound kept fun u live hu =>
    hu.resolve_right fun he => enclosed.not_mem sound live (List.mem_reverse.2 he)
  have raised := h.raises.trans absorbed.raises
  rcases absorbed.outcome with ⟨-, live, size⟩ | ⟨-, live, rfl⟩
  · have sum : c''.region.totalSize (charged ++ [t]) = c'.region.totalSize charged + a := by
      rw [← sizes, size]
      simp [Region.totalSize]
    refine ⟨charged ++ [t], ?_, ?_, ?_⟩
    · rw [live, h.live]
      simp
    · rwa [sum]
    · rw [absorbed.total, h.total, sum, add_assoc]
  · refine ⟨charged, ?_, ?_, ?_⟩
    · have outside : t ∉ old ++ charged := fun ht =>
        List.disjoint_of_nodup_append distinct ht (List.mem_cons_self ..)
      rw [live, h.live, List.erase_append_right _ outside, List.erase_cons_head]
    · rwa [add_zero, ← sizes] at raised
    · rw [absorbed.total, h.total, ← sizes, add_zero]

end Resumed

section Added

variable (sound : c.region.forest.Sound env.config.maxDepth)
  (hk : c.region.forest.call? id = some k) (enclosed : c.region.forest.Encloses chain.reverse id)
  {old new : List TargetId} (live : c.region.forest.live id = old ++ new)
  (pending : ∀ t ∈ new, c.region.forest.Pending id t)
include sound hk enclosed live pending

/-- Going through all new targets of a site with something that explores one of them and charges it or
gives it up. -/
theorem ensures_resumeAll {f : TargetId → Exploration Unit}
    (each : ∀ {c₁ t}, c₁.region.forest.Sound env.config.maxDepth →
      c₁.region.forest.call? id = some k → c₁.region.forest.Encloses chain.reverse id →
      c₁.region.forest.Pending id t → c₁.previouslyInlined = c.previouslyInlined →
      Ensures (f t) c₁ (fun _ c₂ => Charged env chain id t c₁ c₂ ∧ ∃ a, Absorbed env chain id t a c₁ c₂)
        fun e c₂ => Grown env.config.maxDepth ∅ {t} c₁ c₂ ∧ Stopped env (k.depth + 1) e c₁ c₂) :
    Ensures (new.forM f) c
      (fun _ c' => Grown env.config.maxDepth {id} {u | u ∈ new ∨ u ∈ chain} c c' ∧ Steps env c c' ∧
        ∃ charged, Resumed chain id old charged [] c c')
      fun e c' => Grown env.config.maxDepth {id} {u | u ∈ new ∨ u ∈ chain} c c' ∧ Fails env c e c' ∧
        ∃ charged waiting, Resumed chain id old charged waiting c c' := by
  let inv (rest : List TargetId) (c' : Compilation) : Prop :=
    Grown env.config.maxDepth {id} {u | u ∈ new ∨ u ∈ chain} c c' ∧ Steps env c c' ∧
      c'.region.forest.Encloses chain.reverse id ∧
      (∀ t ∈ rest, t ∈ new ∧ c'.region.forest.Pending id t) ∧ rest.Nodup ∧
      ∃ charged, Resumed chain id old charged rest c c'
  have distinct : new.Nodup := by
    have all := sound.live_nodup id
    rw [live] at all
    exact (List.nodup_append'.1 all).2.1
  have start : inv new c :=
    ⟨⟨sound, .refl ..⟩, .refl, enclosed, fun t ht => ⟨ht, pending t ht⟩, distinct, [], .refl live⟩
  refine (Ensures.forM inv ?_ start).imp fun _ c' h => ⟨h.1, h.2.1, h.2.2.2.2.2⟩
  rintro t rest c₁ ⟨grown, steps, enclosed₁, pending₁, distinct₁, charged, resumed⟩
  obtain ⟨ht, pending_t⟩ := pending₁ t (List.mem_cons_self ..)
  obtain ⟨hrest, distinct₁⟩ := List.nodup_cons.1 distinct₁
  have hk₁ := grown.keeps.call hk
  refine (each grown.sound hk₁ enclosed₁ pending_t steps.previouslyInlined).mono ?_ ?_
  · rintro - c₂ ⟨one, a, absorbed⟩
    refine ⟨grown.trans one.grown (fun i hi _ => hi) ?_, steps.trans absorbed.steps, one.encloses,
      fun u hu => ?_, distinct₁, resumed.next grown.sound enclosed₁ one.grown.keeps absorbed⟩
    · rintro u (rfl | hu) _
      · exact .inl ht
      · exact .inr hu
    · obtain ⟨hu', pending_u⟩ := pending₁ u (List.mem_cons_of_mem _ hu)
      exact ⟨hu', one.pending (ne_of_mem_of_not_mem hu hrest) pending_u⟩
  · rintro e c₂ ⟨grown₂, stopped⟩
    refine ⟨grown.trans grown₂ (fun i hi _ => absurd hi (Set.notMem_empty i)) ?_,
      steps.fails stopped.fails, charged, t :: rest,
      resumed.stopped grown.sound grown₂ (stopped.total (Nat.succ_ne_zero _)) ?_⟩
    · rintro u rfl _
      exact .inl ht
    · rintro e he rfl
      exact enclosed₁.not_mem grown.sound pending_t.live (List.mem_reverse.2 he)

/-- Exploring and charging all new targets of a site. -/
theorem ensures_absorbAll (stack : CallStack) (stands : stack.Stands methods c.previouslyInlined)
    (height : methods.length = k.depth + 1) :
    Ensures (new.forM (absorb env (env.config.maxDepth - k.depth) stack chain id)) c
      (fun _ c' => Grown env.config.maxDepth {id} {u | u ∈ new ∨ u ∈ chain} c c' ∧ Steps env c c' ∧
        ∃ charged, Resumed chain id old charged [] c c')
      fun e c' => Grown env.config.maxDepth {id} {u | u ∈ new ∨ u ∈ chain} c c' ∧ Fails env c e c' ∧
        ∃ charged waiting, Resumed chain id old charged waiting c c' := by
  refine ensures_resumeAll sound hk enclosed live pending fun sound₁ hk₁ enclosed₁ pending_t earlier => ?_
  exact ((ensures_exploreCharge stack sound₁ hk₁ enclosed₁ pending_t).and
    (ensures_absorb sound₁ pending_t enclosed₁ hk₁ stack (by rw [earlier]; exact stands) height)).imp_fail
    fun _ _ h => h.2

end Added

/-- What was charged is charged from the moment before the site was resolved. -/
theorem Resumed.of_keeps {old charged waiting : List TargetId} {S : Set SiteId}
    (h : Resumed chain id old charged waiting c' c'') (kept : c.region.Keeps c'.region S ∅)
    (total : c'.totalSize = c.totalSize) : Resumed chain id old charged waiting c c'' where
  live := h.live
  raises := by
    have raised := (kept.raises fun e _ => Set.notMem_empty e).trans h.raises
    rwa [zero_add] at raised
  total := by rw [h.total, total]

/-- Revisiting a site inside `chain` adds targets to it, which are explored and charged, and changes
nothing else. -/
theorem ensures_revisitStrokes (sound : c.region.forest.Sound env.config.maxDepth) {s : CallSite}
    (hs : c.region.sites.get? id = some s) (hchain : c.region.enclosing? s = some chain) :
    Ensures (revisit env id) c
      (fun answer c' => Grown env.config.maxDepth {id} {u | u ∈ chain} c c' ∧ Steps env c c' ∧
        answer = !(c'.region.forest.live id).isEmpty ∧
        ∃ charged, Resumed chain id s.live charged [] c c')
      fun e c' => Grown env.config.maxDepth {id} {u | u ∈ chain} c c' ∧ Fails env c e c' ∧
        ∃ charged waiting, Resumed chain id s.live charged waiting c c' := by
  have hk := Region.forest_call hs
  obtain ⟨root, methods, frames⟩ := Region.frames_of_enclosing sound hs hchain
  have enclosed := frames.encloses
  have undeleted := enclosed.undeleted sound
  have height := frames.height sound hk
  refine ensures_revisit_within sound frames hs (by rwa [List.reverse_reverse]) fun stack stands => ?_
  rw [List.reverse_reverse]
  refine .bind (((ensures_resolveSite sound hk undeleted).and
    (ensures_resolveStroke stack sound hs undeleted)).imp_fail ?_) ?_
  · rintro e c₁ ⟨⟨⟨new, adds⟩, roots, total⟩, verify, refused, rfl⟩
    have live : (c.visit id s).region.forest.live id = s.live :=
      Region.forest_put_live (s := (c.scope s).visited) (by simp [hs])
    refine ⟨⟨adds.sound, adds.keeps.mono le_rfl (Set.empty_subset _)⟩,
      (Break.again hs verify refused).fails, [], [], ?_⟩
    exact (Resumed.refl (by simpa using live)).of_keeps adds.keeps total
  rintro - c₁ ⟨⟨⟨new, adds⟩, -, roots, total⟩, checked, hc₁⟩
  have stroke : Effect env c c₁ := hc₁ ▸ .again hs hchain checked stands.earlier
  rw [ensures_bind, ensures_site]
  refine ⟨fun s₁ hs₁ => ?_, fun gone => ?_⟩
  · have added := adds.new_live sound hs hs₁
    have live : c₁.region.forest.live id = s.live ++ new := by
      rw [adds.live, Region.forest_live hs]
    have outer : ∀ u ∈ {u | u ∈ new ∨ u ∈ chain}, c.region.forest.origin? u ≠ none →
        u ∈ {u | u ∈ chain} := by
      rintro u (hu | hu) there
      · exact absurd (adds.fresh u hu) there
      · exact hu
    have first : Grown env.config.maxDepth {id} {u | u ∈ chain} c c₁ :=
      ⟨adds.sound, adds.keeps.mono le_rfl (Set.empty_subset _)⟩
    rw [added]
    refine .bind ((ensures_absorbAll adds.sound (adds.keeps.call hk) (adds.encloses sound enclosed) live
      (fun u hu => adds.pending sound hu) stack (by rw [stroke.fixed.1]; exact stands) height).imp_fail
      ?_) ?_
    · rintro e c₂ ⟨grown, fails, charged, waiting, resumed⟩
      exact ⟨first.trans grown (fun i hi _ => hi) outer, stroke.steps.fails fails, charged, waiting,
        resumed.of_keeps adds.keeps total⟩
    · rintro - c₂ ⟨grown, steps, charged, resumed⟩
      rw [ensures_bind, ensures_site]
      refine ⟨fun s₂ hs₂ => ⟨first.trans grown (fun i hi _ => hi) outer, stroke.steps.trans steps, ?_,
        charged, resumed.of_keeps adds.keeps total⟩, fun gone => ?_⟩
      · rw [Region.forest_live hs₂]
      · have := grown.keeps.call (adds.keeps.call hk)
        simp [Region.forest, gone] at this
  · have := adds.keeps.call hk
    simp [Region.forest, gone] at this

end Exploration

end Inlining
