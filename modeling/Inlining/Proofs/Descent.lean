import Inlining.Proofs.Calls
import Inlining.Proofs.Exhaustion

/-!
# Exploring bodies, stroke by stroke

The recursion over bodies once more, now for what it does and not for what it leaves: it is a
sequence of strokes (`Steps`), it fails in none but the two ways of a `Break`, it leaves every body
complete below the target that it was explored for, and it spends the size of a target of a
compiled method that it accepts, and nothing else. `Surveyed` is that of a body and `Descended` that of
a target; `Stopped` is the case of a failure.
-/

namespace Inlining

namespace Exploration

variable {env : Environment} {c c' c'' : Compilation} {depth : Nat} {id : SiteId} {t : TargetId}
  {k : Call} {methods : List MethodId} {found found' : List SiteId} {e : Fault}

/-- From `c` to `c'` sites at `depth` were explored inside frames of `methods`. -/
structure Surveyed (env : Environment) (methods : List MethodId) (depth : Nat) (found : List SiteId)
    (c c' : Compilation) : Prop where
  steps : Steps env c c'
  complete : ∀ i ∈ found, c'.region.forest.Complete env c.previouslyInlined methods i
  total : depth ≠ 0 → c'.totalSize = c.totalSize

/-- From `c` to `c'` a new target of a site at `depth` was explored inside frames of `methods`. -/
structure Descended (env : Environment) (methods : List MethodId) (depth : Nat) (id : SiteId)
    (t : TargetId) (c c' : Compilation) : Prop where
  steps : Steps env c c'
  complete : t ∈ c'.region.forest.live id →
    c'.region.forest.CompleteBelow env c.previouslyInlined methods t
  total : c'.totalSize =
    if depth = 0 ∧ t ∈ c'.region.forest.live id then c.totalSize + c'.region.forest.fullSize t
    else c.totalSize

/-- From `c` on, exploring sites at `depth` failed in `c'`. -/
structure Stopped (env : Environment) (depth : Nat) (e : Fault) (c c' : Compilation) : Prop where
  fails : Fails env c e c'
  total : depth ≠ 0 → c'.totalSize = c.totalSize

theorem Stopped.after (h : Stopped env depth e c' c'') (steps : Steps env c c')
    (total : depth ≠ 0 → c'.totalSize = c.totalSize) : Stopped env depth e c c'' :=
  ⟨steps.fails h.fails, fun nested => (h.total nested).trans (total nested)⟩

theorem Surveyed.refl : Surveyed env methods depth [] c c := ⟨.refl, nofun, fun _ => rfl⟩

theorem Surveyed.trans (h : Surveyed env methods depth found c c')
    (sound : c'.region.forest.Sound env.config.maxDepth)
    (h' : Surveyed env methods depth found' c' c'') (kept : c'.region.Keeps c''.region ∅ ∅) :
    Surveyed env methods depth (found ++ found') c c'' where
  steps := h.steps.trans h'.steps
  complete := by
    intro i hi
    rcases List.mem_append.1 hi with hi | hi
    · exact kept.complete sound (List.Subset.refl _) (h.complete i hi)
    · rw [← h.steps.previouslyInlined]
      exact h'.complete i hi
  total nested := (h'.total nested).trans (h.total nested)

section Body

variable {levels : Nat} (reach : env.config.maxDepth ≤ depth + levels)
  (descends : ∀ {c id t k} stack, c.region.forest.Sound env.config.maxDepth →
    c.region.forest.Pending id t → c.region.forest.call? id = some k → k.depth = depth →
    stack.Stands methods c.previouslyInlined →
    Ensures (exploreTarget env levels stack id t) c (fun _ => Descended env methods depth id t c)
      fun e => Stopped env (depth + 1) e c)
include reach descends

/-- Exploring all targets of a site. -/
theorem ensures_descendNew (stack : CallStack) (stands : stack.Stands methods c.previouslyInlined)
    (sound : c.region.forest.Sound env.config.maxDepth) (hk : c.region.forest.call? id = some k)
    (hd : k.depth = depth) {new : List TargetId} (pending : ∀ t ∈ new, c.region.forest.Pending id t)
    (distinct : new.Nodup) (all : ∀ t ∈ c.region.forest.live id, t ∈ new) :
    Ensures (new.forM (exploreTarget env levels stack id)) c
      (fun _ c' => Steps env c c' ∧ c.region.Keeps c'.region {id} {t | t ∈ new} ∧
        (∀ t ∈ c'.region.forest.live id,
          c'.region.forest.CompleteBelow env c.previouslyInlined methods t) ∧
        (depth ≠ 0 → c'.totalSize = c.totalSize))
      fun e => Stopped env depth e c := by
  let inv (rest : List TargetId) (c' : Compilation) : Prop :=
    Steps env c c' ∧ Grown env.config.maxDepth {id} {t | t ∈ new} c c' ∧
      (∀ t ∈ rest, t ∈ new ∧ c'.region.forest.Pending id t) ∧ rest.Nodup ∧
      (∀ t ∈ c'.region.forest.live id, t ∈ new) ∧
      (∀ t ∈ c'.region.forest.live id, t ∉ rest →
        c'.region.forest.CompleteBelow env c.previouslyInlined methods t) ∧
      (depth ≠ 0 → c'.totalSize = c.totalSize)
  have start : inv new c := ⟨.refl, ⟨sound, .refl ..⟩, fun t ht => ⟨ht, pending t ht⟩, distinct, all,
    fun t ht old => absurd (all t ht) old, fun _ => rfl⟩
  refine (Ensures.forM inv ?_ start).imp ?_
  · rintro t rest c₁ ⟨steps, grown, pending₁, distinct₁, all₁, complete, total⟩
    obtain ⟨ht, pending_t⟩ := pending₁ t (List.mem_cons_self ..)
    obtain ⟨hrest, distinct₁⟩ := List.nodup_cons.1 distinct₁
    have hk₁ := grown.keeps.call hk
    have earlier := steps.previouslyInlined
    refine ((ensures_exploreTarget grown.sound pending_t hk₁ (by omega)).and
      (descends stack grown.sound pending_t hk₁ hd (by rw [earlier]; exact stands))).mono ?_ ?_
    · rintro - c₂ ⟨explored, descended⟩
      have shrinks : ∀ u ∈ c₂.region.forest.live id, u ∈ c₁.region.forest.live id := by
        intro u hu
        rcases explored.live with live | live
        · exact live ▸ hu
        · exact List.mem_of_mem_erase (live ▸ hu)
      have one : ∀ u ∈ ({t} : Set TargetId), c.region.forest.origin? u ≠ none → u ∈ {t | t ∈ new} := by
        rintro u rfl _
        exact ht
      refine ⟨steps.trans descended.steps, grown.trans explored.grown (fun i hi _ => hi) one,
        fun u hu => ?_, distinct₁, fun u hu => all₁ u (shrinks u hu), fun u hu hu' => ?_,
        fun nested => ?_⟩
      · obtain ⟨hu', pending_u⟩ := pending₁ u (List.mem_cons_of_mem _ hu)
        exact ⟨hu', explored.pending grown.sound pending_u (ne_of_mem_of_not_mem hu hrest)⟩
      · by_cases same : u = t
        · subst u
          rw [← earlier]
          exact descended.complete hu
        · -- the target that was explored lies on the same site, not below it
          have below := complete u (shrinks u hu) (by simp [same, hu'])
          have kept := explored.grown.keeps.preserves
            (S := {i | ∀ k', c₁.region.forest.call? i = some k' → k.depth < k'.depth}) (T := {t}ᶜ)
            (by rintro i hi _ rfl; exact Nat.lt_irrefl _ (hi k hk₁)) fun _ hv _ => hv
          refine kept.completeBelow ?_ same grown.sound (List.Subset.refl _) hk₁ (shrinks u hu) below
          rintro v hv rfl
          exact Nat.lt_irrefl _ (hv id k (grown.sound.home pending_t.live) hk₁)
      · rw [descended.total, if_neg fun h => nested h.1, total nested]
    · rintro e c₂ ⟨-, stopped⟩
      exact ⟨steps.fails stopped.fails, fun nested =>
        (stopped.total (Nat.succ_ne_zero _)).trans (total nested)⟩
  · rintro - c₁ ⟨steps, grown, -, -, -, complete, total⟩
    exact ⟨steps, grown.keeps, fun t ht => complete t ht List.not_mem_nil, total⟩

/-- Exploring one call of a body. -/
theorem ensures_surveyCall {method : MethodId} {outer : List MethodId} (hm : methods = method :: outer)
    (stack : CallStack) (stands : stack.Stands methods c.previouslyInlined)
    (sound : c.region.forest.Sound env.config.maxDepth) {call : CallInstruction}
    (hcall : call ∈ env.program.instructionsOf method) (shallow : depth ≤ env.config.maxDepth) :
    Ensures (exploreCall env (exploreTarget env levels) stack method depth call) c
      (fun id => Surveyed env methods depth [id] c) fun e => Stopped env depth e c := by
  subst hm
  generalize hk : Call.ofInstruction c.region.sites.next method depth call = k
  have kid : k.id = c.region.sites.next := by rw [← hk]; rfl
  have source : k = .ofInstruction c.region.sites.next k.caller k.depth call := by rw [← hk]; rfl
  have caller : k.caller = method := by rw [← hk]; rfl
  have lies : k.depth = depth := by rw [← hk]; rfl
  rw [← caller] at hcall
  rcases run_exploreCall stands sound hk.symm with
    ⟨checked, stack', stands', run⟩ | ⟨verify, e, refused, run⟩
  · have stroke : Effect env c (c.opened env stack' k) :=
      .call source hcall (lies ▸ shallow) checked stands'.earlier
    have opened := opened_opened sound kid stack'
    have exhausted : (c.opened env stack' k).region.forest.Exhausted env _ _ k.id k :=
      Region.exhausted_resolved (c.get?_withSite kid) opened.grown.sound stands' checked
    have total : (c.opened env stack' k).totalSize = c.totalSize := rfl
    refine .congr (run _) ?_
    generalize c.opened env stack' k = c₁ at *
    have earlier := stroke.fixed.1
    refine .bind ((ensures_descendNew reach descends stack' (by rw [earlier]; exact stands')
      opened.grown.sound opened.call lies opened.pending (opened.grown.sound.live_nodup k.id)
      (fun t ht => ht)).imp_fail fun e c₂ stopped => stopped.after stroke.steps fun _ => total) ?_
    rintro - c₂ ⟨steps, kept, complete, total₂⟩
    refine ⟨stroke.steps.trans steps, fun i hi => ?_, fun nested => (total₂ nested).trans total⟩
    obtain rfl := List.mem_singleton.1 hi
    rw [earlier] at complete
    have still := (kept.preserves (S := ∅) (T := ∅) (fun _ h => absurd h (Set.notMem_empty _))
      fun _ h => absurd h (Set.notMem_empty _)).exhausted (List.Subset.refl _) exhausted
    exact .mk still fun t o ht ho j hj => complete t ht o ho j hj
  · have failed : Break env c e (c.refused k) := .call source hcall (lies ▸ shallow) verify refused
    exact .of_error (run _) ⟨failed.fails, fun _ => rfl⟩

/-- Exploring the calls of a body one after the other. -/
theorem ensures_surveyBody {method : MethodId} {outer : List MethodId} (hm : methods = method :: outer)
    (stack : CallStack) (stands : stack.Stands methods c.previouslyInlined)
    (sound : c.region.forest.Sound env.config.maxDepth) (shallow : depth ≤ env.config.maxDepth) :
    Ensures (exploreBody env (exploreTarget env levels) stack method depth) c
      (fun found c' => Walked env method depth (env.program.instructionsOf method) found c c' ∧
        Surveyed env methods depth found c c')
      fun e => Stopped env depth e c := by
  let inv (rest : List CallInstruction) (done : List SiteId) (c' : Compilation) : Prop :=
    ∃ before, before ++ rest = env.program.instructionsOf method ∧
      Walked env method depth before done c c' ∧ Surveyed env methods depth done c c'
  refine (Ensures.mapM inv ?_ ⟨[], rfl, .refl sound, .refl⟩).imp ?_
  · rintro call rest done c₁ ⟨before, parts, walked, surveyed⟩
    have hcall : call ∈ env.program.instructionsOf method := by simp [← parts]
    have surveys := ensures_surveyCall reach descends hm stack
      (by rw [surveyed.steps.previouslyInlined]; exact stands) walked.grown.sound hcall shallow
    have explores {c id t k} (stack : CallStack) (sound : c.region.forest.Sound env.config.maxDepth)
        (pending : c.region.forest.Pending id t) (hk : c.region.forest.call? id = some k)
        (hd : k.depth = depth) : Ensures (exploreTarget env levels stack id t) c _ _ :=
      ensures_exploreTarget sound pending hk (by omega)
    have walks := ensures_exploreCall explores stack walked.grown.sound method call
    refine (walks.and surveys).mono ?_ ?_
    · rintro id c₂ ⟨one, one'⟩
      exact ⟨before ++ [call], by simpa using parts, walked.trans one,
        surveyed.trans walked.grown.sound one' one.grown.keeps⟩
    · rintro e c₂ ⟨-, stopped⟩
      exact stopped.after surveyed.steps surveyed.total
  · rintro found c₁ ⟨before, parts, walked, surveyed⟩
    rw [← parts, List.append_nil]
    exact ⟨walked, surveyed⟩

end Body

/-- A target that outgrew its limits is given up for good. -/
theorem overflow?_terminal {total fullSize : Size} {reason : FailureReason}
    (h : overflow? env total depth fullSize = some reason) : reason.isTerminal = true := by
  unfold overflow? at h
  split at h
  · cases h; rfl
  · split at h <;> cases h
    rfl

/-- Strokes that spend nothing. -/
def Frugal (env : Environment) (c c' : Compilation) : Prop :=
  Steps env c c' ∧ c'.totalSize = c.totalSize

/-- Giving something up for good is a stroke that spends nothing. -/
theorem Frugal.cut {reason : FailureReason} (terminal : reason.isTerminal = true)
    (h : Frugal env c c') (cut : Cut reason c' c'') : Frugal env c c'' :=
  ⟨h.1.trans (Effect.cut terminal cut).steps, cut.totalSize.trans h.2⟩

/-- A target that was given up is not live, so nothing is said of its body. -/
theorem Descended.of_gone (h : Frugal env c c') (gone : t ∉ c'.region.forest.live id) :
    Descended env methods depth id t c c' :=
  ⟨h.1, fun live => absurd live gone, by rw [if_neg fun h => gone h.2, h.2]⟩

theorem Descended.after (h : Descended env methods depth id t c' c'') (before : Frugal env c c') :
    Descended env methods depth id t c c'' where
  steps := before.1.trans h.steps
  complete live := before.1.previouslyInlined ▸ h.complete live
  total := before.2 ▸ h.total

section Target

variable (sound : c.region.forest.Sound env.config.maxDepth)
  (pending : c.region.forest.Pending id t)
include sound pending

/-- Removing a new target whose method may not be inlined. -/
theorem ensures_descendUninlinable {fail : Fault → Compilation → Prop} :
    Ensures (removeTarget env id t .uninlineable) c
      (fun _ => Descended env methods depth id t c) fail := by
  refine ((ensures_removeTarget sound pending.live pending.callees).and_kept
    (maintains_removeTarget (P := Frugal env c) (Frugal.cut rfl) c ⟨.refl, rfl⟩)).imp ?_
  rintro - c₁ ⟨⟨forest, -⟩, frugal⟩
  refine .of_gone frugal ?_
  rw [forest]
  simpa [Forest.retire] using (sound.live_nodup id).not_mem_erase

variable (hk : c.region.forest.call? id = some k)
include hk

/-- The body of a target that was just settled is complete. -/
theorem Surveyed.completeBelow {m : MethodId} (grown : Grown env.config.maxDepth ∅ ∅ c c')
    {x : CallTarget} (hx : c'.region.targets.get? t = some x) (hm : x.method = m)
    (surveyed : Surveyed env (m :: methods) (k.depth + 1) found c c')
    (deeper : ∀ j ∈ found, ∃ k', c'.region.forest.call? j = some k' ∧ k'.depth = k.depth + 1) :
    (c'.region.settle t found).forest.CompleteBelow env c.previouslyInlined methods t := by
  have there : c.region.forest.origin? t ≠ none :=
    fun fresh => sound.not_live_of_fresh fresh pending.live
  have none_before := (grown.keeps.callees there (Set.notMem_empty t)).1.trans pending.callees
  have live : t ∈ c'.region.forest.live id := by
    rw [grown.keeps.live (by simp [hk]) (Set.notMem_empty id)]
    exact pending.live
  rw [Region.forest_settle c'.region hx found]
  intro o ho j hj
  have method : o.method = m := by
    have : c'.region.forest.origin? t = some o := ho
    rw [Region.forest_origin hx] at this
    rw [← Option.some.inj this, ← hm]
  have hj : j ∈ c'.region.forest.alive found := by
    simpa [Forest.settle, none_before] using hj
  have mem := (Forest.mem_alive.1 hj).1
  rw [method]
  -- settling changes the callees of the target only, which lies above its own body
  have kept : c'.region.forest.Preserves (c'.region.forest.settle t x.size found)
      {i | ∀ k', c'.region.forest.call? i = some k' → k.depth < k'.depth}
      {u | ∀ i k', c'.region.forest.home? u = some i → c'.region.forest.call? i = some k' →
        k.depth < k'.depth} := by
    refine ⟨fun h => h, fun h => h, fun _ _ => rfl, fun {u} hu _ => ?_⟩
    have other : u ≠ t := by
      rintro rfl
      exact Nat.lt_irrefl _ (hu id k (grown.sound.home live) (grown.keeps.call hk))
    simp [Forest.settle, other]
  refine kept.complete grown.sound (grown.sound.closed_deeper k.depth) (List.Subset.refl _)
    (fun k' hk' => ?_) (surveyed.complete j mem)
  obtain ⟨k₁, hk₁, lower⟩ := deeper j mem
  obtain rfl := Option.some.inj (hk₁.symm.trans hk')
  omega

/-- A target whose body was explored is accepted or given up. -/
theorem ensures_descendFinish {inner : CallStack} {o : Origin}
    (ho : c.region.forest.origin? t = some o) (inside : inner.At o.method (k.depth + 1))
    (walked : Walked env o.method (k.depth + 1) (env.program.instructionsOf o.method) found c c')
    (surveyed : Surveyed env (o.method :: methods) (k.depth + 1) found c c')
    {fail : Fault → Compilation → Prop} :
    Ensures (finish env inner id t (k.depth + 1) found) c'
      (fun _ => Descended env methods k.depth id t c) fail := by
  have total : c'.totalSize = c.totalSize := surveyed.total (Nat.succ_ne_zero _)
  have sited : c.region.forest.call? o.site = some k := by
    rw [sound.site_of_live ho pending.live, hk]
  obtain ⟨x, hx, same⟩ := Region.target_of_origin (walked.grown.keeps.origin ho)
  have complete := surveyed.completeBelow sound pending hk walked.grown hx
    (congrArg Origin.method same) fun j hj =>
      (walked.call j hj).elim fun _ hk => ⟨_, hk, rfl⟩
  have measured := Walked.measured sound pending ho sited walked
  have settled := surveyed.steps.trans (Effect.settle t found).steps
  have left (committed : Bool) : Steps env c (c'.left t found o.method (k.depth + 1) committed) :=
    settled.trans (Effect.leave o.method (k.depth + 1) committed).steps
  refine ensures_finish inside (fun reason large => ?_) (fun _ one => ?_) fun _ nested => ?_
  · have measured := measured (c'.journal.record (.framePopped o.method (k.depth + 1) false))
    refine ((ensures_abandonNew sound pending measured.grown measured.live
      (fun _ h => (measured.accounts h).1) reason).and_kept
      (maintains_abandon (P := Frugal env c) (Frugal.cut (overflow?_terminal large)) _
        ⟨left false, total⟩)).imp ?_
    rintro - c₂ ⟨⟨-, gone⟩, frugal⟩
    exact .of_gone frugal gone
  · have measured := measured (c'.journal.record (.framePopped o.method (k.depth + 1) true))
    have live : t ∈ (c'.region.settle t found).forest.live id := measured.live ▸ pending.live
    have charged : Descended env methods k.depth id t c { c'.left t found o.method (k.depth + 1) true with
        totalSize := c'.totalSize + (c'.region.settle t found).fullSize t } := by
      refine ⟨(left true).trans (Effect.spend _).steps, fun _ => complete, ?_⟩
      rw [if_pos ⟨by omega, live⟩, ← total]
      rfl
    exact ensures_checkCallees charged measured.grown.sound (measured.grown.keeps.there ho)
  · have measured := measured (c'.journal.record (.framePopped o.method (k.depth + 1) true))
    have uncharged : Descended env methods k.depth id t c (c'.left t found o.method (k.depth + 1) true) :=
      ⟨left true, fun _ => complete, by rw [if_neg fun h => nested (by omega)]; exact total⟩
    exact ensures_checkCallees uncharged measured.grown.sound (measured.grown.keeps.there ho)

end Target

/-- Exploring a new target of a site that lies at most `levels` above the depth limit, inside frames
of `methods`. -/
theorem ensures_descendTarget {levels : Nat} (stack : CallStack)
    (sound : c.region.forest.Sound env.config.maxDepth) (pending : c.region.forest.Pending id t)
    (hk : c.region.forest.call? id = some k) (reach : env.config.maxDepth ≤ k.depth + levels)
    (height : methods.length = k.depth + 1) (stands : stack.Stands methods c.previouslyInlined) :
    Ensures (exploreTarget env levels stack id t) c
      (fun _ => Descended env methods k.depth id t c) fun e => Stopped env (k.depth + 1) e c := by
  have within := sound.depth_lt hk pending.live
  induction levels generalizing c stack id t k methods with
  | zero => omega
  | succ levels ih =>
    obtain ⟨o, ho, -⟩ := sound.origin_of_live pending.live
    obtain ⟨x, hx, -⟩ := Region.target_of_origin ho
    cases inlinable : env.program.isInlinable x.method with
    | false =>
      refine .congr (run_exploreTarget_uninlinable hk hx inlinable stack levels) ?_
      have numbered : Frugal env c (c.numbered t) := ⟨Effect.number.steps, rfl⟩
      rw [← c.forest_numbered t] at sound pending
      exact (ensures_descendUninlinable sound pending).imp fun _ _ h => h.after numbered
    | true =>
      obtain ⟨inner, stands', inside, run⟩ := run_exploreTarget hk hx inlinable stands height
      refine .congr (run levels) ?_
      have entered : Frugal env c (c.entered env t x.method (k.depth + 1)) :=
        ⟨Compilation.steps_entered hx (fun i => sound.not_removed pending.live) _, rfl⟩
      have ho := Region.forest_origin hx
      rw [← c.forest_entered env t x.method (k.depth + 1)] at sound pending hk ho
      rw [← entered.1.previouslyInlined] at stands'
      refine .bind ((ensures_surveyBody (by omega) (fun {c id t k'} stack sound pending hk' deeper
        stands => deeper ▸ ih stack sound pending hk' (by omega) (by simp [height, deeper]) stands
          (sound.depth_lt hk' pending.live)) rfl inner stands' sound within).imp_fail fun e c₁ stopped =>
          stopped.after entered.1 fun _ => entered.2) ?_
      rintro found c₁ ⟨walked, surveyed⟩
      exact (ensures_descendFinish sound pending hk ho inside walked surveyed).imp
        fun _ _ h => h.after entered

end Exploration

end Inlining
