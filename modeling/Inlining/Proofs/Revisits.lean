import Inlining.Proofs.Bodies
import Inlining.Proofs.Frames

/-!
# Revisiting sites

A revisit adds targets to a site that may lie deep inside other bodies, and explores and charges
them one after the other. `Charged` is what holds after one of them: it was given up, or the
bodies around the site and the total have grown by its size. The way up from the site stays as
it was all the while, since neither exploring nor giving up a target touches anything above the
site.
-/

namespace Inlining

namespace Forest

variable {f : Forest} {depth : Nat} {limit total a : Size} {chain : List TargetId} {i : SiteId}

/-- A site at the end of a way up is not deleted. -/
theorem Encloses.undeleted (sound : f.Sound depth) (h : f.Encloses chain i) (u : TargetId) :
    i ∉ f.deleted u := by
  intro hu
  have owner : f.Owns u i := List.mem_append_right _ hu
  cases chain with
  | nil =>
    obtain ⟨k, hk, hd⟩ := h
    exact sound.not_owns_top hk hd owner
  | cons e rest =>
    obtain rfl := sound.owner_unique owner (List.mem_append_left _ h.1)
    exact List.disjoint_of_nodup_append (sound.owned_distinct u) h.1 hu

/-- A site with no body around it is one of a compiled method. -/
theorem Encloses.isTop_iff (sound : f.Sound depth) (h : f.Encloses chain i) :
    f.isTop i ↔ chain = [] := by
  cases chain with
  | nil =>
    obtain ⟨k, hk, hd⟩ := h
    simp [isTop, hk, hd]
  | cons e rest =>
    have := Accounts.not_isTop_of_owns sound (List.mem_append_left (f.deleted e) h.1)
    simp [this]

theorem Sound.enlargeAll (sound : f.Sound depth) (ts : List TargetId) :
    (f.enlargeAll a ts).Sound depth := by
  induction ts generalizing f with
  | nil => exact sound
  | cons t ts ih => exact ih sound.enlarge

theorem Encloses.enlargeAll (h : f.Encloses chain i) (ts : List TargetId) :
    (f.enlargeAll a ts).Encloses chain i := by
  induction ts generalizing f with
  | nil => exact h
  | cons t ts ih => exact ih h.enlarge

end Forest

/-- Enlarging targets changes nothing but their sizes. -/
theorem Region.Keeps.grow (r : Region) {ts : List TargetId}
    (hts : ∀ t ∈ ts, r.targets.get? t ≠ none) (size : Size) :
    r.Keeps (r.grow ts size) ∅ {u | u ∈ ts} := by
  obtain ⟨sizes, eq⟩ := Forest.Accounts.enlargeAll_eq (f := r.forest) (a := size) ts
  have forest := (Region.forest_grow_eq ts hts size).trans eq
  have others : ∀ {u}, u ∉ ts → (r.grow ts size).targets.get? u = r.targets.get? u := by
    intro u hu
    clear hts eq forest
    induction ts generalizing r with
    | nil => rfl
    | cons t ts ih =>
      rw [List.mem_cons, not_or] at hu
      refine (ih { r with targets := r.targets.modify t fun x => { x with fullSize := x.fullSize + size } }
        hu.2).trans ?_
      rw [Arena.get?_modify, if_neg (Ne.symm hu.1)]
  exact {
    site := fun hs _ => hs
    target := fun hx hu => (others hu).trans hx
    call := by
      rw [forest]
      exact id
    origin := by
      rw [forest]
      exact id
    owner := by
      rw [forest]
      exact fun ho _ => ho }

/-- The way up from a site is kept where no target on it and no site of these targets changes. -/
theorem Region.Keeps.encloses {r r' : Region} {S : Set SiteId} {T : Set TargetId} {depth : Nat}
    (h : r.Keeps r' S T) (sound : r.forest.Sound depth) {chain : List TargetId} {i : SiteId}
    (encloses : r.forest.Encloses chain i) (hT : ∀ e ∈ chain, e ∉ T)
    (hS : ∀ e ∈ chain, ∀ j ∈ S, e ∉ r.forest.live j) : r'.forest.Encloses chain i := by
  induction chain generalizing i with
  | nil =>
    obtain ⟨k, hk, hd⟩ := encloses
    exact ⟨k, h.call hk, hd⟩
  | cons e rest ih =>
    obtain ⟨hi, j, he, hj⟩ := encloses
    have there : r.forest.origin? e ≠ none := fun fresh => sound.not_live_of_fresh fresh he
    have sited : r.forest.call? j ≠ none := by
      obtain ⟨k, hk⟩ := sound.call_of_live he
      simp [hk]
    have elsewhere : j ∉ S := fun hj => hS e (List.mem_cons_self ..) j hj he
    refine ⟨?_, j, ?_, ih hj (fun x hx => hT x (List.mem_cons_of_mem _ hx))
      fun x hx => hS x (List.mem_cons_of_mem _ hx)⟩
    · rw [(h.callees there (hT e (List.mem_cons_self ..))).1]
      exact hi
    · rw [h.live sited elsewhere]
      exact he

/-- Adding targets to a site leaves the way up from it as it was. -/
theorem Region.Adds.encloses {r r' : Region} {depth : Nat} {id : SiteId} {new chain : List TargetId}
    (adds : r.Adds depth id r' new) (sound : r.forest.Sound depth)
    (enclosed : r.forest.Encloses chain id) : r'.forest.Encloses chain id := by
  refine adds.keeps.encloses sound enclosed (fun e _ => Set.notMem_empty e) ?_
  rintro e he j rfl live
  exact enclosed.not_mem sound live he

namespace Exploration

variable {env : Environment} {c c' c'' : Compilation} {id : SiteId} {t : TargetId} {k : Call}
  {chain : List TargetId}

/-- From `c` to `c'` a new target of a site inside `chain` was explored. It was given up, or it is
charged to the targets in `chain` and to the budget. -/
structure Charged (env : Environment) (chain : List TargetId) (id : SiteId) (t : TargetId)
    (c c' : Compilation) : Prop where
  grown : Grown env.config.maxDepth {id} {u | u = t ∨ u ∈ chain} c c'
  encloses : c'.region.forest.Encloses chain.reverse id
  pending : ∀ {u}, u ≠ t → c.region.forest.Pending id u → c'.region.forest.Pending id u
  accounts : ∀ {hidden unsettled floating}, t ∉ hidden → (∀ e ∈ chain, e ∉ hidden) →
    c.Accounts env.program env.config (t :: hidden) (t :: unsettled) floating →
      c'.Accounts env.program env.config hidden unsettled floating

/-- A target that is live was not taken from its site. -/
theorem Explored.live_eq (explored : Explored env id t c c')
    (sound : c.region.forest.Sound env.config.maxDepth) (live : t ∈ c'.region.forest.live id) :
    c'.region.forest.live id = c.region.forest.live id := by
  apply explored.live.resolve_right
  intro erased
  rw [erased] at live
  exact absurd live (sound.live_nodup id).not_mem_erase

section Charge

variable (sound : c.region.forest.Sound env.config.maxDepth)
  (pending : c.region.forest.Pending id t)
  (enclosed : c.region.forest.Encloses chain.reverse id) (explored : Explored env id t c c')
include sound pending enclosed explored

/-- Exploring a new target leaves the way up from its site as it was. -/
theorem Explored.encloses : c'.region.forest.Encloses chain.reverse id := by
  refine explored.grown.keeps.encloses sound enclosed ?_ ?_
  · rintro e he rfl
    exact enclosed.not_mem sound pending.live he
  · rintro e he j rfl live
    exact enclosed.not_mem sound live he

/-- A target that was given up, or that is not inside another body, is not charged any more. -/
theorem Explored.charged (done : t ∈ c'.region.forest.live id → chain = []) :
    Charged env chain id t c c' where
  grown := explored.grown.mono le_rfl fun u hu => .inl hu
  encloses := explored.encloses sound pending enclosed
  pending := fun other hu => explored.pending sound hu other
  accounts := by
    intro hidden unsettled floating fresh _ h
    refine ((explored.accounts fresh h).resolve_left fun waiting => ?_).2
    have enclosed := explored.encloses sound pending enclosed
    have top := (enclosed.isTop_iff explored.grown.sound).2 (by simp [done waiting.live])
    simp [waiting.nested] at top

/-- Enlarging the bodies around a target charges it. -/
theorem Explored.accepted
    (fits : ∀ e ∈ chain, c'.region.forest.fullSize e + c'.region.forest.fullSize t ≤
      env.config.maxCallSize)
    (waiting : ∀ {hidden unsettled floating}, t ∉ hidden →
      c.Accounts env.program env.config (t :: hidden) (t :: unsettled) floating →
        Uncharged env id t hidden unsettled floating c') :
    Charged env chain id t c { c' with
      region := c'.region.grow chain (c'.region.fullSize t)
      totalSize := c'.totalSize + c'.region.fullSize t } := by
  have enclosed' := explored.encloses sound pending enclosed
  have there : ∀ e ∈ chain, c'.region.targets.get? e ≠ none := by
    intro e he gone
    obtain ⟨j, _, _, live, _⟩ := enclosed'.live_above explored.grown.sound e (by simpa using he)
    refine explored.grown.sound.not_live_of_fresh (t := e) ?_ live
    simp [Region.forest, gone]
  have forest := Region.forest_grow_eq chain there (c'.region.fullSize t)
  have kept := Region.Keeps.grow c'.region there (c'.region.fullSize t)
  exact {
    grown := by
      refine ⟨?_, (explored.grown.keeps.mono le_rfl fun u hu => .inl hu).trans kept
        (fun i hi _ => absurd hi (Set.notMem_empty i)) fun u hu _ => .inr hu⟩
      rw [forest]
      exact explored.grown.sound.enlargeAll chain
    encloses := by
      rw [forest]
      exact enclosed'.enlargeAll chain
    pending := by
      intro u other hu
      obtain ⟨live, callees, deleted⟩ := explored.pending sound hu other
      obtain ⟨sizes, eq⟩ := Forest.Accounts.enlargeAll_eq (f := c'.region.forest)
        (a := c'.region.fullSize t) chain
      rw [forest, eq]
      exact ⟨live, callees, deleted⟩
    accounts := by
      intro hidden unsettled floating fresh shown h
      obtain ⟨live, _, accounts, settled, alive⟩ := waiting fresh h
      have charged := accounts.acceptWithin explored.grown.sound live fresh settled alive enclosed'
        (fun e he hidden => ?_) fun e he => fits e (List.mem_reverse.1 he)
      · unfold Compilation.Accounts
        rw [forest]
        rw [Forest.enlargeAll_reverse] at charged
        exact charged
      · rcases List.mem_cons.1 hidden with rfl | hidden
        · exact enclosed'.not_mem explored.grown.sound live he
        · exact shown e (List.mem_reverse.1 he) hidden }

section Nested

variable (live : t ∈ c'.region.forest.live id) (nested : chain ≠ [])
include live nested

/-- A target that is live inside another body after it was explored is left to be charged. -/
theorem Explored.uncharged {hidden unsettled : List TargetId} {floating : List SiteId}
    (fresh : t ∉ hidden)
    (h : c.Accounts env.program env.config (t :: hidden) (t :: unsettled) floating) :
    Uncharged env id t hidden unsettled floating c' := by
  have top := (explored.encloses sound pending enclosed).isTop_iff explored.grown.sound
  apply (explored.accounts fresh h).resolve_right
  intro settled
  have := settled.1 live
  simp [nested] at top
  simp [top] at this

/-- Giving up a target that was explored inside another body. -/
theorem ensures_giveUp (reason : FailureReason) {fail : Fault → Compilation → Prop} :
    Ensures (abandon env id t reason) c'
      (fun _ c'' => Explored env id t c c'' ∧ t ∉ c''.region.forest.live id) fail :=
  ensures_abandonNew sound pending explored.grown (explored.live_eq sound live)
    (fun fresh h => (explored.uncharged sound pending enclosed live nested fresh h).accounts) reason

/-- Charging a target that is live after it was explored. -/
theorem ensures_charge :
    Ensures (charge env chain id t) c' (fun _ => Charged env chain id t c)
      fun _ => Grown env.config.maxDepth {id} {u | u = t ∨ u ∈ chain} c := by
  have given_up (reason : FailureReason) : Ensures (abandon env id t reason) c'
      (fun _ => Charged env chain id t c)
      fun _ => Grown env.config.maxDepth {id} {u | u = t ∨ u ∈ chain} c :=
    (ensures_giveUp sound pending enclosed explored live nested reason).imp
      fun _ _ h => h.1.charged sound pending enclosed fun live => absurd live h.2
  rw [charge, ensures_get_bind]
  dsimp only
  split
  · exact given_up _
  next small =>
    split
    · exact given_up _
    next fits =>
      rw [ensures_modify]
      refine explored.accepted sound pending enclosed (fun e he => ?_) fun fresh h =>
        explored.uncharged sound pending enclosed live nested fresh h
      simp only [List.any_eq_true, decide_eq_true_eq, not_exists, not_and] at small
      exact Nat.not_lt.1 (small e he)

end Nested

end Charge

section Added

variable (stack : CallStack) (sound : c.region.forest.Sound env.config.maxDepth)
  (hk : c.region.forest.call? id = some k) (enclosed : c.region.forest.Encloses chain.reverse id)
include sound hk enclosed

/-- Exploring and charging one new target of a site. -/
theorem ensures_exploreCharge (pending : c.region.forest.Pending id t) :
    Ensures (absorb env (env.config.maxDepth - k.depth) stack chain id t) c
      (fun _ => Charged env chain id t c)
      fun _ => Grown env.config.maxDepth {id} {u | u = t ∨ u ∈ chain} c := by
  refine .bind ((ensures_exploreTarget sound pending hk (by omega)).imp_fail
    fun _ _ h => h.mono (Set.empty_subset {id}) fun u hu => .inl hu) ?_
  rintro - c₁ explored
  rw [ensures_bind, ensures_site]
  refine ⟨fun s hs => ?_, fun h => ?_⟩
  · have live := Region.forest_live hs
    split
    next charged =>
      simp only [Bool.and_eq_true, List.contains_iff_mem, Bool.not_eq_true', List.isEmpty_eq_false_iff]
        at charged
      exact ensures_charge sound pending enclosed explored (by rw [live]; exact charged.1) charged.2
    next done =>
      apply explored.charged sound pending enclosed
      intro still
      rw [live] at still
      simpa [still] using done
  · have := explored.grown.keeps.call hk
    simp [Region.forest, h] at this

/-- Exploring and charging all new targets of a site. -/
theorem ensures_exploreAdded {new : List TargetId}
    (pending : ∀ t ∈ new, c.region.forest.Pending id t) (distinct : new.Nodup) :
    Ensures (new.forM (absorb env (env.config.maxDepth - k.depth) stack chain id)) c
      (fun _ c' => Grown env.config.maxDepth {id} {u | u ∈ new ∨ u ∈ chain} c c' ∧
        (c.Accounts env.program env.config new new [] →
          c'.Accounts env.program env.config [] [] []))
      fun _ => Grown env.config.maxDepth {id} {u | u ∈ new ∨ u ∈ chain} c := by
  let inv (rest : List TargetId) (c' : Compilation) : Prop :=
    Grown env.config.maxDepth {id} {u | u ∈ new ∨ u ∈ chain} c c' ∧
      c'.region.forest.Encloses chain.reverse id ∧
      (∀ t ∈ rest, t ∈ new ∧ c'.region.forest.Pending id t) ∧ rest.Nodup ∧
      (c.Accounts env.program env.config new new [] →
        c'.Accounts env.program env.config rest rest [])
  have start : inv new c :=
    ⟨⟨sound, .refl ..⟩, enclosed, fun t ht => ⟨ht, pending t ht⟩, distinct, fun h => h⟩
  refine (Ensures.forM inv ?_ start).imp fun _ c' h => ⟨h.1, h.2.2.2.2⟩
  rintro t rest c₁ ⟨grown, enclosed₁, pending₁, distinct₁, accounts⟩
  obtain ⟨ht, pending_t⟩ := pending₁ t (List.mem_cons_self ..)
  obtain ⟨hrest, distinct₁⟩ := List.nodup_cons.1 distinct₁
  have one : ∀ u ∈ {u | u = t ∨ u ∈ chain}, c.region.forest.origin? u ≠ none →
      u ∈ {u | u ∈ new ∨ u ∈ chain} := by
    rintro u (rfl | hu) _
    · exact .inl ht
    · exact .inr hu
  refine (ensures_exploreCharge stack grown.sound (grown.keeps.call hk) enclosed₁ pending_t).mono ?_
    fun _ c₂ grown' => grown.trans grown' (fun i hi _ => hi) one
  rintro - c₂ charged
  refine ⟨grown.trans charged.grown (fun i hi _ => hi) one, charged.encloses, fun u hu => ?_,
    distinct₁, fun h => charged.accounts hrest (fun e he hidden => ?_) (accounts h)⟩
  · obtain ⟨hu', pending_u⟩ := pending₁ u (List.mem_cons_of_mem _ hu)
    exact ⟨hu', charged.pending (ne_of_mem_of_not_mem hu hrest) pending_u⟩
  · -- a target that is still to be explored lies on the site itself
    have live := (pending₁ e (List.mem_cons_of_mem _ hidden)).2.live
    exact enclosed₁.not_mem grown.sound live (List.mem_reverse.2 he)

end Added

/-- Revisiting a site keeps the region sound and the accounts in order. -/
theorem ensures_revisit (sound : c.region.forest.Sound env.config.maxDepth) :
    Ensures (revisit env id) c
      (fun _ c' => c'.region.forest.Sound env.config.maxDepth ∧
        (c.Accounts env.program env.config [] [] [] → c'.Accounts env.program env.config [] [] []))
      fun _ c' => c'.region.forest.Sound env.config.maxDepth := by
  cases hs : c.region.sites.get? id with
  | none => exact .of_error (run_revisit_of_none hs) sound
  | some s =>
    cases hchain : c.region.enclosing? s with
    | none => exact .of_ok (run_revisit_of_detached hs hchain) ⟨sound, fun h => h⟩
    | some chain =>
      have hk := Region.forest_call hs
      obtain ⟨root, methods, frames⟩ := Region.frames_of_enclosing sound hs hchain
      have enclosed := frames.encloses
      refine ensures_revisit_within sound frames hs (by rwa [List.reverse_reverse]) fun stack _ => ?_
      rw [List.reverse_reverse]
      refine .bind ((ensures_resolveSite sound hk (enclosed.undeleted sound)).imp_fail ?_) ?_
      · rintro _ c₁ ⟨⟨new, adds⟩, -⟩
        exact adds.sound
      rintro - c₁ ⟨⟨new, adds⟩, -, roots, total⟩
      rw [ensures_bind, ensures_site]
      refine ⟨fun s₁ hs₁ => ?_, fun _ => adds.sound⟩
      have added := adds.new_live sound hs hs₁
      rw [added]
      refine .bind ((ensures_exploreAdded stack adds.sound (adds.keeps.call hk)
        (adds.encloses sound enclosed) (fun u hu => adds.pending sound hu) adds.nodup).imp_fail
        fun _ _ h => h.sound) ?_
      rintro - c₂ ⟨grown, accounts⟩
      rw [ensures_bind, ensures_site]
      refine ⟨fun _ _ => ⟨grown.sound, fun h => accounts ?_⟩, fun _ => grown.sound⟩
      unfold Compilation.Accounts at h ⊢
      rw [roots, total]
      exact (adds.accounts h).congr (by simp) (by simp)

end Exploration

end Inlining
