import Inlining.Proofs.Cuts
import Inlining.Proofs.Enclosure

/-!
# Giving up targets

Pruning goes down from a target through its callees and their live targets. It stays inside
every part of the region that is closed under these two steps (`Forest.Closed`,
`Region.Prunes`), leaves the target without callees, and keeps the accounts of a target that is
hidden. Giving up a target removes it after that; it needs no longer be hidden then.
-/

namespace Inlining

/-- Sites and targets that hold what lies below each of them. -/
structure Forest.Closed (f : Forest) (S : Set SiteId) (T : Set TargetId) : Prop where
  sites : ∀ {t i}, t ∈ T → i ∈ f.callees t → i ∈ S
  targets : ∀ {i t}, i ∈ S → t ∈ f.live i → t ∈ T

/-- `r'` is `r` with some targets and callees given up, all of them among `S` and `T`. -/
structure Region.Prunes (r r' : Region) (S : Set SiteId) (T : Set TargetId) : Prop where
  site : ∀ {i}, i ∉ S → r'.sites.get? i = r.sites.get? i
  target : ∀ {t}, t ∉ T → r'.targets.get? t = r.targets.get? t
  call : r'.forest.call? = r.forest.call?
  origin : r'.forest.origin? = r.forest.origin?
  owns : ∀ {t i}, r'.forest.Owns t i ↔ r.forest.Owns t i
  live : ∀ i, r'.forest.live i ⊆ r.forest.live i
  callees : ∀ t, r'.forest.callees t ⊆ r.forest.callees t

namespace Region

variable {r r' r'' : Region} {S S' : Set SiteId} {T T' : Set TargetId}

theorem Prunes.refl (r : Region) (S : Set SiteId) (T : Set TargetId) : r.Prunes r S T :=
  ⟨fun _ => rfl, fun _ => rfl, rfl, rfl, .rfl, fun _ _ h => h, fun _ _ h => h⟩

theorem Prunes.trans (h : r.Prunes r' S T) (h' : r'.Prunes r'' S T) : r.Prunes r'' S T where
  site hi := (h'.site hi).trans (h.site hi)
  target ht := (h'.target ht).trans (h.target ht)
  call := h'.call.trans h.call
  origin := h'.origin.trans h.origin
  owns := h'.owns.trans h.owns
  live i := List.Subset.trans (h'.live i) (h.live i)
  callees t := List.Subset.trans (h'.callees t) (h.callees t)

theorem Prunes.mono (h : r.Prunes r' S T) (hS : S ⊆ S') (hT : T ⊆ T') : r.Prunes r' S' T' :=
  { h with
    site := fun hi => h.site fun hi' => hi (hS hi')
    target := fun ht => h.target fun ht' => ht (hT ht') }

theorem Prunes.closed (h : r.Prunes r' S T) (closed : r.forest.Closed S' T') :
    r'.forest.Closed S' T' where
  sites ht hi := closed.sites ht (h.callees _ hi)
  targets hi ht := closed.targets hi (h.live _ ht)

theorem live_congr {i : SiteId} (h : r'.sites.get? i = r.sites.get? i) :
    r'.forest.live i = r.forest.live i := by
  simp [forest, liveTargets, h]

theorem callees_congr {t : TargetId} (h : r'.targets.get? t = r.targets.get? t) :
    r'.forest.callees t = r.forest.callees t := by
  simp [forest, h]

end Region

/-- What does not lie below sites of a depth: the sites further down, and the targets that are on
sites of the depth or further down. -/
theorem Forest.Sound.closed_below {f : Forest} {depth : Nat} (sound : f.Sound depth) (d : Nat) :
    f.Closed {i | ∀ k, f.call? i = some k → d < k.depth}
      {t | ∀ i k, f.home? t = some i → f.call? i = some k → d ≤ k.depth} where
  sites := by
    intro t i ht hi k hk
    obtain ⟨o, k₁, k₂, ho, h₁, h₂, hd, _⟩ := sound.owned (List.mem_append_left _ hi)
    obtain rfl := Option.some.inj (h₂.symm.trans hk)
    have := ht o.site k₁ (by simp [home?, ho]) h₁
    omega
  targets := by
    intro i t hi ht j k hj hk
    obtain rfl := Option.some.inj ((sound.home ht).symm.trans hj)
    exact (hi k hk).le

/-- The accounts of a compilation. -/
def Compilation.Accounts (c : Compilation) (p : Program) (config : Configuration)
    (hidden unsettled : List TargetId) (floating : List SiteId) : Prop :=
  c.region.forest.Accounts p config.maxCallSize c.roots c.totalSize hidden unsettled floating

namespace Exploration

/-- From `c` to `c'`, some of what lies below the targets `ts` was given up. -/
structure Pruned (depth : Nat) (ts : List TargetId) (c c' : Compilation) : Prop where
  sound : c'.region.forest.Sound depth
  frame : ∀ {S T}, c.region.forest.Closed S T → (∀ t ∈ ts, t ∈ T) → c.region.Prunes c'.region S T

/-- The accounts with the targets `ts` hidden stayed as they were. -/
def Balanced (p : Program) (config : Configuration) (ts : List TargetId) (c c' : Compilation) : Prop :=
  ∀ {hidden unsettled floating}, (∀ t ∈ ts, t ∈ hidden) →
    c.Accounts p config hidden unsettled floating → c'.Accounts p config hidden unsettled floating

variable {env : Environment} {c c' c'' : Compilation} {depth : Nat} {t : TargetId} {i id : SiteId}
  {ts us : List TargetId} {reason : FailureReason}

theorem Pruned.refl (sound : c.region.forest.Sound depth) : Pruned depth ts c c :=
  ⟨sound, fun _ _ => .refl ..⟩

theorem Pruned.all (h : Pruned depth ts c c') : c.region.Prunes c'.region Set.univ Set.univ :=
  h.frame ⟨fun _ _ => trivial, fun _ _ => trivial⟩ fun _ _ => trivial

theorem Pruned.trans (h : Pruned depth ts c c') (h' : Pruned depth us c' c'')
    (below : ∀ {S T}, c'.region.forest.Closed S T → (∀ t ∈ ts, t ∈ T) → ∀ u ∈ us, u ∈ T) :
    Pruned depth ts c c'' where
  sound := h'.sound
  frame closed hts := by
    have first := h.frame closed hts
    exact first.trans (h'.frame (first.closed closed) (below (first.closed closed) hts))

/-- A target and its callee lie above what is pruned below the callee. -/
theorem Pruned.above (sound : c.region.forest.Sound depth) (owner : c.region.forest.Owns t i)
    (live : us = c.region.forest.live i) (h : Pruned depth us c c') :
    c'.region.sites.get? i = c.region.sites.get? i ∧
      c'.region.targets.get? t = c.region.targets.get? t := by
  obtain ⟨o, k, ki, ho, hk, hki, deeper, -⟩ := sound.owned owner
  have below := h.frame (sound.closed_below ki.depth) (by
    intro u hu j kj hj hkj
    rw [live] at hu
    obtain rfl := Option.some.inj ((sound.home hu).symm.trans hj)
    obtain rfl := Option.some.inj (hki.symm.trans hkj)
    exact Nat.le_refl _)
  constructor
  · exact below.site fun h => Nat.lt_irrefl _ (h ki hki)
  · apply below.target
    intro h
    have := h o.site k (by simp [Forest.home?, ho]) hk
    omega

theorem put_scope {s : CallSite} (hs : c.region.sites.get? i = some s) :
    c.region.put i (c.scope s) = c.region :=
  congrArg (·.region) (c.update_scope hs)

/-- Removing all targets of a site. -/
theorem ensures_removeAll {fail : Fault → Compilation → Prop} (there : c.region.sites.get? i ≠ none) :
    Ensures (changeSite i fun s => do return (← s.removeAll reason).setFailureReason reason) c
      (fun _ c' => c'.region.forest = c.region.forest.retireAll i ∧
        c.region.Prunes c'.region {i} {u | u ∈ c.region.forest.live i} ∧
        c'.roots = c.roots ∧ c'.totalSize = c.totalSize) fail := by
  refine ensures_changeSite.2 ⟨fun s hs => ⟨fun scope h => ?_, fun e h => ?_⟩, fun h => absurd h there⟩
  · obtain ⟨removed, hremoved, h⟩ := bind_eq_ok.1 h
    cases h
    have all : removed = SiteScope.retireAll { c.scope s with site := { s with live := [] } } s.live reason := by
      simpa [SiteScope.removeAll, SiteScope.removeFrom, Compilation.scope, eq_comm] using hremoved
    have forest : (c.region.put i (removed.setFailureReason reason)).forest =
        c.region.forest.retireAll i := by
      have same : (c.region.put i (removed.setFailureReason reason)).forest =
          (c.region.put i removed).forest := Region.forest_put_congr rfl fun _ => rfl
      rw [same, Region.forest_put_removeAll there hremoved, put_scope hs]
    have live := Region.forest_live hs
    refine ⟨forest, ?_, rfl, rfl⟩
    show c.region.Prunes (c.region.put i (removed.setFailureReason reason)) _ _
    exact {
      site := by
        intro j hj
        have : i ≠ j := fun e => hj e.symm
        rw [Region.get?_put_site there, if_neg this]
      target := by
        intro u hu
        change u ∉ c.region.forest.live i at hu
        rw [live] at hu
        rw [all]
        exact (SiteScope.get?_retireAll ..).trans (if_neg hu)
      call := by rw [forest]; rfl
      origin := by rw [forest]; rfl
      owns := by rw [forest]; rfl
      live := by
        intro j
        rw [forest, Forest.retireAll]
        simp only [Function.update_apply]
        split <;> simp
      callees := by
        intro u
        rw [forest]
        exact List.Subset.refl _ }
  · simp [SiteScope.removeAll, SiteScope.removeFrom] at h

/-- Dropping a callee of a target. -/
theorem ensures_removeCallee {fail : Fault → Compilation → Prop}
    (hi : i ∈ c.region.forest.callees t) :
    Ensures (do
      let pruned ← ofExcept ((← target t).removeCallee t i)
      modifyTarget t fun _ => pruned) c
      (fun _ c' => c'.region.forest = c.region.forest.dropCallee t i ∧
        c.region.Prunes c'.region ∅ {t} ∧ c'.roots = c.roots ∧ c'.totalSize = c.totalSize) fail := by
  rw [ensures_bind, ensures_target]
  refine ⟨fun x hx => ?_, fun h => ?_⟩
  · rw [ensures_bind, ensures_ofExcept]
    refine ⟨fun y hy => ?_, fun e he => ?_⟩
    · rw [ensures_modifyTarget]
      have forest := (Region.forest_dropCallee hx hy).2
      refine ⟨forest, ?_, rfl, rfl⟩
      exact {
        site := fun _ => rfl
        target := by
          intro u hu
          have : t ≠ u := fun e => hu e.symm
          rw [Arena.get?_modify, if_neg this]
        call := by rw [forest]; rfl
        origin := by rw [forest]; rfl
        owns := by rw [forest]; exact Forest.owns_dropCallee hi
        live := by rw [forest]; exact fun _ => List.Subset.refl _
        callees := by
          intro u
          rw [forest, Forest.dropCallee]
          simp only [Function.update_apply]
          split
          · subst u; exact List.erase_subset
          · exact List.Subset.refl _ }
    · have : i ∈ x.callees := by simpa [Region.forest, hx] using hi
      simp [CallTarget.removeCallee, this] at he
  · simp [Region.forest, h] at hi

section Callees

variable {levels : Nat} {fail : Fault → Compilation → Prop}
  (inner : ∀ {c u o k}, c.region.forest.Sound env.config.maxDepth →
    c.region.forest.origin? u = some o → c.region.forest.call? o.site = some k →
    k.depth < env.config.maxDepth → env.config.maxDepth ≤ k.depth + levels →
    Ensures (pruneCallees reason levels u) c
      (fun _ c' => Pruned env.config.maxDepth [u] c c' ∧
        Balanced env.program env.config [u] c c' ∧ c'.region.forest.callees u = []) fail)
include inner

/-- Pruning all live targets of a site. -/
theorem ensures_pruneLive (sound : c.region.forest.Sound env.config.maxDepth) {k : Call}
    (hk : c.region.forest.call? i = some k) (reach : env.config.maxDepth ≤ k.depth + levels)
    (live : ∀ u ∈ us, u ∈ c.region.forest.live i) :
    Ensures (us.forM (pruneCallees reason levels)) c
      (fun _ c' => Pruned env.config.maxDepth us c c' ∧ Balanced env.program env.config us c c' ∧
        ∀ u ∈ us, c'.region.forest.callees u = []) fail := by
  let inv (rest : List TargetId) (c' : Compilation) : Prop :=
    (∀ u ∈ rest, u ∈ us) ∧ Pruned env.config.maxDepth us c c' ∧
      Balanced env.program env.config us c c' ∧
      ∀ u ∈ us, u ∉ rest → c'.region.forest.callees u = []
  have start : inv us c := ⟨fun _ h => h, .refl sound, fun _ h => h, fun u hu hu' => absurd hu hu'⟩
  refine (Ensures.forM inv ?_ start).imp ?_
  · rintro u rest c₁ ⟨rest_us, pruned, balanced, bare⟩
    have hu : u ∈ us := rest_us u (List.mem_cons_self ..)
    have within := sound.depth_lt hk (live u hu)
    obtain ⟨o, ho, home⟩ := sound.origin_of_live (live u hu)
    have below : ∀ {S : Set SiteId} {T : Set TargetId}, c₁.region.forest.Closed S T →
        (∀ u ∈ us, u ∈ T) → ∀ v ∈ [u], v ∈ T := by
      intro S T _ hT v hv
      rw [List.mem_singleton.1 hv]
      exact hT u hu
    refine (inner (u := u) (o := o) pruned.sound (by rw [pruned.all.origin]; exact ho)
      (by rw [pruned.all.call, home]; exact hk) within reach).imp ?_
    rintro _ c₂ ⟨pruned', balanced', bare'⟩
    refine ⟨fun v hv => rest_us v (List.mem_cons_of_mem _ hv), pruned.trans pruned' below,
      fun hts h => balanced' (fun v hv => ?_) (balanced hts h), fun v hv hv' => ?_⟩
    · rw [List.mem_singleton.1 hv]
      exact hts u hu
    · by_cases e : v = u
      · exact e ▸ bare'
      · have shrunk := pruned'.all.callees v
        rw [bare v hv (by simp [e, hv'])] at shrunk
        exact List.subset_nil.1 shrunk
  · exact fun _ c' h => ⟨h.2.1, h.2.2.1, fun u hu => h.2.2.2 u hu List.not_mem_nil⟩

/-- Pruning one callee of a target and dropping it. -/
theorem ensures_pruneCallee (sound : c.region.forest.Sound env.config.maxDepth) {o : Origin}
    {k : Call} (ho : c.region.forest.origin? t = some o)
    (hk : c.region.forest.call? o.site = some k)
    (reach : env.config.maxDepth ≤ k.depth + (levels + 1)) (hi : i ∈ c.region.forest.callees t) :
    Ensures (do
      (← site i).live.forM (pruneCallees reason levels)
      changeSite i fun s => do return (← s.removeAll reason).setFailureReason reason
      let pruned ← ofExcept ((← target t).removeCallee t i)
      modifyTarget t fun _ => pruned) c
      (fun _ c' => Pruned env.config.maxDepth [t] c c' ∧
        Balanced env.program env.config [t] c c' ∧
        c'.region.forest.callees t = (c.region.forest.callees t).erase i) fail := by
  have owner : c.region.forest.Owns t i := List.mem_append_left _ hi
  obtain ⟨o', k', ki, ho', hk', hki, hd, -⟩ := sound.owned owner
  obtain rfl := Option.some.inj (ho.symm.trans ho')
  obtain rfl := Option.some.inj (hk.symm.trans hk')
  -- everything below the target lies in the live targets of its callee
  have below : ∀ {S : Set SiteId} {T : Set TargetId}, c.region.forest.Closed S T →
      (∀ u ∈ [t], u ∈ T) → i ∈ S ∧ ∀ u ∈ c.region.forest.live i, u ∈ T := by
    intro S T closed ht
    have hS := closed.sites (ht t (List.mem_singleton_self t)) hi
    exact ⟨hS, fun u hu => closed.targets hS hu⟩
  rw [ensures_bind, ensures_site]
  refine ⟨fun s hs => ?_, fun h => by simp [Region.forest, h] at hki⟩
  have live := Region.forest_live hs
  rw [live] at below
  refine .bind (ensures_pruneLive inner sound hki (by omega)
    fun u (hu : u ∈ s.live) => by rw [live]; exact hu) ?_
  rintro - c₁ ⟨pruned, balanced, bare⟩
  obtain ⟨site, tgt⟩ := pruned.above sound owner live.symm
  have live₁ : c₁.region.forest.live i = s.live := (Region.live_congr site).trans live
  have hi₁ : i ∈ c₁.region.forest.callees t := by rw [Region.callees_congr tgt]; exact hi
  refine .bind (ensures_removeAll (by simp [site, hs])) ?_
  rintro - c₂ ⟨forest₂, prunes₂, roots₂, total₂⟩
  refine (ensures_removeCallee (by rw [forest₂]; exact hi₁)).imp ?_
  rintro - c₃ ⟨forest₃, prunes₃, roots₃, total₃⟩
  rw [forest₂] at forest₃
  refine ⟨⟨?_, fun {S T} closed ht => ?_⟩, fun {hidden unsettled floating} ht h => ?_, ?_⟩
  · rw [forest₃]
    have := pruned.sound.retireAll (i := i) fun u hu => bare u (live₁ ▸ hu)
    exact this.dropCallee hi₁ (by simp [Forest.retireAll])
  · obtain ⟨hS, hT⟩ := below closed ht
    have first := pruned.frame closed hT
    refine first.trans ((prunes₂.mono ?_ ?_).trans (prunes₃.mono ?_ ?_))
    · exact Set.singleton_subset_iff.2 hS
    · intro u hu
      exact hT u (live₁ ▸ hu)
    · exact Set.empty_subset _
    · exact Set.singleton_subset_iff.2 (ht t (List.mem_singleton_self t))
  · have hid : t ∈ hidden := ht t (List.mem_singleton_self t)
    have apart := Forest.Accounts.hideAll sound h (fun u (hu : u ∈ s.live) => live ▸ hu) owner hid
    have kept := balanced (fun u hu => List.mem_append_left _ hu) apart
    unfold Compilation.Accounts at kept ⊢
    rw [← live₁] at kept
    rw [forest₃, roots₃, total₃, roots₂, total₂]
    exact kept.drop pruned.sound hid hi₁ fun u hu => bare u (live₁ ▸ hu)
  · rw [forest₃]
    simp [Forest.retireAll, Forest.dropCallee, Region.callees_congr tgt]

end Callees

/-- What `pruneCallees` does to a target and below it; it never fails. -/
theorem ensures_pruneCallees {levels : Nat} {o : Origin} {k : Call}
    {fail : Fault → Compilation → Prop}
    (sound : c.region.forest.Sound env.config.maxDepth) (ho : c.region.forest.origin? t = some o)
    (hk : c.region.forest.call? o.site = some k) (within : k.depth < env.config.maxDepth)
    (reach : env.config.maxDepth ≤ k.depth + levels) :
    Ensures (pruneCallees reason levels t) c
      (fun _ c' => Pruned env.config.maxDepth [t] c c' ∧
        Balanced env.program env.config [t] c c' ∧ c'.region.forest.callees t = []) fail := by
  induction levels generalizing c t o k with
  | zero => omega
  | succ levels ih =>
    rw [pruneCallees, ensures_bind, ensures_target]
    refine ⟨fun x hx => ?_, fun h => by simp [Region.forest, h] at ho⟩
    have callees := (Region.forest_callees hx).1
    let inv (rest : List SiteId) (c' : Compilation) : Prop :=
      Pruned env.config.maxDepth [t] c c' ∧ Balanced env.program env.config [t] c c' ∧
        c'.region.forest.callees t = rest
    refine Ensures.forM inv ?_ ⟨.refl sound, fun _ h => h, callees⟩
    rintro i rest c₁ ⟨pruned, balanced, hrest⟩
    refine (ensures_pruneCallee ih pruned.sound (by rw [pruned.all.origin]; exact ho)
      (by rw [pruned.all.call]; exact hk) reach (by simp [hrest])).imp ?_
    rintro _ c₂ ⟨pruned', balanced', callees'⟩
    refine ⟨pruned.trans pruned' fun _ h => h, fun hts h => balanced' hts (balanced hts h), ?_⟩
    rw [callees', hrest, List.erase_cons_head]

theorem checkTargetCounts_eq_ok (sound : c.region.forest.Sound depth) {s : CallSite}
    (hs : c.region.sites.get? id = some s) : s.checkTargetCounts = .ok () := by
  have counts : s.totalAdded = s.live.length + s.removed.length := by
    simpa [Region.forest, Region.liveTargets, hs] using sound.totalAdded id
  simp [CallSite.checkTargetCounts, counts]

/-- Removing a live target from its site. -/
theorem ensures_remove {fail : Fault → Compilation → Prop} (live : t ∈ c.region.forest.live id) :
    Ensures (changeSite id fun s => do
      let s ← s.remove t reason
      return if s.site.live.isEmpty then s.setFailureReason reason else s) c
      (fun _ c' => c'.region.forest = c.region.forest.retire id t ∧
        c.region.Prunes c'.region {id} {t} ∧ c'.roots = c.roots ∧ c'.totalSize = c.totalSize) fail := by
  have there : c.region.sites.get? id ≠ none := by
    intro h
    simp [Region.forest, Region.liveTargets, h] at live
  refine ensures_changeSite.2 ⟨fun s hs => ⟨fun scope h => ?_, fun e h => ?_⟩, fun h => absurd h there⟩
  · obtain ⟨removed, hremoved, h⟩ := bind_eq_ok.1 h
    obtain ⟨-, retired⟩ := Region.forest_put_remove (r := c.region) there hremoved
    rw [put_scope hs] at retired
    have targets : ∀ {u}, u ≠ t → scope.targets.get? u = c.region.targets.get? u := by
      intro u hu
      obtain ⟨-, hremoved⟩ := unit_bind_eq_ok.1 hremoved
      cases hremoved
      have other : u ∉ [t] := by simpa using hu
      have same := (SiteScope.get?_retireAll { c.scope s with site := { s with live := s.live.erase t } }
        [t] reason u).trans (if_neg other)
      cases h
      split <;> exact same
    have forest : (c.region.put id scope).forest = c.region.forest.retire id t := by
      rw [← retired]
      cases h
      split
      · exact Region.forest_put_congr rfl fun _ => rfl
      · rfl
    refine ⟨forest, ?_, rfl, rfl⟩
    show c.region.Prunes (c.region.put id scope) _ _
    exact {
      site := by
        intro j hj
        have : id ≠ j := fun e => hj e.symm
        rw [Region.get?_put_site there, if_neg this]
      target := fun hu => targets hu
      call := by rw [forest]; rfl
      origin := by rw [forest]; rfl
      owns := by rw [forest]; rfl
      live := by
        intro j
        rw [forest, Forest.retire]
        simp only [Function.update_apply]
        split
        · subst j; exact List.erase_subset
        · exact List.Subset.refl _
      callees := by
        intro u
        rw [forest]
        exact List.Subset.refl _ }
  · rw [Region.forest_live hs] at live
    have checked : (c.scope s).checkLive t = .ok () := by
      simp [SiteScope.checkLive, Compilation.scope, live]
    simp [SiteScope.remove, checked, bind, Except.bind, pure, Except.pure] at h

/-- Removing a live target without callees. -/
theorem ensures_removeTarget {fail : Fault → Compilation → Prop}
    (sound : c.region.forest.Sound depth) (live : t ∈ c.region.forest.live id)
    (bare : c.region.forest.callees t = []) :
    Ensures (removeTarget env id t reason) c
      (fun _ c' => c'.region.forest = c.region.forest.retire id t ∧
        c.region.Prunes c'.region {id} {t} ∧ c'.roots = c.roots ∧ c'.totalSize = c.totalSize) fail := by
  refine .bind (ensures_remove live) fun _ c₁ removed => ?_
  split
  · have sound₁ : c₁.region.forest.Sound depth := by
      rw [removed.1]
      exact sound.retire live bare
    rw [ensures_bind, ensures_site]
    refine ⟨fun s hs => ensures_ofExcept.2 ⟨fun _ _ => removed, fun e he => ?_⟩, fun h => ?_⟩
    · rw [checkTargetCounts_eq_ok sound₁ hs] at he
      cases he
    · obtain ⟨k, hk⟩ := sound.call_of_live live
      have : c₁.region.forest.call? id = some k := by rw [removed.2.1.call, hk]
      simp [Region.forest, h] at this
  · exact removed

/-- Giving up a target with everything below it; it never fails. -/
theorem ensures_abandon (sound : c.region.forest.Sound env.config.maxDepth)
    (live : t ∈ c.region.forest.live id) {fail : Fault → Compilation → Prop} :
    Ensures (abandon env id t reason) c
      (fun _ c' => c'.region.forest.Sound env.config.maxDepth ∧
        (∀ {S T}, c.region.forest.Closed S T → t ∈ T → c.region.Prunes c'.region (insert id S) T) ∧
        c'.region.forest.live id = (c.region.forest.live id).erase t ∧
        ∀ {hidden unsettled floating},
          c.Accounts env.program env.config (t :: hidden) unsettled floating →
            c'.Accounts env.program env.config hidden unsettled floating) fail := by
  obtain ⟨k, hk, within⟩ := sound.within (sound.home live)
  obtain ⟨o, ho, home⟩ := sound.origin_of_live live
  refine .bind (ensures_pruneCallees sound ho (by rw [home]; exact hk) within (by omega)) ?_
  rintro - c₁ ⟨pruned, balanced, bare⟩
  -- what is pruned lies below the site of the target
  have above := pruned.frame (sound.closed_below k.depth) (by
    intro u hu j kj hj hkj
    rw [List.mem_singleton.1 hu, sound.home live] at hj
    obtain rfl := Option.some.inj hj
    obtain rfl := Option.some.inj (hk.symm.trans hkj)
    exact Nat.le_refl _)
  have live₁ : c₁.region.forest.live id = c.region.forest.live id :=
    Region.live_congr (above.site fun h => Nat.lt_irrefl _ (h k hk))
  rw [← live₁] at live
  refine (ensures_removeTarget pruned.sound live bare).imp ?_
  rintro - c₂ ⟨forest, prunes, roots, total⟩
  refine ⟨?_, fun {S T} closed hT => ?_, ?_, fun h => ?_⟩
  · rw [forest]
    exact pruned.sound.retire live bare
  · have first := (pruned.frame closed (by simpa using hT)).mono (Set.subset_insert id S) le_rfl
    exact first.trans (prunes.mono (Set.singleton_subset_iff.2 (Set.mem_insert id S))
      (Set.singleton_subset_iff.2 hT))
  · simp [forest, Forest.retire, live₁]
  · have kept := balanced (fun u hu => by rw [List.mem_singleton.1 hu]; exact List.mem_cons_self ..) h
    unfold Compilation.Accounts at kept ⊢
    rw [forest, roots, total]
    exact kept.retire pruned.sound live bare

end Exploration

end Inlining
