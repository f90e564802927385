import Inlining.Proofs.Accounts
import Inlining.Proofs.Pruning

/-!
# Growing regions

`Region.Keeps` compares a region with a later one: outside of some sites and targets everything
that was there is as it was, what was known of the others stays, and no site that was there has
got an owner. It is what a part of an exploration may rely on across another part.

Resolving a site adds targets at the end of its live ones, and nothing is known of their bodies
yet (`ensures_resolveSite`).
-/

namespace Inlining

/-- `r'` grew out of `r`: of what is in `r`, only the sites `S` and the targets `T` changed. -/
structure Region.Keeps (r r' : Region) (S : Set SiteId) (T : Set TargetId) : Prop where
  site : ∀ {i s}, r.sites.get? i = some s → i ∉ S → r'.sites.get? i = some s
  target : ∀ {t x}, r.targets.get? t = some x → t ∉ T → r'.targets.get? t = some x
  call : ∀ {i k}, r.forest.call? i = some k → r'.forest.call? i = some k
  origin : ∀ {t o}, r.forest.origin? t = some o → r'.forest.origin? t = some o
  owner : ∀ {t i}, r'.forest.Owns t i → r.forest.call? i ≠ none → r.forest.Owns t i

namespace Region

variable {r r' r'' : Region} {S S' : Set SiteId} {T T' : Set TargetId} {i : SiteId} {t : TargetId}

theorem Keeps.refl (r : Region) (S : Set SiteId) (T : Set TargetId) : r.Keeps r S T :=
  ⟨fun h _ => h, fun h _ => h, fun h => h, fun h => h, fun h _ => h⟩

theorem Keeps.mono (h : r.Keeps r' S T) (hS : S ⊆ S') (hT : T ⊆ T') : r.Keeps r' S' T' :=
  { h with
    site := fun hs hi => h.site hs fun hi' => hi (hS hi')
    target := fun hx ht => h.target hx fun ht' => ht (hT ht') }

/-- Of the changes in the second part only those to what was there before the first part count. -/
theorem Keeps.trans (h : r.Keeps r' S T) (h' : r'.Keeps r'' S' T')
    (hS : ∀ i ∈ S', r.forest.call? i ≠ none → i ∈ S)
    (hT : ∀ t ∈ T', r.forest.origin? t ≠ none → t ∈ T) : r.Keeps r'' S T where
  site := by
    intro i s hs hi
    refine h'.site (h.site hs hi) fun hi' => hi (hS i hi' ?_)
    simp [forest, hs]
  target := by
    intro t x hx ht
    refine h'.target (h.target hx ht) fun ht' => ht (hT t ht' ?_)
    simp [forest, hx]
  call hk := h'.call (h.call hk)
  origin ho := h'.origin (h.origin ho)
  owner := by
    intro t i ho hi
    obtain ⟨k, hk⟩ := Option.ne_none_iff_exists'.1 hi
    exact h.owner (h'.owner ho (by simp [h.call hk])) hi

theorem Prunes.keeps (h : r.Prunes r' S T) : r.Keeps r' S T where
  site hs hi := (h.site hi).trans hs
  target hx ht := (h.target ht).trans hx
  call hk := by rw [h.call]; exact hk
  origin ho := by rw [h.origin]; exact ho
  owner ho _ := h.owns.1 ho

/-- A change that the forest does not see. -/
theorem Keeps.of_forest (forest : r'.forest = r.forest)
    (site : ∀ {i s}, r.sites.get? i = some s → i ∉ S → r'.sites.get? i = some s)
    (target : ∀ {t x}, r.targets.get? t = some x → t ∉ T → r'.targets.get? t = some x) :
    r.Keeps r' S T :=
  ⟨site, target, fun h => by rw [forest]; exact h, fun h => by rw [forest]; exact h,
    fun h _ => by rwa [forest] at h⟩

theorem Keeps.modify_target {f : CallTarget → CallTarget} (h : ∀ x, (f x).node = x.node) :
    r.Keeps { r with targets := r.targets.modify t f } ∅ {t} := by
  refine .of_forest (forest_modify_target h) (fun h _ => h) fun {u x} hx hu => ?_
  have : t ≠ u := fun e => hu e.symm
  rw [Arena.get?_modify, if_neg this]
  exact hx

theorem Keeps.live (h : r.Keeps r' S T) (hi : r.forest.call? i ≠ none) (hS : i ∉ S) :
    r'.forest.live i = r.forest.live i := by
  cases hs : r.sites.get? i with
  | none => simp [forest, hs] at hi
  | some s => simp [forest, liveTargets, hs, h.site hs hS]

theorem Keeps.there (h : r.Keeps r' S T) {o : Origin} (ho : r.forest.origin? t = some o) :
    r'.forest.origin? t ≠ none := by
  simp [h.origin ho]

theorem Keeps.callees (h : r.Keeps r' S T) (ht : r.forest.origin? t ≠ none) (hT : t ∉ T) :
    r'.forest.callees t = r.forest.callees t ∧ r'.forest.deleted t = r.forest.deleted t := by
  cases hx : r.targets.get? t with
  | none => simp [forest, hx] at ht
  | some x => simp [forest, hx, h.target hx hT]

theorem Keeps.addSite (r : Region) (k : Call) :
    r.Keeps { r with sites := r.sites.alloc (.ofCall k) } ∅ ∅ := by
  have fresh := r.sites.get?_next
  have forest := forest_addSite r k
  exact {
    site := by
      intro i s hs _
      have : i ≠ r.sites.next := by rintro rfl; simp [fresh] at hs
      rw [Arena.get?_alloc, if_neg this]
      exact hs
    target := fun hx _ => hx
    call := by
      intro i k' hk
      have : i ≠ r.sites.next := by rintro rfl; simp [Region.forest, fresh] at hk
      rw [forest]
      simpa [Forest.addSite, this] using hk
    origin := fun ho => ho
    owner := fun ho _ => ho }

section Next

variable {depth : Nat} (sound : r.forest.Sound depth)

/-- The next site is not there yet. -/
theorem call_next (r : Region) : r.forest.call? r.sites.next = none := by
  simp [forest, r.sites.get?_next]

include sound

theorem sound_addSite {k : Call} (hk : k.id = r.sites.next) :
    ({ r with sites := r.sites.alloc (.ofCall k) } : Region).forest.Sound depth := by
  rw [forest_addSite]
  exact sound.addSite r.call_next hk

/-- No target owns a new site. -/
theorem not_owns_addSite (k : Call) (u : TargetId) :
    ¬ ({ r with sites := r.sites.alloc (.ofCall k) } : Region).forest.Owns u r.sites.next := by
  rw [forest_addSite]
  exact sound.not_owned_of_fresh r.call_next

end Next

section Put

variable {id : SiteId} {s : SiteScope}

theorem Keeps.put_add (there : r.sites.get? id ≠ none) (hid : s.site.id = id) {x : CallTarget}
    {m : MethodId} {size : Size} (hx : x.node = (⟨id, m, size⟩, size, [], [], 0, 0)) :
    (r.put id s).Keeps (r.put id (s.add x).2) {id} ∅ := by
  have forest := forest_put_add there hid hx
  have fresh := s.targets.get?_next
  exact {
    site := by
      intro i _ hs hi
      have : id ≠ i := fun e => hi e.symm
      rw [get?_put_site there, if_neg this] at hs ⊢
      exact hs
    target := by
      intro t y hy _
      have : t ≠ s.targets.next := by rintro rfl; simp [put, fresh] at hy
      simpa [put, SiteScope.add, Arena.get?_alloc, this] using hy
    call := fun hk => by rw [forest]; exact hk
    origin := by
      intro t o ho
      have : t ≠ s.targets.next := by rintro rfl; simp [Region.forest, put, fresh] at ho
      rw [forest]
      simpa [Forest.addTarget, this] using ho
    owner := fun ho _ => by rw [forest] at ho; exact ho }

theorem Keeps.put_congr (there : r.sites.get? id ≠ none) {s' : SiteScope} (site : s'.site.node = s.site.node)
    (targets : s'.targets = s.targets) : (r.put id s).Keeps (r.put id s') {id} ∅ := by
  refine .of_forest (forest_put_congr site fun t => by rw [targets]) ?_ fun hx _ => ?_
  · intro i _ hs hi
    have : id ≠ i := fun e => hi e.symm
    rw [get?_put_site there, if_neg this] at hs ⊢
    exact hs
  · simpa [put, targets] using hx

end Put

/-- From `r` to `r'` the targets `new` were added at the end of the live ones of a site. -/
structure Adds (depth : Nat) (r : Region) (id : SiteId) (r' : Region) (new : List TargetId) : Prop where
  sound : r'.forest.Sound depth
  keeps : r.Keeps r' {id} ∅
  live : r'.forest.live id = r.forest.live id ++ new
  fresh : ∀ t ∈ new, r.forest.origin? t = none
  callees : r'.forest.callees = r.forest.callees
  deleted : r'.forest.deleted = r.forest.deleted
  accounts : ∀ {p limit roots total hidden unsettled floating},
    r.forest.Accounts p limit roots total hidden unsettled floating →
      r'.forest.Accounts p limit roots total (new.reverse ++ hidden) (new.reverse ++ unsettled)
        floating

section Adds

variable {depth : Nat} {id : SiteId} {new : List TargetId} {s s' : SiteScope}

/-- Nothing is known yet of the bodies of added targets. -/
theorem Adds.pending (h : r.Adds depth id r' new) (sound : r.forest.Sound depth) (ht : t ∈ new) :
    r'.forest.Pending id t where
  live := by rw [h.live]; exact List.mem_append_right _ ht
  callees := by
    rw [h.callees]
    exact List.eq_nil_iff_forall_not_mem.2 fun i hi =>
      sound.not_owns_of_fresh (h.fresh t ht) (List.mem_append_left _ hi)
  deleted := by
    rw [h.deleted]
    exact List.eq_nil_iff_forall_not_mem.2 fun i hi =>
      sound.not_owns_of_fresh (h.fresh t ht) (List.mem_append_right _ hi)

/-- The added targets are the live ones that were not live before. -/
theorem Adds.filter_live (h : r.Adds depth id r' new) (sound : r.forest.Sound depth) :
    (r'.forest.live id).filter (!(r.forest.live id).contains ·) = new := by
  have old : ∀ t ∈ new, t ∉ r.forest.live id := fun t ht => sound.not_live_of_fresh (h.fresh t ht)
  rw [h.live, List.filter_append, List.filter_eq_nil_iff.2 (by simp), List.nil_append]
  exact List.filter_eq_self.2 fun t ht => by simpa using old t ht

/-- The targets that are new at the site are those added. -/
theorem Adds.new_live (h : r.Adds depth id r' new) (sound : r.forest.Sound depth) {s s' : CallSite}
    (hs : r.sites.get? id = some s) (hs' : r'.sites.get? id = some s') :
    s'.live.filter (!s.live.contains ·) = new := by
  rw [← Region.forest_live hs, ← Region.forest_live hs']
  exact h.filter_live sound

theorem Adds.nodup (h : r.Adds depth id r' new) : new.Nodup := by
  have distinct := h.sound.live_nodup id
  rw [h.live] at distinct
  exact (List.nodup_append'.1 distinct).2.1

/-- A change to the site that the forest does not see adds nothing. -/
theorem Adds.congr (h : r.Adds depth id (r.put id s) new) (there : r.sites.get? id ≠ none)
    (site : s'.site.node = s.site.node) (targets : s'.targets = s.targets) :
    r.Adds depth id (r.put id s') new := by
  have forest : (r.put id s').forest = (r.put id s).forest :=
    forest_put_congr site fun t => by rw [targets]
  exact {
    sound := by rw [forest]; exact h.sound
    keeps := h.keeps.trans (.put_congr there site targets) (fun i hi _ => hi) fun _ ht _ => ht
    live := by rw [forest]; exact h.live
    fresh := h.fresh
    callees := by rw [forest]; exact h.callees
    deleted := by rw [forest]; exact h.deleted
    accounts := fun hr => by rw [forest]; exact h.accounts hr }

/-- Taking one candidate. -/
theorem Adds.take (h : r.Adds depth id (r.put id s) new) (there : r.sites.get? id ≠ none)
    (hid : s.site.id = id) {k : Call} (hk : r.forest.call? id = some k) (within : k.depth < depth)
    (undeleted : ∀ u, id ∉ r.forest.deleted u) (p : Program) (ruledOut : List MethodId)
    (candidate : Candidate) :
    ∃ new', r.Adds depth id (r.put id (s.take p ruledOut candidate)) new' := by
  unfold SiteScope.take
  split
  · exact ⟨new, h⟩
  obtain ⟨size, hsize⟩ := node_targetOf hid p candidate
  have forest := forest_put_add there hid hsize
  have fresh : (r.put id s).forest.origin? s.targets.next = none := by
    simp [Region.forest, put, s.targets.get?_next]
  refine ⟨new ++ [s.targets.next], ?_⟩
  have added : r.Adds depth id (r.put id (s.add (s.targetOf p candidate)).2)
      (new ++ [s.targets.next]) := {
    sound := by
      rw [forest]
      exact h.sound.addTarget fresh (h.keeps.call hk) within fun u => by
        rw [h.deleted]; exact undeleted u
    keeps := h.keeps.trans (.put_add there hid hsize) (fun i hi _ => hi) fun _ ht _ => ht
    live := by
      rw [forest]
      simp [Forest.addTarget, h.live]
    fresh := by
      intro t ht
      rcases List.mem_append.1 ht with ht | ht
      · exact h.fresh t ht
      · rw [List.mem_singleton.1 ht]
        cases ho : r.forest.origin? s.targets.next with
        | none => rfl
        | some o => rw [h.keeps.origin ho] at fresh; cases fresh
    callees := by rw [forest]; exact h.callees
    deleted := by rw [forest]; exact h.deleted
    accounts := by
      intro p limit roots total hidden unsettled floating hr
      rw [forest, List.reverse_append, List.reverse_singleton]
      exact (h.accounts hr).addTarget h.sound fresh _ }
  exact added.congr there rfl rfl

theorem take_id (s : SiteScope) (p : Program) (ruledOut : List MethodId) (candidate : Candidate) :
    (s.take p ruledOut candidate).site.id = s.site.id := by
  unfold SiteScope.take
  split <;> rfl

/-- Taking candidates one after the other. -/
theorem Adds.takeAll (h : r.Adds depth id (r.put id s) new) (there : r.sites.get? id ≠ none)
    (hid : s.site.id = id) {k : Call} (hk : r.forest.call? id = some k) (within : k.depth < depth)
    (undeleted : ∀ u, id ∉ r.forest.deleted u) (p : Program) (ruledOut : List MethodId)
    (candidates : List Candidate) :
    ∃ new', r.Adds depth id (r.put id (candidates.foldl (·.take p ruledOut) s)) new' := by
  induction candidates generalizing s new with
  | nil => exact ⟨new, h⟩
  | cons candidate candidates ih =>
    obtain ⟨new', h'⟩ := h.take there hid hk within undeleted p ruledOut candidate
    exact ih h' ((take_id ..).trans hid)

theorem put_self (s : CallSite) (journal : Journal) (hs : r.sites.get? id = some s) :
    r.put id ⟨s, r.targets, journal⟩ = r :=
  congrArg (·.region) (Compilation.update_scope { region := r, journal := journal } hs)

theorem Adds.refl (sound : r.forest.Sound depth) : r.Adds depth id r [] where
  sound := sound
  keeps := .refl ..
  live := by simp
  fresh := nofun
  callees := rfl
  deleted := rfl
  accounts := fun h => h

end Adds

end Region

namespace SiteScope

/-- The scope once the visit was counted. -/
def visited (s : SiteScope) : SiteScope :=
  { s with site := { s.site with visitCount := s.site.visitCount + 1 } }

theorem conclude_same (s : SiteScope) (reason : FailureReason) :
    (s.conclude reason).site.node = s.site.node ∧ (s.conclude reason).targets = s.targets := by
  unfold conclude
  split
  · dsimp only
    split <;> exact ⟨rfl, rfl⟩
  · exact ⟨rfl, rfl⟩

/-- The scope in which the candidates of a resolution were taken. -/
def resolved (s : SiteScope) (env : Environment) (stack : CallStack) : SiteScope :=
  let resolution := env.resolve s.site.toCall stack s.visited.alreadyInlined
  (resolution.candidates.foldl (·.take env.program s.visited.ruledOut) s.visited).conclude
    resolution.failureReason

/-- A resolution fails before it has taken anything, or takes its candidates. -/
theorem findTargets_cases (s : SiteScope) (env : Environment) (stack : CallStack) :
    (∃ e, s.findTargets env stack = (.error e, s.visited)) ∨
      (∃ e, s.findTargets env stack = (.error e, s.resolved env stack)) ∨
      s.findTargets env stack =
        (.ok (!(s.resolved env stack).site.live.isEmpty), s.resolved env stack) := by
  unfold findTargets
  dsimp only
  split
  · exact .inl ⟨_, rfl⟩
  · refine .inr ?_
    split
    · exact .inl ⟨_, rfl⟩
    · exact .inr rfl

end SiteScope

/-- A site below the depth limit has no candidates. -/
theorem Environment.within_of_candidates (env : Environment) {k : Call} {stack : CallStack}
    {ruledOut : List MethodId} (h : (env.resolve k stack ruledOut).candidates ≠ []) :
    k.depth < env.config.maxDepth := by
  by_contra deep
  simp [Environment.resolve, Nat.not_lt.1 deep] at h

namespace Exploration

variable {env : Environment} {c : Compilation} {id : SiteId} {stack : CallStack}

/-- Counting a visit and taking the candidates of a resolution adds targets. -/
theorem adds_resolved (stack : CallStack) {r : Region} {s : CallSite} (journal : Journal)
    (sound : r.forest.Sound env.config.maxDepth) (hs : r.sites.get? id = some s)
    (undeleted : ∀ u, id ∉ r.forest.deleted u) :
    r.Adds env.config.maxDepth id (r.put id (SiteScope.visited ⟨s, r.targets, journal⟩)) [] ∧
      ∃ new, r.Adds env.config.maxDepth id
        (r.put id (SiteScope.resolved ⟨s, r.targets, journal⟩ env stack)) new := by
  have there : r.sites.get? id ≠ none := by simp [hs]
  have hk := Region.forest_call hs
  have hid : s.id = id := sound.call_id hk
  have start : r.Adds env.config.maxDepth id (r.put id ⟨s, r.targets, journal⟩) [] := by
    rw [Region.put_self s journal hs]
    exact .refl sound
  have visited : r.Adds env.config.maxDepth id (r.put id (SiteScope.visited ⟨s, r.targets, journal⟩)) [] :=
    start.congr there rfl rfl
  refine ⟨visited, ?_⟩
  unfold SiteScope.resolved
  generalize hres : env.resolve _ stack _ = resolution
  obtain ⟨site, targets⟩ := SiteScope.conclude_same (resolution.candidates.foldl
    (·.take env.program (SiteScope.visited ⟨s, r.targets, journal⟩).ruledOut)
    (SiteScope.visited ⟨s, r.targets, journal⟩)) resolution.failureReason
  by_cases none : resolution.candidates = []
  · rw [none] at site targets
    simp only [none]
    exact ⟨[], visited.congr there site targets⟩
  · have within := env.within_of_candidates (by rw [hres]; exact none)
    obtain ⟨new, taken⟩ := visited.takeAll there hid hk within undeleted env.program
      (SiteScope.visited ⟨s, r.targets, journal⟩).ruledOut resolution.candidates
    exact ⟨new, taken.congr there site targets⟩

/-- Resolving a site adds targets at the end of its live ones; the answer says whether it has a
live target then. -/
theorem ensures_resolveSite {k : Call} (sound : c.region.forest.Sound env.config.maxDepth)
    (hk : c.region.forest.call? id = some k) (undeleted : ∀ u, id ∉ c.region.forest.deleted u) :
    Ensures (resolveSite env stack id) c
      (fun found c' => (∃ new, c.region.Adds env.config.maxDepth id c'.region new) ∧
        found = !(c'.region.forest.live id).isEmpty ∧ c'.roots = c.roots ∧ c'.totalSize = c.totalSize)
      fun _ c' => (∃ new, c.region.Adds env.config.maxDepth id c'.region new) ∧
        c'.roots = c.roots ∧ c'.totalSize = c.totalSize := by
  refine ensures_onSite.2 ⟨fun s hs => ?_, fun h => by simp [Region.forest, h] at hk⟩
  have there : c.region.sites.get? id ≠ none := by simp [hs]
  obtain ⟨visited, new, resolved⟩ := adds_resolved stack c.journal sound hs undeleted
  rcases (c.scope s).findTargets_cases env stack with ⟨e, h⟩ | ⟨e, h⟩ | h
  · rw [h]
    constructor
    · intro _ answer
      cases answer
    · exact fun _ _ => ⟨⟨[], visited⟩, rfl, rfl⟩
  · rw [h]
    constructor
    · intro _ answer
      cases answer
    · exact fun _ _ => ⟨⟨new, resolved⟩, rfl, rfl⟩
  · rw [h]
    constructor
    · intro found answer
      cases answer
      refine ⟨⟨new, resolved⟩, ?_, rfl, rfl⟩
      show _ = !((c.region.put id _).forest.live id).isEmpty
      rw [Region.forest_put_live there]
    · intro _ answer
      cases answer

end Exploration

end Inlining
