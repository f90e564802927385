import Inlining.Proofs.Budget
import Inlining.Proofs.Growth

/-!
# Exploring bodies

Exploring a target reads its body call by call. Every call becomes a new site, the site is
resolved, and the targets it got are explored in turn, one level deeper; the target is settled
once all its sites are known. `Walked` is what holds after some of the calls of a body,
`Measured` after the body, and `Explored` after the target was accepted or given up. All of
them are relations between two compilations, since what was there before stays as it was, and
all of them carry the accounts from the one to the other.
-/

namespace Inlining

namespace Region

variable {r r' : Region} {S : Set SiteId} {T : Set TargetId} {i : SiteId} {t : TargetId} {depth : Nat}

/-- Targets on sites that were not there were not there either. -/
theorem Keeps.fresh_live (h : r.Keeps r' S T) (sound : r.forest.Sound depth)
    (sound' : r'.forest.Sound depth) (fresh : r.forest.call? i = none) (ht : t ∈ r'.forest.live i) :
    r.forest.origin? t = none := by
  by_contra there
  obtain ⟨o, ho⟩ := Option.ne_none_iff_exists'.1 there
  obtain ⟨k, hk, -⟩ := Forest.Accounts.sited sound ho
  have home : o.site = i := by
    have := sound'.home ht
    simpa [Forest.home?, h.origin ho] using this
  rw [home, fresh] at hk
  cases hk

/-- What is new lies below the target whose body was explored, or below what is new. -/
theorem Keeps.closed_fresh (h : r.Keeps r' S T) (sound : r.forest.Sound depth)
    (sound' : r'.forest.Sound depth) (bare : ∀ i, ¬ r.forest.Owns t i) :
    r'.forest.Closed {i | r.forest.call? i = none} {u | u = t ∨ r.forest.origin? u = none} where
  sites := by
    intro u i hu hi
    by_contra there
    have owner := h.owner (List.mem_append_left _ hi) there
    rcases hu with rfl | fresh
    · exact bare i owner
    · exact sound.not_owns_of_fresh fresh owner
  targets := fun hi ht => .inr (h.fresh_live sound sound' hi ht)

theorem Keeps.recordFolds (r : Region) (t : TargetId) (folds : List SpeculativeFold) :
    r.Keeps (r.recordFolds t folds) ∅ {t} := by
  induction folds generalizing r with
  | nil => exact .refl ..
  | cons fold folds ih =>
    have first : r.Keeps (r.recordFold t fold) ∅ {t} :=
      { Keeps.modify_target (r := r) (t := t) (f := (·.addConstant fold.index _)) fun _ => rfl with }
    exact first.trans (ih _) (fun i hi _ => hi) fun u hu _ => hu

/-- Settling a target gives new sites an owner. -/
theorem Keeps.settle (h : r.Keeps r' S T) (ht : t ∈ T) (pending : r'.forest.Pending i t)
    {x : CallTarget} (hx : r'.targets.get? t = some x) {found : List SiteId}
    (fresh : ∀ j ∈ found, r.forest.call? j = none) : r.Keeps (r'.settle t found) S T := by
  have forest := forest_settle r' hx found
  exact {
    site := by
      simp only [Region.settle, foldl_addFound]
      exact h.site
    target := by
      intro u y hy hu
      have : t ≠ u := ne_of_mem_of_not_mem ht hu
      simp only [Region.settle, foldl_addFound, Arena.get?_modify, if_neg this]
      exact h.target hy hu
    call := by
      rw [forest]
      exact h.call
    origin := by
      rw [forest]
      exact h.origin
    owner := by
      intro u j ho hj
      rw [forest, Forest.owns_settle _ _ pending] at ho
      rcases ho with ho | ⟨-, hj'⟩
      · exact h.owner ho hj
      · exact absurd (fresh j hj') hj }

end Region

theorem Compilation.Accounts.of_forest {c c' : Compilation} {p : Program} {config : Configuration}
    {hidden unsettled : List TargetId} {floating : List SiteId}
    (h : c.Accounts p config hidden unsettled floating) (forest : c'.region.forest = c.region.forest)
    (roots : c'.roots = c.roots) (total : c'.totalSize = c.totalSize) :
    c'.Accounts p config hidden unsettled floating := by
  unfold Compilation.Accounts at h ⊢
  rw [forest, roots, total]
  exact h

/-- The compilation in which the body of a target was left, and what was found in it was settled. -/
def Compilation.left (c : Compilation) (t : TargetId) (found : List SiteId) (m : MethodId) (depth : Nat)
    (committed : Bool) : Compilation :=
  { c with
    region := c.region.settle t found
    journal := c.journal.record (.framePopped m depth committed) }

namespace Exploration

variable {env : Environment} {c c' c'' : Compilation} {depth : Nat} {S S' : Set SiteId}
  {T T' : Set TargetId} {id : SiteId} {t : TargetId} {k : Call}

/-- From `c` to `c'` a sound region grew; of what was there only `S` and `T` changed. -/
structure Grown (depth : Nat) (S : Set SiteId) (T : Set TargetId) (c c' : Compilation) : Prop where
  sound : c'.region.forest.Sound depth
  keeps : c.region.Keeps c'.region S T

theorem Grown.mono (h : Grown depth S T c c') (hS : S ⊆ S') (hT : T ⊆ T') :
    Grown depth S' T' c c' :=
  ⟨h.sound, h.keeps.mono hS hT⟩

theorem Grown.trans (h : Grown depth S T c c') (h' : Grown depth S' T' c' c'')
    (hS : ∀ i ∈ S', c.region.forest.call? i ≠ none → i ∈ S)
    (hT : ∀ t ∈ T', c.region.forest.origin? t ≠ none → t ∈ T) : Grown depth S T c c'' :=
  ⟨h'.sound, h.keeps.trans h'.keeps hS hT⟩

theorem Grown.there (h : Grown depth S T c c') {i : SiteId} (hi : c.region.forest.call? i ≠ none) :
    c'.region.forest.call? i ≠ none := by
  obtain ⟨k, hk⟩ := Option.ne_none_iff_exists'.1 hi
  simp [h.keeps.call hk]

/-- A target stays new where nothing of what was there changes. -/
theorem Grown.pending {limit : Nat} (h : Grown depth ∅ ∅ c c') (sound : c.region.forest.Sound limit)
    (pending : c.region.forest.Pending id t) : c'.region.forest.Pending id t := by
  obtain ⟨k, hk⟩ := sound.call_of_live pending.live
  obtain ⟨o, ho, -⟩ := sound.origin_of_live pending.live
  obtain ⟨callees, deleted⟩ := h.keeps.callees (by simp [ho]) (Set.notMem_empty t)
  refine ⟨?_, callees.trans pending.callees, deleted.trans pending.deleted⟩
  rw [h.keeps.live (by simp [hk]) (Set.notMem_empty id)]
  exact pending.live

/-- A settled target inside another body that is not charged to what encloses it yet. -/
structure Uncharged (env : Environment) (id : SiteId) (t : TargetId) (hidden unsettled : List TargetId)
    (floating : List SiteId) (c : Compilation) : Prop where
  live : t ∈ c.region.forest.live id
  nested : c.region.forest.isTop id = false
  accounts : c.Accounts env.program env.config (t :: hidden) unsettled floating
  settled : c.region.forest.Settled env.config.maxCallSize (t :: hidden) t
  alive : ∀ j ∈ c.region.forest.callees t, ∃ u ∈ c.region.forest.live j, u ∉ t :: hidden

/-- From `c` to `c'` a new target was explored. It was given up, or charged to the budget, or it
is left to be charged. -/
structure Explored (env : Environment) (id : SiteId) (t : TargetId) (c c' : Compilation) : Prop where
  grown : Grown env.config.maxDepth {id} {t} c c'
  live : c'.region.forest.live id = c.region.forest.live id ∨
    c'.region.forest.live id = (c.region.forest.live id).erase t
  accounts : ∀ {hidden unsettled floating}, t ∉ hidden →
    c.Accounts env.program env.config (t :: hidden) (t :: unsettled) floating →
      Uncharged env id t hidden unsettled floating c' ∨
        (t ∈ c'.region.forest.live id → c'.region.forest.isTop id) ∧
          c'.Accounts env.program env.config hidden unsettled floating

/-- From `c` to `c'` some calls in the body of a method became sites and were explored. -/
structure Walked (env : Environment) (method : MethodId) (depth : Nat)
    (calls : List CallInstruction) (found : List SiteId) (c c' : Compilation) : Prop where
  grown : Grown env.config.maxDepth ∅ ∅ c c'
  called : List.Forall₂ (fun i call =>
    c'.region.forest.call? i = some (.ofInstruction i method depth call)) found calls
  fresh : ∀ i ∈ found, c.region.forest.call? i = none
  distinct : found.Nodup
  unowned : ∀ i ∈ found, ∀ u, ¬ c'.region.forest.Owns u i
  accounts : ∀ {hidden unsettled floating},
    c.Accounts env.program env.config hidden unsettled floating →
      c'.Accounts env.program env.config hidden unsettled (floating ++ found)

/-- From `c` to `c'` the call `k` became a site and got the targets `new`. -/
structure Opened (env : Environment) (id : SiteId) (k : Call) (new : List TargetId)
    (c c' : Compilation) : Prop where
  grown : Grown env.config.maxDepth ∅ ∅ c c'
  call : c'.region.forest.call? id = some k
  live : c'.region.forest.live id = new
  fresh : c.region.forest.call? id = none
  new_fresh : ∀ t ∈ new, c.region.forest.origin? t = none
  unowned : ∀ u, ¬ c'.region.forest.Owns u id
  pending : ∀ t ∈ new, c'.region.forest.Pending id t
  accounts : ∀ {hidden unsettled floating},
    c.Accounts env.program env.config hidden unsettled floating →
      c'.Accounts env.program env.config (new ++ hidden) (new ++ unsettled) (floating ++ [id])

/-- From `c` to `c'` the body of a new target was explored and the target settled. -/
structure Measured (env : Environment) (id : SiteId) (t : TargetId) (c c' : Compilation) : Prop where
  grown : Grown env.config.maxDepth {id} {t} c c'
  live : c'.region.forest.live id = c.region.forest.live id
  accounts : ∀ {hidden unsettled floating},
    c.Accounts env.program env.config (t :: hidden) (t :: unsettled) floating →
      c'.Accounts env.program env.config (t :: hidden) unsettled floating ∧
      (c'.region.forest.fullSize t ≤ env.config.maxCallSize →
        c'.region.forest.Settled env.config.maxCallSize (t :: hidden) t) ∧
      ∀ j ∈ c'.region.forest.callees t, ∃ u ∈ c'.region.forest.live j, u ∉ t :: hidden

section Walk

variable {method : MethodId} {calls calls' : List CallInstruction} {found found' : List SiteId}

theorem Walked.refl (sound : c.region.forest.Sound env.config.maxDepth) :
    Walked env method depth [] [] c c where
  grown := ⟨sound, .refl ..⟩
  called := .nil
  fresh := nofun
  distinct := List.nodup_nil
  unowned := nofun
  accounts := by simp

theorem Walked.call (h : Walked env method depth calls found c c') :
    ∀ i ∈ found, ∃ call, c'.region.forest.call? i = some (.ofInstruction i method depth call) :=
  ((List.forall₂_and_left _ _).1 (h.called.imp fun _ call hk => ⟨⟨call, hk⟩, hk⟩)).1

theorem Walked.trans (h : Walked env method depth calls found c c')
    (h' : Walked env method depth calls' found' c' c'') :
    Walked env method depth (calls ++ calls') (found ++ found') c c'' := by
  have there : ∀ i ∈ found, c'.region.forest.call? i ≠ none := by
    intro i hi
    obtain ⟨call, hk⟩ := h.call i hi
    simp [hk]
  exact {
    grown := h.grown.trans h'.grown (fun i hi _ => hi) fun t ht _ => ht
    called := List.rel_append (h.called.imp fun _ _ hk => h'.grown.keeps.call hk) h'.called
    fresh := by
      intro i hi
      rcases List.mem_append.1 hi with hi | hi
      · exact h.fresh i hi
      · by_contra old
        obtain ⟨k, hk⟩ := Option.ne_none_iff_exists'.1 old
        have new := h'.fresh i hi
        rw [h.grown.keeps.call hk] at new
        cases new
    distinct := List.nodup_append'.2
      ⟨h.distinct, h'.distinct, fun i hi hi' => there i hi (h'.fresh i hi')⟩
    unowned := by
      intro i hi u owner
      rcases List.mem_append.1 hi with hi | hi
      · exact h.unowned i hi u (h'.grown.keeps.owner owner (there i hi))
      · exact h'.unowned i hi u owner
    accounts := by
      intro hidden unsettled floating hc
      rw [← List.append_assoc]
      exact h'.accounts (h.accounts hc) }

end Walk

/-- Resolving a new site. -/
theorem Opened.of_adds {new : List TargetId} (sound : c.region.forest.Sound env.config.maxDepth)
    (hid : c.region.sites.next = id)
    (adds : ({ c.region with sites := c.region.sites.alloc (.ofCall k) } : Region).Adds
      env.config.maxDepth id c'.region new)
    (hk : k.id = id) (roots : c'.roots = c.roots) (total : c'.totalSize = c.totalSize) :
    Opened env id k new c c' := by
  have fresh : c.region.forest.call? id = none := hid ▸ c.region.call_next
  have forest := Region.forest_addSite c.region k
  have kept := Region.Keeps.addSite c.region k
  have sound' := Region.sound_addSite sound (hk.trans hid.symm)
  have unowned := Region.not_owns_addSite sound k
  rw [hid] at forest unowned
  generalize ({ c.region with sites := c.region.sites.alloc (.ofCall k) } : Region) = r
    at adds forest kept sound' unowned
  have call : r.forest.call? id = some k := by simp [forest, Forest.addSite]
  have live : r.forest.live id = [] := by
    rw [forest]
    exact sound.live_of_fresh fresh
  exact {
    grown := by
      refine ⟨adds.sound, kept.trans adds.keeps (fun i hi there => absurd ?_ there) fun _ ht _ => ht⟩
      rw [hi]
      exact fresh
    call := adds.keeps.call call
    live := by rw [adds.live, live, List.nil_append]
    fresh := fresh
    new_fresh := by
      intro t ht
      have := adds.fresh t ht
      rwa [forest] at this
    unowned := fun u owner => unowned u (adds.keeps.owner owner (by simp [call]))
    pending := fun t ht => adds.pending sound' ht
    accounts := by
      intro hidden unsettled floating h
      have sited := Forest.Accounts.addSite sound h fresh k
      rw [← forest] at sited
      unfold Compilation.Accounts
      rw [roots, total]
      exact (adds.accounts sited).congr (by simp) (by simp) }

/-- What happens to the targets of a new site does not touch what was there before. -/
theorem Opened.trans {new : List TargetId} (h : Opened env id k new c c')
    (grown : Grown env.config.maxDepth {id} {t | t ∈ new} c' c'') :
    Grown env.config.maxDepth ∅ ∅ c c'' := by
  refine h.grown.trans grown (fun i hi there => absurd ?_ there) fun t ht there => absurd ?_ there
  · rw [hi]
    exact h.fresh
  · exact h.new_fresh t ht

/-- Exploring the targets of a new site. -/
theorem Opened.walked {new : List TargetId} {method : MethodId} {call : CallInstruction}
    (h : Opened env id (.ofInstruction id method depth call) new c c')
    (grown : Grown env.config.maxDepth {id} {t | t ∈ new} c' c'')
    (accounts : ∀ {hidden unsettled floating}, (∀ t ∈ new, t ∉ hidden) →
      c'.Accounts env.program env.config (new ++ hidden) (new ++ unsettled) floating →
        c''.Accounts env.program env.config hidden unsettled floating) :
    Walked env method depth [call] [id] c c'' where
  grown := h.trans grown
  called := .cons (grown.keeps.call h.call) .nil
  fresh := by simpa using h.fresh
  distinct := List.nodup_singleton id
  unowned := by
    intro i hi u owner
    rw [List.mem_singleton.1 hi] at owner
    exact h.unowned u (grown.keeps.owner owner (by simp [h.call]))
  accounts := by
    intro hidden unsettled floating hc
    exact accounts (fun t ht hidden => hc.known t hidden (h.new_fresh t ht)) (h.accounts hc)

/-- Exploring one target of a site leaves the others as they were. -/
theorem Explored.pending (h : Explored env id t c c') (sound : c.region.forest.Sound depth)
    {u : TargetId} (hu : c.region.forest.Pending id u) (other : u ≠ t) :
    c'.region.forest.Pending id u := by
  have there : c.region.forest.origin? u ≠ none :=
    fun fresh => sound.not_live_of_fresh fresh hu.live
  obtain ⟨callees, deleted⟩ := h.grown.keeps.callees there other
  refine ⟨?_, callees.trans hu.callees, deleted.trans hu.deleted⟩
  rcases h.live with live | live
  · rw [live]
    exact hu.live
  · rw [live]
    exact (List.mem_erase_of_ne other).2 hu.live

/-- Explores one call of a body on the stack whose innermost frame is that of the body. -/
def exploreCall (env : Environment) (inner : CallStack → SiteId → TargetId → Exploration Unit)
    (stack : CallStack) (method : MethodId) (depth : Nat) (call : CallInstruction) :
    Exploration SiteId := do
  let stack ← ofExcept (stack.moveTo env.program call.block)
  let id := (← get).region.sites.next
  modifyRegion fun r =>
    { r with sites := r.sites.alloc (.ofCall (.ofInstruction id method depth call)) }
  let stack ← ofExcept (stack.atNode call.location.callNode)
  if ← resolveSite env stack id then
    (← site id).live.forM (inner stack id)
  return id

theorem exploreBody_eq (env : Environment) (inner : CallStack → SiteId → TargetId → Exploration Unit)
    (stack : CallStack) (method : MethodId) (depth : Nat) :
    exploreBody env inner stack method depth =
      (env.program.instructionsOf method).mapM (exploreCall env inner stack method depth) := rfl

section Calls

variable {inner : CallStack → SiteId → TargetId → Exploration Unit}
  (explores : ∀ {c id t k} stack, c.region.forest.Sound env.config.maxDepth →
    c.region.forest.Pending id t → c.region.forest.call? id = some k → k.depth = depth →
    Ensures (inner stack id t) c (fun _ => Explored env id t c)
      fun _ => Grown env.config.maxDepth ∅ {t} c)
include explores

/-- Exploring the new targets of a site that nobody owns yet. -/
theorem ensures_exploreNew (stack : CallStack) (sound : c.region.forest.Sound env.config.maxDepth)
    (hk : c.region.forest.call? id = some k) (hd : k.depth = depth) {new : List TargetId}
    (pending : ∀ t ∈ new, c.region.forest.Pending id t) (distinct : new.Nodup)
    (unowned : ∀ u, ¬ c.region.forest.Owns u id) :
    Ensures (new.forM (inner stack id)) c
      (fun _ c' => Grown env.config.maxDepth {id} {t | t ∈ new} c c' ∧
        ∀ {hidden unsettled floating}, (∀ t ∈ new, t ∉ hidden) →
          c.Accounts env.program env.config (new ++ hidden) (new ++ unsettled) floating →
            c'.Accounts env.program env.config hidden unsettled floating)
      fun _ => Grown env.config.maxDepth {id} {t | t ∈ new} c := by
  let inv (rest : List TargetId) (c' : Compilation) : Prop :=
    Grown env.config.maxDepth {id} {t | t ∈ new} c c' ∧
      (∀ t ∈ rest, t ∈ new ∧ c'.region.forest.Pending id t) ∧ rest.Nodup ∧
      ∀ {hidden unsettled floating}, (∀ t ∈ new, t ∉ hidden) →
        c.Accounts env.program env.config (new ++ hidden) (new ++ unsettled) floating →
          c'.Accounts env.program env.config (rest ++ hidden) (rest ++ unsettled) floating
  have start : inv new c :=
    ⟨⟨sound, .refl ..⟩, fun t ht => ⟨ht, pending t ht⟩, distinct, fun _ h => h⟩
  refine (Ensures.forM inv ?_ start).imp fun _ c' h => ⟨h.1, h.2.2.2⟩
  rintro t rest c₁ ⟨grown, pending₁, distinct₁, accounts⟩
  obtain ⟨ht, pending_t⟩ := pending₁ t (List.mem_cons_self ..)
  obtain ⟨hrest, distinct₁⟩ := List.nodup_cons.1 distinct₁
  have hk₁ := grown.keeps.call hk
  have one : ∀ u ∈ ({t} : Set TargetId), c.region.forest.origin? u ≠ none → u ∈ {t | t ∈ new} := by
    rintro u rfl _
    exact ht
  refine (explores stack grown.sound pending_t hk₁ hd).mono ?_ fun _ c₂ grown' =>
    grown.trans grown' (fun i hi _ => absurd hi (Set.notMem_empty i)) one
  rintro - c₂ explored
  refine ⟨grown.trans explored.grown (fun i hi _ => hi) one, fun u hu => ?_, distinct₁, ?_⟩
  · obtain ⟨hu', pending_u⟩ := pending₁ u (List.mem_cons_of_mem _ hu)
    exact ⟨hu', explored.pending grown.sound pending_u (ne_of_mem_of_not_mem hu hrest)⟩
  · intro hidden unsettled floating apart h
    have fresh : t ∉ rest ++ hidden := by simp [hrest, apart t ht]
    rcases explored.accounts fresh (accounts apart h) with waiting | ⟨-, settled⟩
    · have owner : ∀ u, ¬ c₂.region.forest.Owns u id := fun u ho =>
        unowned u (grown.keeps.owner (explored.grown.keeps.owner ho (by simp [hk₁])) (by simp [hk]))
      have accepted := waiting.accounts.accept explored.grown.sound waiting.live fresh
        waiting.settled waiting.alive owner
      rw [waiting.nested] at accepted
      exact accepted
    · exact settled

/-- Exploring one call of a body. -/
theorem ensures_exploreCall (stack : CallStack) (sound : c.region.forest.Sound env.config.maxDepth)
    (method : MethodId) (call : CallInstruction) :
    Ensures (exploreCall env inner stack method depth call) c
      (fun id => Walked env method depth [call] [id] c) fun _ => Grown env.config.maxDepth ∅ ∅ c := by
  rw [exploreCall, ensures_bind, ensures_ofExcept]
  refine ⟨fun stack _ => ?_, fun _ _ => ⟨sound, .refl ..⟩⟩
  rw [ensures_get_bind, ensures_bind, ensures_modifyRegion]
  dsimp only
  generalize hid : c.region.sites.next = id
  generalize hk : Call.ofInstruction id method depth call = k
  have kid : k.id = id := by rw [← hk]; rfl
  have lies : k.depth = depth := by rw [← hk]; rfl
  have forest := Region.forest_addSite c.region k
  have sited := Region.sound_addSite sound (kid.trans hid.symm)
  have unowned := Region.not_owns_addSite sound k
  rw [hid] at forest unowned
  rw [ensures_bind, ensures_ofExcept]
  refine ⟨fun stack _ => ?_, fun _ _ => ⟨sited, .addSite ..⟩⟩
  refine .bind ((ensures_resolveSite (k := k) sited ?_ ?_).imp_fail ?_) ?_
  · simp [forest, Forest.addSite]
  · exact fun u hu => unowned u (List.mem_append_right _ hu)
  · rintro - c₁ ⟨⟨new, adds⟩, roots, total⟩
    exact (Opened.of_adds sound hid adds kid roots total).grown
  rintro found c₁ ⟨⟨new, adds⟩, hfound, roots, total⟩
  have opened := Opened.of_adds sound hid adds kid roots total
  split
  · rw [ensures_bind, ensures_site]
    refine ⟨fun s hs => ?_, fun h => ?_⟩
    · have live := (Region.forest_live hs).symm.trans opened.live
      have distinct : new.Nodup := by
        rw [← opened.live]
        exact opened.grown.sound.live_nodup id
      rw [live]
      refine .bind ((ensures_exploreNew explores stack opened.grown.sound opened.call lies
        opened.pending distinct opened.unowned).imp_fail fun _ _ grown => opened.trans grown) ?_
      rintro - c₂ ⟨grown, accounts⟩
      subst hk
      exact opened.walked grown accounts
    · have := opened.call
      simp [Region.forest, h] at this
  next none =>
    have empty : new = [] := by
      rw [← opened.live]
      simpa [hfound] using none
    subst empty hk
    exact opened.walked ⟨opened.grown.sound, .refl ..⟩ fun _ h => h

/-- Exploring the calls of a body one after the other. -/
theorem ensures_exploreBody (stack : CallStack) (sound : c.region.forest.Sound env.config.maxDepth)
    (method : MethodId) :
    Ensures (exploreBody env inner stack method depth) c
      (fun found => Walked env method depth (env.program.instructionsOf method) found c)
      fun _ => Grown env.config.maxDepth ∅ ∅ c := by
  let inv (rest : List CallInstruction) (done : List SiteId) (c' : Compilation) : Prop :=
    ∃ before, before ++ rest = env.program.instructionsOf method ∧
      Walked env method depth before done c c'
  refine (Ensures.mapM inv ?_ ⟨[], rfl, .refl sound⟩).imp ?_
  · rintro call rest done c₁ ⟨before, parts, walked⟩
    refine (ensures_exploreCall explores stack walked.grown.sound method call).mono ?_ ?_
    · exact fun id c₂ one => ⟨before ++ [call], by simpa using parts, walked.trans one⟩
    · exact fun _ c₂ grown => walked.grown.trans grown (fun _ h _ => h) fun _ h _ => h
  · rintro found c₁ ⟨before, parts, walked⟩
    rw [← parts, List.append_nil]
    exact walked

end Calls

/-- Settling a target whose body was explored. -/
theorem Walked.measured (sound : c.region.forest.Sound env.config.maxDepth)
    (pending : c.region.forest.Pending id t) {o : Origin} (ho : c.region.forest.origin? t = some o)
    (hk : c.region.forest.call? o.site = some k) {found : List SiteId}
    (walked : Walked env o.method (k.depth + 1) (env.program.instructionsOf o.method) found c c')
    (journal : Journal) :
    Measured env id t c { c' with region := c'.region.settle t found, journal } := by
  have grown := walked.grown
  have ho' := grown.keeps.origin ho
  have hk' := grown.keeps.call hk
  obtain ⟨x, hx, origin⟩ := Region.target_of_origin ho'
  have forest := Region.forest_settle c'.region hx found
  rw [show x.size = o.size from congrArg Origin.size origin] at forest
  have live : c'.region.forest.live id = c.region.forest.live id := by
    obtain ⟨k', hk'⟩ := sound.call_of_live pending.live
    exact grown.keeps.live (by simp [hk']) (Set.notMem_empty id)
  have pending' := grown.pending sound pending
  have hfound : c'.region.forest.Found t found := by
    refine ⟨walked.distinct, walked.unowned, fun i hi => ?_⟩
    obtain ⟨call, hcall⟩ := walked.call i hi
    exact ⟨o, k, _, ho', hk', hcall, rfl, rfl⟩
  have counted : ∀ {hidden unsettled floating},
      c.Accounts env.program env.config (t :: hidden) unsettled floating →
        ∀ j ∈ found, ∀ u ∈ c'.region.forest.live j, u ∉ t :: hidden := by
    intro hidden unsettled floating h j hj u hu hidden
    exact h.known u hidden (grown.keeps.fresh_live sound grown.sound (walked.fresh j hj) hu)
  exact {
    grown := by
      constructor
      · rw [forest]
        exact grown.sound.settle pending' hfound
      · have kept := grown.keeps.mono (Set.empty_subset {id}) (Set.empty_subset {t})
        exact kept.settle rfl pending' hx walked.fresh
    live := by
      rw [forest]
      exact live
    accounts := by
      intro hidden unsettled floating h
      have count := counted h
      have there : t ∈ t :: hidden := List.mem_cons_self ..
      have settled := Forest.Accounts.settle grown.sound o.size (walked.accounts h) pending' hfound
        there
      have corresponds := Forest.corresponds_settle pending' o.size ho' hk' walked.called
      unfold Compilation.Accounts
      dsimp only
      rw [forest]
      exact ⟨settled.correspond corresponds, Forest.settled_settle pending' ho' there count,
        Forest.alive_settle pending' count⟩ }

/-- Giving up a target whose body was explored. -/
theorem ensures_abandonNew (sound : c.region.forest.Sound env.config.maxDepth)
    (pending : c.region.forest.Pending id t) (grown : Grown env.config.maxDepth {id} {t} c c')
    (live : c'.region.forest.live id = c.region.forest.live id)
    (accounts : ∀ {hidden unsettled floating}, t ∉ hidden →
      c.Accounts env.program env.config (t :: hidden) (t :: unsettled) floating →
        c'.Accounts env.program env.config (t :: hidden) unsettled floating)
    (reason : FailureReason) {fail : Fault → Compilation → Prop} :
    Ensures (abandon env id t reason) c'
      (fun _ c'' => Explored env id t c c'' ∧ t ∉ c''.region.forest.live id) fail := by
  have still : t ∈ c'.region.forest.live id := by
    rw [live]
    exact pending.live
  have bare : ∀ i, ¬ c.region.forest.Owns t i := by
    intro i
    simp [Forest.Owns, pending.callees, pending.deleted]
  have closed := grown.keeps.closed_fresh sound grown.sound bare
  -- only new sites and targets lie below the target
  have kept : ∀ {c₁ : Compilation} {S : Set SiteId}, c'.region.Prunes c₁.region S
      {u | u = t ∨ c.region.forest.origin? u = none} →
      (∀ i ∈ S, c.region.forest.call? i ≠ none → i ∈ ({id} : Set SiteId)) →
        c.region.Keeps c₁.region {id} {t} := by
    intro c₁ S prunes hS
    exact grown.keeps.trans prunes.keeps hS fun u hu there => hu.resolve_right there
  refine (ensures_abandon grown.sound still).imp ?_
  rintro - c₁ ⟨sound₁, prunes, live₁, balanced⟩
  have gone : t ∉ c₁.region.forest.live id := by
    rw [live₁]
    exact (grown.sound.live_nodup id).not_mem_erase
  refine ⟨⟨⟨sound₁, kept (prunes closed (.inl rfl)) fun i hi there => hi.resolve_right there⟩,
    .inr (by rw [live₁, live]), fun {hidden unsettled floating} fresh h => .inr ⟨?_, ?_⟩⟩, gone⟩
  · exact fun live => absurd live gone
  · exact balanced (accounts fresh h)

section Measured

variable (measured : Measured env id t c c') (pending : c.region.forest.Pending id t)
include measured pending

variable (hk : c.region.forest.call? id = some k)
  (fits : c'.region.forest.fullSize t ≤ env.config.maxCallSize)
include hk fits

/-- A measured target of a site of a compiled method is charged to the budget. -/
theorem Measured.charged (top : k.depth = 0) :
    Explored env id t c { c' with totalSize := c'.totalSize + c'.region.forest.fullSize t } where
  grown := ⟨measured.grown.sound, measured.grown.keeps⟩
  live := .inl measured.live
  accounts := by
    intro hidden unsettled floating fresh h
    obtain ⟨accounts, settled, alive⟩ := measured.accounts h
    have isTop : c'.region.forest.isTop id := by
      simp [Forest.isTop, measured.grown.keeps.call hk, top]
    have live : t ∈ c'.region.forest.live id := by
      rw [measured.live]
      exact pending.live
    have unowned : ∀ u, ¬ c'.region.forest.Owns u id := fun _ =>
      measured.grown.sound.not_owns_top (measured.grown.keeps.call hk) top
    have accepted := accounts.accept measured.grown.sound live fresh (settled fits) alive unowned
    rw [if_pos isTop] at accepted
    exact .inr ⟨fun _ => isTop, accepted⟩

/-- A measured target inside another body is left to be charged. -/
theorem Measured.uncharged (nested : k.depth ≠ 0) : Explored env id t c c' where
  grown := measured.grown
  live := .inl measured.live
  accounts := by
    intro hidden unsettled floating _ h
    obtain ⟨accounts, settled, alive⟩ := measured.accounts h
    refine .inl ⟨?_, ?_, accounts, settled fits, alive⟩
    · rw [measured.live]
      exact pending.live
    · simp [Forest.isTop, measured.grown.keeps.call hk, nested]

end Measured

theorem Grown.of_keeps (h : Grown depth S {t} c' c'') (kept : c.region.Keeps c'.region ∅ {t}) :
    Grown depth S {t} c c'' :=
  ⟨h.sound, (kept.mono (Set.empty_subset S) le_rfl).trans h.keeps (fun _ h _ => h) fun _ h _ => h⟩

/-- What happens to a target before its body is explored is nothing that the forest sees. -/
theorem Explored.of_forest (h : Explored env id t c' c'') (forest : c'.region.forest = c.region.forest)
    (kept : c.region.Keeps c'.region ∅ {t}) (roots : c'.roots = c.roots)
    (total : c'.totalSize = c.totalSize) : Explored env id t c c'' where
  grown := h.grown.of_keeps kept
  live := by
    rw [← forest]
    exact h.live
  accounts := fun fresh hc => h.accounts fresh (hc.of_forest forest roots total)

/-- Removing a new target whose method may not be inlined. -/
theorem ensures_removeUninlinable (sound : c.region.forest.Sound env.config.maxDepth)
    (pending : c.region.forest.Pending id t) {o : Origin} (ho : c.region.forest.origin? t = some o)
    (uninlinable : ¬ env.program.isInlinable o.method) {reason : FailureReason}
    {fail : Fault → Compilation → Prop} :
    Ensures (removeTarget env id t reason) c (fun _ => Explored env id t c) fail := by
  refine (ensures_removeTarget sound pending.live pending.callees).imp ?_
  rintro - c₁ ⟨forest, prunes, roots, total⟩
  have live : c₁.region.forest.live id = (c.region.forest.live id).erase t := by
    simp [forest, Forest.retire]
  refine ⟨⟨?_, prunes.keeps⟩, .inr live, fun {hidden unsettled floating} fresh h => .inr ⟨?_, ?_⟩⟩
  · rw [forest]
    exact sound.retire pending.live pending.callees
  · intro still
    rw [live] at still
    exact absurd still (sound.live_nodup id).not_mem_erase
  · have corresponds : c.region.forest.Corresponds env.program t := by
      intro o' _ ho' _ inlinable
      obtain rfl := Option.some.inj (ho.symm.trans ho')
      exact absurd inlinable uninlinable
    unfold Compilation.Accounts
    rw [forest, roots, total]
    exact (Forest.Accounts.correspond h corresponds).retire sound pending.live pending.callees

theorem ensures_explored_of_forest {x : Exploration Unit} (forest : c'.region.forest = c.region.forest)
    (kept : c.region.Keeps c'.region ∅ {t}) (roots : c'.roots = c.roots)
    (total : c'.totalSize = c.totalSize)
    (h : Ensures x c' (fun _ => Explored env id t c') fun _ => Grown env.config.maxDepth ∅ {t} c') :
    Ensures x c' (fun _ => Explored env id t c) fun _ => Grown env.config.maxDepth ∅ {t} c :=
  h.mono (fun _ _ h => h.of_forest forest kept roots total) fun _ _ h => h.of_keeps kept

/-- What is left to do for a target once its body was explored: its size is known then, and it is
accepted or given up. -/
def finish (env : Environment) (stack : CallStack) (id : SiteId) (t : TargetId) (depth : Nat)
    (found : List SiteId) : Exploration Unit := do
  modifyRegion (·.settle t found)
  let fullSize := (← get).region.fullSize t
  match overflow? env (← get).totalSize depth fullSize with
  | some reason =>
    leave stack false
    abandon env id t reason
  | none =>
    leave stack true
    if depth = 1 then
      modify fun c => { c with totalSize := c.totalSize + fullSize }
    if env.config.verifyInvariants then
      ofExcept ((← target t).checkCallees t)

/-- What is left to do starts where the body is left: the target is given up, or it is charged if it is outermost,
and its counts are checked. -/
theorem ensures_finish {stack : CallStack} {m : MethodId} {depth : Nat} {found : List SiteId}
    {post : Compilation → Prop} {fail : Fault → Compilation → Prop} (inside : stack.At m depth)
    (large : ∀ reason,
      overflow? env c.totalSize depth ((c.region.settle t found).fullSize t) = some reason →
      Ensures (abandon env id t reason) (c.left t found m depth false) (fun _ => post) fail)
    (outermost : overflow? env c.totalSize depth ((c.region.settle t found).fullSize t) = none → depth = 1 →
      Ensures (if env.config.verifyInvariants then do ofExcept ((← target t).checkCallees t) else pure ())
        { c.left t found m depth true with totalSize := c.totalSize + (c.region.settle t found).fullSize t }
        (fun _ => post) fail)
    (nested : overflow? env c.totalSize depth ((c.region.settle t found).fullSize t) = none → depth ≠ 1 →
      Ensures (if env.config.verifyInvariants then do ofExcept ((← target t).checkCallees t) else pure ())
        (c.left t found m depth true) (fun _ => post) fail) :
    Ensures (finish env stack id t depth found) c (fun _ => post) fail := by
  rw [finish, ensures_bind, ensures_modifyRegion, ensures_get_bind, ensures_get_bind]
  dsimp only
  split
  next reason exceeds =>
    rw [ensures_bind, ensures_leave inside]
    exact large reason exceeds
  next fits =>
    rw [ensures_bind, ensures_leave inside]
    split
    next one =>
      rw [ensures_bind, ensures_modify]
      exact outermost fits one
    next deeper => exact nested fits deeper

/-- Checking the counts of a target changes nothing and never fails. -/
theorem ensures_checkCallees {post : Compilation → Prop} (h : post c)
    (sound : c.region.forest.Sound depth) (there : c.region.forest.origin? t ≠ none)
    {fail : Fault → Compilation → Prop} :
    Ensures (if env.config.verifyInvariants then do ofExcept ((← target t).checkCallees t)
      else pure ()) c (fun _ => post) fail := by
  split
  · rw [ensures_bind, ensures_target]
    refine ⟨fun x hx => ensures_ofExcept.2 ⟨fun _ _ => h, fun e he => ?_⟩, fun gone => ?_⟩
    · have callees : x.calleeCount = x.callees.length := by
        simpa [Region.forest, hx] using sound.calleeCount t
      have deleted : x.deletedCalleeCount = x.deletedCallees.length := by
        simpa [Region.forest, hx] using sound.deletedCount t
      simp [CallTarget.checkCallees, callees, deleted] at he
    · simp [Region.forest, gone] at there
  · exact h

/-- Exploring a new target whose method may be inlined. -/
theorem ensures_exploreInlinable {inner : CallStack → SiteId → TargetId → Exploration Unit}
    (explores : ∀ {c id t k'} stack, c.region.forest.Sound env.config.maxDepth →
      c.region.forest.Pending id t → c.region.forest.call? id = some k' → k'.depth = k.depth + 1 →
      Ensures (inner stack id t) c (fun _ => Explored env id t c)
        fun _ => Grown env.config.maxDepth ∅ {t} c)
    (stack : CallStack) (sound : c.region.forest.Sound env.config.maxDepth)
    (pending : c.region.forest.Pending id t) (hk : c.region.forest.call? id = some k)
    {x : CallTarget} (hx : c.region.targets.get? t = some x) :
    Ensures (do
      modifyRegion (·.recordFolds t (env.program.foldsOf x.method))
      let stack ← enter stack x.symbol x.method (k.depth + 1)
      let found ← exploreBody env inner stack x.method (k.depth + 1)
      finish env stack id t (k.depth + 1) found) c
      (fun _ => Explored env id t c) fun _ => Grown env.config.maxDepth ∅ {t} c := by
  rw [ensures_bind, ensures_modifyRegion, ensures_bind, ensures_enter]
  have forest := Region.forest_recordFolds c.region t (env.program.foldsOf x.method)
  have kept := Region.Keeps.recordFolds c.region t (env.program.foldsOf x.method)
  generalize c.region.recordFolds t (env.program.foldsOf x.method) = r at forest kept ⊢
  have ho := Region.forest_origin hx
  rw [← forest] at ho sound pending hk
  have home : x.callSite = id := sound.site_of_live ho pending.live
  refine ⟨fun stack pushed => ?_, fun _ _ => ⟨sound, kept⟩⟩
  have inside := CallStack.at_push pushed
  refine ensures_explored_of_forest forest kept rfl rfl ?_
  refine .bind ((ensures_exploreBody explores stack sound x.method).imp_fail fun _ _ grown =>
    grown.mono le_rfl (Set.empty_subset {t})) ?_
  intro found c₁ walked
  have sited : r.forest.call? x.callSite = some k := by rw [home, hk]
  have measured := Walked.measured (o := ⟨x.callSite, x.method, x.size⟩) (k := k) sound pending ho
    sited walked
  refine ensures_finish inside (fun reason _ => ?_) (fun fits one => ?_) fun fits deeper => ?_
  · have measured := measured (c₁.journal.record (.framePopped x.method (k.depth + 1) false))
    exact (ensures_abandonNew sound pending measured.grown measured.live
      (fun _ h => (measured.accounts h).1) reason).imp fun _ _ h => h.1
  · have measured := measured (c₁.journal.record (.framePopped x.method (k.depth + 1) true))
    have charged := measured.charged pending hk (overflow?_eq_none_iff.1 fits).1 (by omega)
    exact ensures_checkCallees charged charged.grown.sound (charged.grown.keeps.there ho)
  · have measured := measured (c₁.journal.record (.framePopped x.method (k.depth + 1) true))
    have uncharged := measured.uncharged pending hk (overflow?_eq_none_iff.1 fits).1 (by omega)
    exact ensures_checkCallees uncharged uncharged.grown.sound (uncharged.grown.keeps.there ho)

/-- Exploring a new target of a site that lies at most `levels` above the depth limit. -/
theorem ensures_exploreTarget {levels : Nat} {stack : CallStack}
    (sound : c.region.forest.Sound env.config.maxDepth) (pending : c.region.forest.Pending id t)
    (hk : c.region.forest.call? id = some k) (reach : env.config.maxDepth ≤ k.depth + levels) :
    Ensures (exploreTarget env levels stack id t) c (fun _ => Explored env id t c)
      fun _ => Grown env.config.maxDepth ∅ {t} c := by
  induction levels generalizing c stack id t k with
  | zero =>
    have within := sound.depth_lt hk pending.live
    omega
  | succ levels ih =>
    rw [exploreTarget, ensures_bind, ensures_site]
    refine ⟨fun s hs => ?_, fun h => by simp [Region.forest, h] at hk⟩
    have depth : s.depth = k.depth :=
      congrArg Call.depth (Option.some.inj ((Region.forest_call hs).symm.trans hk))
    rw [ensures_get_bind, ensures_bind, ensures_modifyTarget]
    have forest := Region.forest_modify_target (r := c.region) (t := t)
      (f := fun x => { x with number := some c.nextNumber }) fun _ => rfl
    have kept := Region.Keeps.modify_target (r := c.region) (t := t)
      (f := fun x => { x with number := some c.nextNumber }) fun _ => rfl
    generalize ({ c.region with
      targets := c.region.targets.modify t fun x => { x with number := some c.nextNumber } } :
      Region) = r at forest kept ⊢
    rw [← forest] at sound pending hk
    rw [ensures_bind, ensures_modify, ensures_bind, ensures_target]
    dsimp only
    refine ⟨fun x hx => ensures_explored_of_forest forest kept rfl rfl ?_, fun h => ?_⟩
    · split
      next uninlinable =>
        exact ensures_removeUninlinable sound pending (Region.forest_origin hx) (by simpa using uninlinable)
      next inlinable =>
        rw [depth]
        exact ensures_exploreInlinable (fun {c id t k'} stack sound pending hk' deeper =>
          ih sound pending hk' (by omega)) stack sound pending hk hx
    · have := sound.home pending.live
      simp [Region.forest, Forest.home?, h] at this

end Exploration

end Inlining
