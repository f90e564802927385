import Inlining.Proofs.Forest

/-!
# Sound forests

`Forest.Sound` is what holds of a region at every moment, in the middle of an exploration and
after one that failed: a target is in one place on one site, a site in the body of at most one
target, the counts are right, and nothing lives below what was given up. Each operation on a
forest keeps it.
-/

namespace Inlining

/-- Moving an element from one list to the end of another. -/
theorem perm_move {α : Type} [DecidableEq α] {a : α} {xs : List α} (h : a ∈ xs) (ys : List α) :
    (xs ++ ys).Perm (xs.erase a ++ (ys ++ [a])) := by
  rw [← List.append_assoc]
  exact ((List.perm_cons_erase h).append_right ys).trans (List.perm_append_singleton a _).symm

namespace Forest

variable (f : Forest)

theorem alive_append_dead (found : List SiteId) : (f.alive found ++ f.dead found).Perm found := by
  have := List.filter_append_perm (fun i => !(f.live i).isEmpty) found
  simpa [alive, dead] using this

variable {f}

theorem mem_alive {found : List SiteId} {i : SiteId} :
    i ∈ f.alive found ↔ i ∈ found ∧ f.live i ≠ [] := by
  simp [alive]

theorem mem_dead {found : List SiteId} {i : SiteId} :
    i ∈ f.dead found ↔ i ∈ found ∧ f.live i = [] := by
  simp [dead]

/-- What holds of a forest at every moment; sites with targets lie above the depth `limit`. -/
structure Sound (f : Forest) (limit : Nat) : Prop where
  call_id : ∀ {i k}, f.call? i = some k → k.id = i
  placed : ∀ {t i}, t ∈ f.live i ∨ t ∈ f.removed i ↔ f.home? t = some i
  distinct : ∀ i, (f.live i ++ f.removed i).Nodup
  totalAdded : ∀ i, f.totalAdded i = (f.live i).length + (f.removed i).length
  within : ∀ {t i}, f.home? t = some i → ∃ k, f.call? i = some k ∧ k.depth < limit
  owned : ∀ {t i}, f.Owns t i → ∃ o k k', f.origin? t = some o ∧ f.call? o.site = some k ∧
    f.call? i = some k' ∧ k'.depth = k.depth + 1 ∧ k'.caller = o.method
  owned_distinct : ∀ t, (f.callees t ++ f.deleted t).Nodup
  owner_unique : ∀ {t u i}, f.Owns t i → f.Owns u i → t = u
  calleeCount : ∀ t, f.calleeCount t = (f.callees t).length
  deletedCount : ∀ t, f.deletedCount t = (f.deleted t).length
  deleted_dead : ∀ {t i}, i ∈ f.deleted t → f.live i = []
  removed_bare : ∀ {t i}, t ∈ f.removed i → f.callees t = []

/-- A target is live, and nothing was found in its body yet. -/
structure Pending (f : Forest) (i : SiteId) (t : TargetId) : Prop where
  live : t ∈ f.live i
  callees : f.callees t = []
  deleted : f.deleted t = []

/-- The sites that were found in the body of a target: they are what the body calls, and nobody
owns them yet. -/
structure Found (f : Forest) (t : TargetId) (found : List SiteId) : Prop where
  distinct : found.Nodup
  unowned : ∀ i ∈ found, ∀ u, ¬ f.Owns u i
  called : ∀ i ∈ found, ∃ o k k', f.origin? t = some o ∧ f.call? o.site = some k ∧
    f.call? i = some k' ∧ k'.depth = k.depth + 1 ∧ k'.caller = o.method

section Owner

variable {f : Forest} {i j : SiteId} {t u : TargetId}

theorem owns_dropCallee (hi : i ∈ f.callees t) : (f.dropCallee t i).Owns u j ↔ f.Owns u j := by
  simp only [Owns, Forest.dropCallee, Function.update_apply]
  split
  · subst u
    exact (perm_move hi _).mem_iff.symm
  · rfl

theorem owns_settle (size : Size) (found : List SiteId) (hp : f.Pending i t) :
    (f.settle t size found).Owns u j ↔ f.Owns u j ∨ u = t ∧ j ∈ found := by
  have parts := f.alive_append_dead found
  simp only [Owns, Forest.settle, Function.update_apply]
  split
  · subst u
    simp [hp.callees, hp.deleted, ← parts.mem_iff]
  · simp [*]

end Owner

namespace Sound

variable {f : Forest} {limit : Nat} {i j : SiteId} {t u : TargetId}

theorem home (h : f.Sound limit) (ht : t ∈ f.live i) : f.home? t = some i :=
  h.placed.1 (.inl ht)

theorem home_unique (h : f.Sound limit) (ht : t ∈ f.live i) (ht' : t ∈ f.live j) : i = j :=
  Option.some.inj ((h.home ht).symm.trans (h.home ht'))

theorem live_nodup (h : f.Sound limit) (i : SiteId) : (f.live i).Nodup :=
  (List.nodup_append'.1 (h.distinct i)).1

theorem not_removed (h : f.Sound limit) (ht : t ∈ f.live i) : t ∉ f.removed j := by
  intro hr
  have same : i = j := Option.some.inj ((h.home ht).symm.trans (h.placed.1 (.inr hr)))
  subst same
  exact List.disjoint_of_nodup_append (h.distinct i) ht hr

theorem origin_of_live (h : f.Sound limit) (ht : t ∈ f.live i) :
    ∃ o, f.origin? t = some o ∧ o.site = i :=
  Option.map_eq_some_iff.1 (h.home ht)

theorem site_of_live (h : f.Sound limit) {o : Origin} (ho : f.origin? t = some o)
    (ht : t ∈ f.live i) : o.site = i := by
  have := h.home ht
  simpa [home?, ho] using this

/-- Sites with live targets lie above the depth limit. -/
theorem depth_lt (h : f.Sound limit) {k : Call} (hk : f.call? i = some k) (ht : t ∈ f.live i) :
    k.depth < limit := by
  obtain ⟨k', hk', within⟩ := h.within (h.home ht)
  obtain rfl := Option.some.inj (hk.symm.trans hk')
  exact within

theorem call_of_live (h : f.Sound limit) (ht : t ∈ f.live i) : ∃ k, f.call? i = some k :=
  (h.within (h.home ht)).imp fun _ hk => hk.1

/-- A site of a compiled method has no owner. -/
theorem not_owns_top (h : f.Sound limit) {k : Call} (hk : f.call? i = some k) (top : k.depth = 0) :
    ¬ f.Owns t i := by
  intro ho
  obtain ⟨_, _, k', _, _, hk', deeper, _⟩ := h.owned ho
  obtain rfl := Option.some.inj (hk.symm.trans hk')
  omega

/-- A target that is not there is on no site and owns none. -/
theorem not_live_of_fresh (h : f.Sound limit) (ht : f.origin? t = none) : t ∉ f.live i := by
  intro hl
  have := h.home hl
  simp [home?, ht] at this

theorem not_owns_of_fresh (h : f.Sound limit) (ht : f.origin? t = none) : ¬ f.Owns t i := by
  intro ho
  obtain ⟨o, _, _, ho, _⟩ := h.owned ho
  simp [ht] at ho

/-- A site that is not there has no targets and no owner. -/
theorem live_of_fresh (h : f.Sound limit) (hi : f.call? i = none) : f.live i = [] := by
  apply List.eq_nil_iff_forall_not_mem.2
  intro t ht
  obtain ⟨k, hk, _⟩ := h.within (h.home ht)
  simp [hi] at hk

theorem not_owned_of_fresh (h : f.Sound limit) (hi : f.call? i = none) : ¬ f.Owns t i := by
  intro ho
  obtain ⟨_, _, _, _, _, hk, _⟩ := h.owned ho
  simp [hi] at hk

theorem addSite (h : f.Sound limit) {k : Call} (fresh : f.call? i = none) (hk : k.id = i) :
    (f.addSite i k).Sound limit := by
  have kept : ∀ {j k'}, f.call? j = some k' → (f.addSite i k).call? j = some k' := by
    intro j k' hj
    have : j ≠ i := by rintro rfl; simp [fresh] at hj
    simpa [Forest.addSite, this] using hj
  exact {
    call_id := by
      intro j k' hj
      simp only [Forest.addSite, Function.update_apply] at hj
      split at hj
      next e => cases hj; exact hk.trans e.symm
      next => exact h.call_id hj
    placed := h.placed
    distinct := h.distinct
    totalAdded := h.totalAdded
    within := fun ht => (h.within ht).imp fun _ hk => ⟨kept hk.1, hk.2⟩
    owned := by
      intro t j ho
      obtain ⟨o, k₁, k₂, ho, h₁, h₂, hd⟩ := h.owned ho
      exact ⟨o, k₁, k₂, ho, kept h₁, kept h₂, hd⟩
    owned_distinct := h.owned_distinct
    owner_unique := h.owner_unique
    calleeCount := h.calleeCount
    deletedCount := h.deletedCount
    deleted_dead := h.deleted_dead
    removed_bare := h.removed_bare }

theorem addTarget (h : f.Sound limit) {o : Origin} {k : Call} (fresh : f.origin? t = none)
    (hk : f.call? o.site = some k) (hd : k.depth < limit) (undeleted : ∀ u, o.site ∉ f.deleted u) :
    (f.addTarget t o).Sound limit := by
  have new : ∀ i, t ∉ f.live i ∧ t ∉ f.removed i := by
    intro i
    have := fun hl => h.placed (t := t) (i := i).1 hl
    simp_all [home?]
  have home : ∀ u, (f.addTarget t o).home? u = if u = t then some o.site else f.home? u := by
    intro u
    simp only [home?, Forest.addTarget, Function.update_apply]
    split <;> rfl
  exact {
    call_id := h.call_id
    placed := by
      intro u i
      rw [home]
      have := h.placed (t := u) (i := i)
      simp only [Forest.addTarget, Function.update_apply]
      have := new i
      grind
    distinct := by
      intro i
      have := h.distinct i
      have := new i
      simp only [Forest.addTarget, Function.update_apply]
      split
      · subst i; grind
      · assumption
    totalAdded := by
      intro i
      have := h.totalAdded i
      simp only [Forest.addTarget, Function.update_apply]
      grind
    within := by
      intro u i
      rw [home]
      split
      · intro e; cases e; exact ⟨k, hk, hd⟩
      · exact h.within
    owned := by
      intro u i ho
      obtain ⟨o', k₁, k₂, ho', hs⟩ := h.owned ho
      have : u ≠ t := by rintro rfl; simp [fresh] at ho'
      exact ⟨o', k₁, k₂, by simpa [Forest.addTarget, this] using ho', hs⟩
    owned_distinct := h.owned_distinct
    owner_unique := h.owner_unique
    calleeCount := h.calleeCount
    deletedCount := h.deletedCount
    deleted_dead := by
      intro u i hi
      have : i ≠ o.site := by rintro rfl; exact undeleted u hi
      simpa [Forest.addTarget, this] using h.deleted_dead hi
    removed_bare := h.removed_bare }

theorem retire (h : f.Sound limit) (live : t ∈ f.live i) (bare : f.callees t = []) :
    (f.retire i t).Sound limit where
  call_id := h.call_id
  placed := by
    intro u j
    have placed : _ ↔ f.home? u = some j := h.placed
    have := h.distinct i
    simp only [Forest.retire, Function.update_apply]
    show _ ↔ f.home? u = some j
    rw [← placed]
    grind
  distinct := by
    intro j
    have := h.distinct j
    simp only [Forest.retire, Function.update_apply]
    split
    · subst j
      exact (perm_move live _).nodup_iff.1 this
    · assumption
  totalAdded := by
    intro j
    have := h.totalAdded j
    simp only [Forest.retire, Function.update_apply]
    split
    · subst j
      have := List.length_pos_of_mem live
      rw [List.length_erase_of_mem live]
      grind
    · assumption
  within := h.within
  owned := h.owned
  owned_distinct := h.owned_distinct
  owner_unique := h.owner_unique
  calleeCount := h.calleeCount
  deletedCount := h.deletedCount
  deleted_dead := by
    intro u j hj
    have := h.deleted_dead hj
    simp only [Forest.retire, Function.update_apply]
    split
    · subst j; simp [this]
    · exact this
  removed_bare := by
    intro u j hu
    simp only [Forest.retire, Function.update_apply] at hu
    split at hu
    · rcases List.mem_append.1 hu with hu | hu
      · exact h.removed_bare hu
      · rw [List.mem_singleton.1 hu]; exact bare
    · exact h.removed_bare hu

theorem retireAll (h : f.Sound limit) (bare : ∀ t ∈ f.live i, f.callees t = []) :
    (f.retireAll i).Sound limit where
  call_id := h.call_id
  placed := by
    intro u j
    have placed : _ ↔ f.home? u = some j := h.placed
    simp only [Forest.retireAll, Function.update_apply]
    show _ ↔ f.home? u = some j
    rw [← placed]
    grind
  distinct := by
    intro j
    have := h.distinct j
    simp only [Forest.retireAll, Function.update_apply]
    split
    · subst j
      simpa using List.perm_append_comm.nodup_iff.1 this
    · assumption
  totalAdded := by
    intro j
    have := h.totalAdded j
    simp only [Forest.retireAll, Function.update_apply]
    grind
  within := h.within
  owned := h.owned
  owned_distinct := h.owned_distinct
  owner_unique := h.owner_unique
  calleeCount := h.calleeCount
  deletedCount := h.deletedCount
  deleted_dead := by
    intro u j hj
    have := h.deleted_dead hj
    simp only [Forest.retireAll, Function.update_apply]
    split <;> trivial
  removed_bare := by
    intro u j hu
    simp only [Forest.retireAll, Function.update_apply] at hu
    split at hu
    · rcases List.mem_append.1 hu with hu | hu
      · exact h.removed_bare hu
      · exact bare u hu
    · exact h.removed_bare hu

theorem dropCallee (h : f.Sound limit) (hi : i ∈ f.callees t) (dead : f.live i = []) :
    (f.dropCallee t i).Sound limit where
  call_id := h.call_id
  placed := h.placed
  distinct := h.distinct
  totalAdded := h.totalAdded
  within := h.within
  owned := fun ho => h.owned ((owns_dropCallee hi).1 ho)
  owned_distinct := by
    intro u
    have := h.owned_distinct u
    simp only [Forest.dropCallee, Function.update_apply]
    split
    · subst u
      exact (perm_move hi _).nodup_iff.1 this
    · assumption
  owner_unique := fun ho ho' =>
    h.owner_unique ((owns_dropCallee hi).1 ho) ((owns_dropCallee hi).1 ho')
  calleeCount := by
    intro u
    have := h.calleeCount u
    simp only [Forest.dropCallee, Function.update_apply]
    split
    · subst u
      rw [List.length_erase_of_mem hi, this]
    · assumption
  deletedCount := by
    intro u
    have := h.deletedCount u
    simp only [Forest.dropCallee, Function.update_apply]
    grind
  deleted_dead := by
    intro u j hj
    simp only [Forest.dropCallee, Function.update_apply] at hj
    split at hj
    · rcases List.mem_append.1 hj with hj | hj
      · exact h.deleted_dead hj
      · rw [List.mem_singleton.1 hj]; exact dead
    · exact h.deleted_dead hj
  removed_bare := by
    intro u j hu
    have := h.removed_bare hu
    simp only [Forest.dropCallee, Function.update_apply]
    split
    · subst u; simp [this]
    · exact this

theorem settle (h : f.Sound limit) {size : Size} {found : List SiteId} (hp : f.Pending i t)
    (hf : f.Found t found) : (f.settle t size found).Sound limit := by
  have parts := f.alive_append_dead found
  have owns {u j} := owns_settle (u := u) (j := j) size found hp
  exact {
    call_id := h.call_id
    placed := h.placed
    distinct := h.distinct
    totalAdded := h.totalAdded
    within := h.within
    owned := by
      intro u j ho
      rcases owns.1 ho with ho | ⟨rfl, hj⟩
      · exact h.owned ho
      · exact hf.called j hj
    owned_distinct := by
      intro u
      simp only [Forest.settle, Function.update_apply]
      split
      · simpa [hp.callees, hp.deleted] using parts.nodup_iff.2 hf.distinct
      · exact h.owned_distinct u
    owner_unique := by
      intro u v j hu hv
      rcases owns.1 hu with hu | ⟨hu, hj⟩ <;> rcases owns.1 hv with hv | ⟨hv, hj'⟩
      · exact h.owner_unique hu hv
      · exact absurd hu (hf.unowned j hj' u)
      · exact absurd hv (hf.unowned j hj v)
      · exact hu.trans hv.symm
    calleeCount := by
      intro u
      have := h.calleeCount u
      simp only [Forest.settle, Function.update_apply]
      grind
    deletedCount := by
      intro u
      have := h.deletedCount u
      simp only [Forest.settle, Function.update_apply]
      grind
    deleted_dead := by
      intro u j hj
      simp only [Forest.settle, Function.update_apply] at hj
      split at hj
      · have hj : j ∈ f.dead found := by simpa [hp.deleted] using hj
        exact (mem_dead.1 hj).2
      · exact h.deleted_dead hj
    removed_bare := by
      intro u j hu
      have : u ≠ t := by rintro rfl; exact h.not_removed hp.live hu
      simpa [Forest.settle, this] using h.removed_bare hu }

theorem enlarge (h : f.Sound limit) {size : Size} : (f.enlarge size t).Sound limit :=
  { h with }

end Sound

end Forest

end Inlining
