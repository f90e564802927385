import Inlining.Proofs.Soundness

/-!
# The accounts of a forest

While targets are explored, the sizes of the bodies around them do not count them yet, and the
sites of a body are owned by nobody until the body was read to its end. `Forest.Accounts`
says what holds all the same. It names the exceptions: `hidden` targets, which no sum counts;
`unsettled` ones, whose sites are not known yet; and `floating` sites without owner. Between
two steps of a session without failures there are no exceptions.

Each operation on a forest comes with the exceptions that it makes or ends. An accepted target
ends being hidden when what encloses it has grown by its size (`Accounts.accept`,
`Accounts.acceptWithin`); a target to be given up is hidden before its callees are dropped
(`Accounts.hide`).
-/

namespace Inlining

instance {cap : Nat} : AddCommMonoid (Saturating cap) where
  add_assoc := Saturating.add_assoc
  zero_add := Saturating.zero_add
  add_zero := Saturating.add_zero
  add_comm := Saturating.add_comm
  nsmul := nsmulRec

/-- If one element of a list gains weight, the sum gains it. -/
theorem sum_map_gain {α M : Type} [DecidableEq α] [AddCommMonoid M] {xs : List α} {a : α} {n : M}
    {w w' : α → M} (distinct : xs.Nodup) (ha : a ∈ xs) (same : ∀ b ∈ xs, b ≠ a → w' b = w b)
    (gain : w' a = w a + n) : (xs.map w').sum = (xs.map w).sum + n := by
  have split := List.perm_cons_erase ha
  have rest : (xs.erase a).map w' = (xs.erase a).map w := by
    apply List.map_congr_left
    intro b hb
    have := (distinct.mem_erase_iff).1 hb
    exact same b this.2 this.1
  rw [(split.map w').sum_eq, (split.map w).sum_eq]
  simp only [List.map_cons, List.sum_cons, rest, gain]
  abel

namespace Forest

/-- The sum of the sizes of the live targets of a site that are not hidden. -/
def weight (f : Forest) (hidden : List TargetId) (i : SiteId) : Size :=
  (((f.live i).filter fun t => t ∉ hidden).map f.fullSize).sum

/-- The site is in the body of a compiled method. -/
def isTop (f : Forest) (i : SiteId) : Bool := (f.call? i).any (·.depth == 0)

/-- A target is as large as its own body and what is inlined into it, which is not too large. -/
structure Settled (f : Forest) (limit : Size) (hidden : List TargetId) (t : TargetId) : Prop where
  sum : ∃ o, f.origin? t = some o ∧ f.fullSize t = o.size + ((f.callees t).map (f.weight hidden)).sum
  fits : f.fullSize t ≤ limit

/-- The sites of a target that may be inlined are the calls in its body, one for each. -/
def Corresponds (f : Forest) (p : Program) (t : TargetId) : Prop :=
  ∀ o k, f.origin? t = some o → f.call? o.site = some k → p.isInlinable o.method →
    ∃ found, found.Perm (f.callees t ++ f.deleted t) ∧
      List.Forall₂ (fun i instruction =>
        f.call? i = some (.ofInstruction i o.method (k.depth + 1) instruction))
        found (p.instructionsOf o.method)

/-- The accounts of a forest up to exceptions. -/
structure Accounts (f : Forest) (p : Program) (limit : Size) (roots : List SiteId) (total : Size)
    (hidden unsettled : List TargetId) (floating : List SiteId) : Prop where
  known : ∀ t ∈ hidden, f.origin? t ≠ none
  tops_distinct : (roots ++ floating).Nodup
  root : ∀ i ∈ roots, ∃ k, f.call? i = some k ∧ k.depth = 0
  floats : ∀ i ∈ floating, f.call? i ≠ none ∧ ∀ t, ¬ f.Owns t i
  held : ∀ i, f.call? i ≠ none → i ∈ roots ++ floating ∨ ∃ t, f.Owns t i
  corresponds : ∀ t, t ∉ unsettled → f.Corresponds p t
  callee_alive : ∀ {t i}, t ∉ hidden → i ∈ f.callees t → ∃ u ∈ f.live i, u ∉ hidden
  settled : ∀ {t i}, t ∉ hidden → t ∈ f.live i → f.Settled limit hidden t
  total : total = (((roots ++ floating).filter f.isTop).map (f.weight hidden)).sum

section Weight

variable {f g : Forest} {hidden hidden' : List TargetId} {t : TargetId} {i : SiteId}

theorem weight_congr
    (live : (g.live i).filter (fun t => t ∉ hidden') = (f.live i).filter fun t => t ∉ hidden)
    (size : ∀ t ∈ f.live i, t ∉ hidden → g.fullSize t = f.fullSize t) :
    g.weight hidden' i = f.weight hidden i := by
  unfold weight
  rw [live]
  refine congrArg List.sum (List.map_congr_left fun t ht => ?_)
  have := List.mem_filter.1 ht
  exact size t this.1 (by simpa using this.2)

/-- Hiding a target matters only where it is live. -/
theorem weight_hide (ht : t ∉ f.live i) : f.weight (t :: hidden) i = f.weight hidden i := by
  refine weight_congr (List.filter_congr fun u hu => ?_) fun _ _ _ => rfl
  have : u ≠ t := ne_of_mem_of_not_mem hu ht
  simp [this]

/-- What a site weighs grows by a target that is no longer hidden. -/
theorem weight_reveal (distinct : (f.live i).Nodup) (ht : t ∈ f.live i) (fresh : t ∉ hidden) :
    f.weight hidden i = f.weight (t :: hidden) i + f.fullSize t := by
  unfold weight
  have perm : ((f.live i).filter fun u => u ∉ hidden).Perm
      (t :: (f.live i).filter fun u => u ∉ t :: hidden) := by
    refine (List.perm_ext_iff_of_nodup (distinct.filter _) ?_).2 fun u => ?_
    · refine List.nodup_cons.2 ⟨by simp, distinct.filter _⟩
    · by_cases hu : u = t
      · subst hu; simp [ht, fresh]
      · simp [hu]
  rw [(perm.map f.fullSize).sum_eq, List.map_cons, List.sum_cons, add_comm]

end Weight

theorem Corresponds.congr {f g : Forest} {p : Program} {t : TargetId} (h : f.Corresponds p t)
    (origin : g.origin? t = f.origin? t)
    (sited : ∀ o, f.origin? t = some o → f.call? o.site ≠ none)
    (call : ∀ {i k}, f.call? i = some k → g.call? i = some k)
    (sites : (f.callees t ++ f.deleted t).Perm (g.callees t ++ g.deleted t)) :
    g.Corresponds p t := by
  intro o k ho hk inlinable
  rw [origin] at ho
  obtain ⟨k', hk'⟩ := Option.ne_none_iff_exists'.1 (sited o ho)
  have same : k' = k := Option.some.inj ((call hk').symm.trans hk)
  subst same
  obtain ⟨found, perm, calls⟩ := h o k' ho hk' inlinable
  exact ⟨found, perm.trans sites, calls.imp fun _ _ => call⟩

section Settle

variable {f : Forest} {hidden : List TargetId} {t : TargetId} {i : SiteId} {o : Origin}
  {found : List SiteId}

/-- Found sites without targets weigh nothing. -/
theorem totalSize_eq (counted : ∀ j ∈ found, ∀ u ∈ f.live j, u ∉ hidden) :
    f.totalSize found = ((f.alive found).map (f.weight hidden)).sum := by
  have weight : ∀ j ∈ found, ((f.live j).map f.fullSize).sum = f.weight hidden j := by
    intro j hj
    have all : (f.live j).filter (fun u => u ∉ hidden) = f.live j :=
      List.filter_eq_self.2 fun u hu => by simpa using counted j hj u hu
    rw [weight, all]
  have dead : ((f.dead found).map (f.weight hidden)).sum = 0 := by
    apply List.sum_eq_zero
    intro w hw
    obtain ⟨j, hj, rfl⟩ := List.mem_map.1 hw
    simp [Forest.weight, (mem_dead.1 hj).2]
  have parts := ((f.alive_append_dead found).map (f.weight hidden)).sum_eq
  rw [List.map_append, List.sum_append, dead, add_zero] at parts
  rw [totalSize, List.map_congr_left weight, parts]

variable (hp : f.Pending i t)
include hp

/-- A settled target that is not too large is as large as what is inlined into it. -/
theorem settled_settle (ho : f.origin? t = some o) {limit : Size} (ht : t ∈ hidden)
    (counted : ∀ j ∈ found, ∀ u ∈ f.live j, u ∉ hidden)
    (fits : (f.settle t o.size found).fullSize t ≤ limit) :
    (f.settle t o.size found).Settled limit hidden t := by
  have weight : (f.settle t o.size found).weight hidden = f.weight hidden := by
    funext j
    refine weight_congr rfl fun u _ hu => ?_
    have : u ≠ t := (ne_of_mem_of_not_mem ht hu).symm
    simp [Forest.settle, this]
  have callees : (f.settle t o.size found).callees t = f.alive found := by
    simp [Forest.settle, hp.callees]
  refine ⟨⟨o, ho, ?_⟩, fits⟩
  rw [weight, callees, ← totalSize_eq counted]
  simp [Forest.settle]

/-- The callees of a settled target have targets that count. -/
theorem alive_settle {size : Size} (counted : ∀ j ∈ found, ∀ u ∈ f.live j, u ∉ hidden) :
    ∀ j ∈ (f.settle t size found).callees t, ∃ u ∈ (f.settle t size found).live j, u ∉ hidden := by
  intro j hj
  have hj : j ∈ f.alive found := by simpa [Forest.settle, hp.callees] using hj
  obtain ⟨hfound, hlive⟩ := mem_alive.1 hj
  obtain ⟨u, hu⟩ := List.exists_mem_of_ne_nil _ hlive
  exact ⟨u, hu, counted j hfound u hu⟩

/-- A settled target owns exactly the found sites. -/
theorem corresponds_settle (size : Size) (ho : f.origin? t = some o) {p : Program} {k : Call}
    (hk : f.call? o.site = some k)
    (calls : List.Forall₂ (fun j instruction =>
      f.call? j = some (.ofInstruction j o.method (k.depth + 1) instruction))
      found (p.instructionsOf o.method)) :
    (f.settle t size found).Corresponds p t := by
  intro o' k' ho' hk' _
  obtain rfl := Option.some.inj (ho.symm.trans ho')
  obtain rfl := Option.some.inj (hk.symm.trans hk')
  refine ⟨found, ?_, calls⟩
  simpa [Forest.settle, hp.callees, hp.deleted] using (f.alive_append_dead found).symm

end Settle

namespace Accounts

variable {f : Forest} {p : Program} {depth : Nat} {limit total : Size} {roots floating : List SiteId}
  {hidden unsettled : List TargetId} {i : SiteId} {t : TargetId}

theorem sited (sound : f.Sound depth) {o : Origin} (ho : f.origin? t = some o) :
    ∃ k, f.call? o.site = some k ∧ k.depth < depth :=
  sound.within (t := t) (by simp [home?, ho])

/-- Only which targets are exceptions matters, not their order. -/
theorem congr (h : f.Accounts p limit roots total hidden unsettled floating)
    {hidden' unsettled' : List TargetId} (hh : ∀ t, t ∈ hidden' ↔ t ∈ hidden)
    (hu : ∀ t, t ∈ unsettled' ↔ t ∈ unsettled) :
    f.Accounts p limit roots total hidden' unsettled' floating := by
  have weight : f.weight hidden' = f.weight hidden := by
    funext i
    refine weight_congr (List.filter_congr fun t _ => ?_) fun _ _ _ => rfl
    simp [hh]
  exact { h with
    known := fun t ht => h.known t ((hh t).1 ht)
    corresponds := fun t ht => h.corresponds t fun ht' => ht ((hu t).2 ht')
    callee_alive := by
      intro t i ht hi
      obtain ⟨u, hl, hu'⟩ := h.callee_alive (fun ht' => ht ((hh t).2 ht')) hi
      exact ⟨u, hl, fun hu'' => hu' ((hh u).1 hu'')⟩
    settled := by
      intro t i ht hl
      obtain ⟨sum, fits⟩ := h.settled (fun ht' => ht ((hh t).2 ht')) hl
      exact ⟨by rw [weight]; exact sum, fits⟩
    total := by
      rw [weight]
      exact h.total }

/-- A new site floats until it is owned or becomes a root. -/
theorem addSite (sound : f.Sound depth)
    (h : f.Accounts p limit roots total hidden unsettled floating) (fresh : f.call? i = none)
    (k : Call) :
    (f.addSite i k).Accounts p limit roots total hidden unsettled (floating ++ [i]) := by
  have kept : ∀ {j k'}, f.call? j = some k' → (f.addSite i k).call? j = some k' := by
    intro j k' hj
    have : j ≠ i := by rintro rfl; simp [fresh] at hj
    simpa [Forest.addSite, this] using hj
  have call_ne : ∀ {j}, j ≠ i → (f.addSite i k).call? j = f.call? j := by
    intro j hj
    simp [Forest.addSite, hj]
  have new : i ∉ roots ++ floating := by
    intro hi
    rcases List.mem_append.1 hi with hi | hi
    · obtain ⟨_, hk, _⟩ := h.root i hi
      simp [fresh] at hk
    · exact (h.floats i hi).1 fresh
  exact {
    known := h.known
    tops_distinct := by
      rw [← List.append_assoc]
      exact List.nodup_append'.2 ⟨h.tops_distinct, List.nodup_singleton i, by simpa using new⟩
    root := fun j hj => (h.root j hj).imp fun _ hk => ⟨kept hk.1, hk.2⟩
    floats := by
      intro j hj
      rcases List.mem_append.1 hj with hj | hj
      · have : j ≠ i := ne_of_mem_of_not_mem (List.mem_append_right _ hj) new
        exact ⟨by rw [call_ne this]; exact (h.floats j hj).1, (h.floats j hj).2⟩
      · rw [List.mem_singleton.1 hj]
        exact ⟨by simp [Forest.addSite], fun t => sound.not_owned_of_fresh fresh⟩
    held := by
      intro j hj
      by_cases e : j = i
      · exact .inl (by simp [e])
      · rw [call_ne e] at hj
        apply (h.held j hj).imp_left
        intro hj
        rw [← List.append_assoc]
        exact List.mem_append_left _ hj
    corresponds := by
      intro u hu
      refine (h.corresponds u hu).congr rfl (fun o ho => ?_) kept (.refl _)
      obtain ⟨_, hk, _⟩ := sited sound ho
      simp [hk]
    callee_alive := h.callee_alive
    settled := fun hu hl => ⟨(h.settled hu hl).sum, (h.settled hu hl).fits⟩
    total := by
      have empty : (f.addSite i k).weight hidden i = 0 := by
        simp [weight, Forest.addSite, sound.live_of_fresh fresh]
      have old : (roots ++ floating).filter (f.addSite i k).isTop = (roots ++ floating).filter f.isTop := by
        apply List.filter_congr
        intro j hj
        have : j ≠ i := ne_of_mem_of_not_mem hj new
        simp [isTop, call_ne this]
      rw [← List.append_assoc, List.filter_append, old, List.map_append, List.sum_append]
      have same : (f.addSite i k).weight hidden = f.weight hidden := rfl
      rw [same] at empty ⊢
      rw [← h.total]
      by_cases top : (f.addSite i k).isTop i
      · simp [top, empty]
      · simp [top] }

/-- A new target is hidden, and its body is not known yet. -/
theorem addTarget (sound : f.Sound depth)
    (h : f.Accounts p limit roots total hidden unsettled floating) (fresh : f.origin? t = none)
    (o : Origin) :
    (f.addTarget t o).Accounts p limit roots total (t :: hidden) (t :: unsettled) floating := by
  have weight : ∀ j, (f.addTarget t o).weight (t :: hidden) j = f.weight hidden j := by
    intro j
    have new : t ∉ f.live j := sound.not_live_of_fresh fresh
    refine weight_congr ?_ fun u hu _ => ?_
    · simp only [Forest.addTarget, Function.update_apply]
      have old : (f.live j).filter (fun u => u ∉ t :: hidden) = (f.live j).filter fun u => u ∉ hidden := by
        apply List.filter_congr
        intro u hu
        have : u ≠ t := ne_of_mem_of_not_mem hu new
        simp [this]
      split
      · subst j; rw [List.filter_append, old]; simp
      · exact old
    · have : u ≠ t := ne_of_mem_of_not_mem hu new
      simp [Forest.addTarget, this]
  exact {
    known := by
      intro u hu
      simp only [Forest.addTarget, Function.update_apply]
      split
      · simp
      · exact h.known u ((List.mem_cons.1 hu).resolve_left ‹_›)
    tops_distinct := h.tops_distinct
    root := h.root
    floats := h.floats
    held := h.held
    corresponds := by
      intro u hu
      rw [List.mem_cons, not_or] at hu
      refine (h.corresponds u hu.2).congr (by simp [Forest.addTarget, hu.1]) (fun o ho => ?_) id (.refl _)
      obtain ⟨_, hk, _⟩ := sited sound ho
      simp [hk]
    callee_alive := by
      intro u j hu hj
      rw [List.mem_cons, not_or] at hu
      obtain ⟨v, hv, hv'⟩ := h.callee_alive hu.2 hj
      have : v ≠ t := ne_of_mem_of_not_mem hv (sound.not_live_of_fresh fresh)
      refine ⟨v, ?_, by simp [this, hv']⟩
      simp only [Forest.addTarget, Function.update_apply]
      split
      · subst j; exact List.mem_append_left _ hv
      · exact hv
    settled := by
      intro u j hu hl
      rw [List.mem_cons, not_or] at hu
      have live : u ∈ f.live j := by
        simp only [Forest.addTarget, Function.update_apply] at hl
        split at hl
        · subst j; simpa [hu.1] using hl
        · exact hl
      obtain ⟨⟨o', ho', sum⟩, fits⟩ := h.settled hu.2 live
      have size : (f.addTarget t o).fullSize u = f.fullSize u := by simp [Forest.addTarget, hu.1]
      refine ⟨⟨o', by simpa [Forest.addTarget, hu.1] using ho', ?_⟩, by rw [size]; exact fits⟩
      rw [size, funext weight]
      exact sum
    total := by
      rw [funext weight]
      exact h.total }

/-- A target is no longer unsettled once its sites are the calls in its body. -/
theorem correspond (h : f.Accounts p limit roots total hidden (t :: unsettled) floating)
    (ht : f.Corresponds p t) : f.Accounts p limit roots total hidden unsettled floating :=
  { h with
    corresponds := by
      intro u hu
      by_cases e : u = t
      · exact e ▸ ht
      · exact h.corresponds u (by simp [e, hu]) }

/-- Settling a hidden target gives the sites in its body an owner. -/
theorem settle (sound : f.Sound depth) {found : List SiteId} (size : Size)
    (h : f.Accounts p limit roots total hidden (t :: unsettled) (floating ++ found))
    (hp : f.Pending i t) (hf : f.Found t found) (ht : t ∈ hidden) :
    (f.settle t size found).Accounts p limit roots total hidden (t :: unsettled) floating := by
  have owns {u j} := owns_settle (u := u) (j := j) size found hp
  have other : ∀ {u}, u ∉ hidden → u ≠ t := fun hu => (ne_of_mem_of_not_mem ht hu).symm
  have weight : (f.settle t size found).weight hidden = f.weight hidden := by
    funext j
    refine weight_congr rfl fun u _ hu => ?_
    simp [Forest.settle, other hu]
  have distinct := h.tops_distinct
  rw [← List.append_assoc] at distinct
  exact {
    known := h.known
    tops_distinct := (List.nodup_append'.1 distinct).1
    root := h.root
    floats := by
      intro j hj
      have old := h.floats j (List.mem_append_left _ hj)
      refine ⟨old.1, fun u ho => ?_⟩
      rcases owns.1 ho with ho | ⟨-, hj'⟩
      · exact old.2 u ho
      · exact List.disjoint_of_nodup_append distinct (List.mem_append_right _ hj) hj'
    held := by
      intro j hj
      rcases h.held j hj with hj | ⟨u, hu⟩
      · rw [← List.append_assoc] at hj
        rcases List.mem_append.1 hj with hj | hj
        · exact .inl hj
        · exact .inr ⟨t, owns.2 (.inr ⟨rfl, hj⟩)⟩
      · exact .inr ⟨u, owns.2 (.inl hu)⟩
    corresponds := by
      intro u hu
      have hut : u ≠ t := by rintro rfl; simp at hu
      refine (h.corresponds u hu).congr rfl (fun o ho => ?_) id ?_
      · obtain ⟨_, hk, _⟩ := sited sound ho
        simp [hk]
      · simp [Forest.settle, hut]
    callee_alive := by
      intro u j hu hj
      simp only [Forest.settle, Function.update_apply, other hu, if_false] at hj
      exact h.callee_alive hu hj
    settled := by
      intro u j hu hl
      obtain ⟨sum, fits⟩ := h.settled hu hl
      refine ⟨?_, by simpa [Forest.settle, other hu] using fits⟩
      rw [weight]
      simpa [Forest.settle, other hu] using sum
    total := by
      have inner : found.filter f.isTop = [] := by
        apply List.filter_eq_nil_iff.2
        intro j hj
        obtain ⟨_, _, _, _, _, hk, hd, _⟩ := hf.called j hj
        simp [isTop, hk, hd]
      have tops : (roots ++ (floating ++ found)).filter f.isTop = (roots ++ floating).filter f.isTop := by
        rw [← List.append_assoc, List.filter_append, inner, List.append_nil]
      rw [weight, h.total, tops]
      rfl }

/-- A hidden target without callees may be removed. -/
theorem retire (sound : f.Sound depth)
    (h : f.Accounts p limit roots total (t :: hidden) unsettled floating) (live : t ∈ f.live i)
    (bare : f.callees t = []) :
    (f.retire i t).Accounts p limit roots total hidden unsettled floating := by
  have distinct : (f.live i).Nodup := sound.live_nodup i
  have mem_live : ∀ {u j}, u ∈ (f.retire i t).live j ↔ u ∈ f.live j ∧ u ≠ t := by
    intro u j
    simp only [Forest.retire, Function.update_apply]
    split
    · subst j
      rw [distinct.mem_erase_iff, and_comm]
    · refine (and_iff_left_of_imp fun hu => ?_).symm
      rintro rfl
      exact ‹¬ j = i› (sound.home_unique hu live)
  have weight : (f.retire i t).weight hidden = f.weight (t :: hidden) := by
    funext j
    refine weight_congr ?_ fun _ _ _ => rfl
    simp only [Forest.retire, Function.update_apply]
    split
    · subst j
      rw [distinct.erase_eq_filter, List.filter_filter]
      apply List.filter_congr
      intro u _
      by_cases e : u = t <;> simp [e]
    · apply List.filter_congr
      intro u hu
      have : u ≠ t := by rintro rfl; exact ‹¬ j = i› (sound.home_unique hu live)
      simp [this]
  exact {
    known := fun u hu => h.known u (List.mem_cons_of_mem _ hu)
    tops_distinct := h.tops_distinct
    root := h.root
    floats := h.floats
    held := h.held
    corresponds := fun u hu => h.corresponds u hu
    callee_alive := by
      intro u j hu hj
      have hut : u ≠ t := by
        rintro rfl
        change j ∈ f.callees u at hj
        simp [bare] at hj
      obtain ⟨v, hv, hv'⟩ := h.callee_alive (t := u) (i := j) (by simp [hut, hu]) hj
      rw [List.mem_cons, not_or] at hv'
      exact ⟨v, mem_live.2 ⟨hv, hv'.1⟩, hv'.2⟩
    settled := by
      intro u j hu hl
      obtain ⟨hl, hut⟩ := mem_live.1 hl
      obtain ⟨sum, fits⟩ := h.settled (t := u) (by simp [hut, hu]) hl
      exact ⟨by rw [weight]; exact sum, fits⟩
    total := by
      rw [weight]
      exact h.total }

theorem not_isTop_of_owns (sound : f.Sound depth) (owner : f.Owns t i) : f.isTop i = false := by
  obtain ⟨_, _, _, _, _, hk, hd, _⟩ := sound.owned owner
  simp [isTop, hk, hd]

/-- A target may be hidden where no sum counts it: on a site that a hidden target owns. -/
theorem hide (sound : f.Sound depth) {u : TargetId}
    (h : f.Accounts p limit roots total hidden unsettled floating) (live : u ∈ f.live i)
    (owner : f.Owns t i) (ht : t ∈ hidden) :
    f.Accounts p limit roots total (u :: hidden) unsettled floating := by
  have elsewhere : ∀ {j}, j ≠ i → u ∉ f.live j := fun hj hl => hj (sound.home_unique hl live)
  have weight : ∀ {j}, j ≠ i → f.weight (u :: hidden) j = f.weight hidden j :=
    fun hj => weight_hide (elsewhere hj)
  have apart : ∀ {x j}, x ∉ hidden → j ∈ f.callees x → j ≠ i := by
    rintro x j hx hj rfl
    have : x = t := sound.owner_unique (List.mem_append_left _ hj) owner
    exact hx (this ▸ ht)
  exact { h with
    known := by
      intro x hx
      rcases List.mem_cons.1 hx with rfl | hx
      · intro fresh
        exact sound.not_live_of_fresh fresh live
      · exact h.known x hx
    callee_alive := by
      intro x j hx hj
      rw [List.mem_cons, not_or] at hx
      obtain ⟨v, hv, hv'⟩ := h.callee_alive hx.2 hj
      have : v ≠ u := ne_of_mem_of_not_mem hv (elsewhere (apart hx.2 hj))
      exact ⟨v, hv, by simp [this, hv']⟩
    settled := by
      intro x j hx hl
      rw [List.mem_cons, not_or] at hx
      obtain ⟨⟨o, ho, sum⟩, fits⟩ := h.settled hx.2 hl
      have same : (f.callees x).map (f.weight (u :: hidden)) = (f.callees x).map (f.weight hidden) :=
        List.map_congr_left fun j hj => weight (apart hx.2 hj)
      exact ⟨⟨o, ho, by rw [same]; exact sum⟩, fits⟩
    total := by
      have same : ((roots ++ floating).filter f.isTop).map (f.weight (u :: hidden)) =
          ((roots ++ floating).filter f.isTop).map (f.weight hidden) := by
        refine List.map_congr_left fun j hj => weight ?_
        rintro rfl
        have := not_isTop_of_owns sound owner
        simp_all
      rw [same]
      exact h.total }

theorem hideAll (sound : f.Sound depth) {us : List TargetId}
    (h : f.Accounts p limit roots total hidden unsettled floating) (live : ∀ u ∈ us, u ∈ f.live i)
    (owner : f.Owns t i) (ht : t ∈ hidden) :
    f.Accounts p limit roots total (us ++ hidden) unsettled floating := by
  induction us with
  | nil => exact h
  | cons u us ih =>
    exact (ih fun v hv => live v (List.mem_cons_of_mem _ hv)).hide sound (live u (List.mem_cons_self ..))
      owner (List.mem_append_right _ ht)

/-- A callee of a hidden target may be dropped with all its targets, which were hidden before. -/
theorem drop (sound : f.Sound depth)
    (h : f.Accounts p limit roots total (f.live i ++ hidden) unsettled floating) (ht : t ∈ hidden)
    (hi : i ∈ f.callees t) (bare : ∀ u ∈ f.live i, f.callees u = []) :
    ((f.retireAll i).dropCallee t i).Accounts p limit roots total hidden unsettled floating := by
  have owner : f.Owns t i := List.mem_append_left _ hi
  have owns {u j} : ((f.retireAll i).dropCallee t i).Owns u j ↔ f.Owns u j :=
    owns_dropCallee (f := f.retireAll i) hi
  have live : ∀ {j}, ((f.retireAll i).dropCallee t i).live j = if j = i then [] else f.live j := by
    intro j
    simp only [Forest.retireAll, Forest.dropCallee, Function.update_apply]
  have callees : ∀ {u}, u ∉ hidden → ((f.retireAll i).dropCallee t i).callees u = f.callees u := by
    intro u hu
    have : u ≠ t := (ne_of_mem_of_not_mem ht hu).symm
    simp [Forest.retireAll, Forest.dropCallee, this]
  have apart : ∀ {u j}, u ∉ hidden → j ∈ f.callees u → j ≠ i := by
    rintro u j hu hj rfl
    have : u = t := sound.owner_unique (List.mem_append_left _ hj) owner
    exact hu (this ▸ ht)
  have elsewhere : ∀ {u j}, j ≠ i → u ∈ f.live j → u ∉ f.live i :=
    fun hj hl hl' => hj (sound.home_unique hl hl')
  have weight : ((f.retireAll i).dropCallee t i).weight hidden = f.weight (f.live i ++ hidden) := by
    funext j
    refine weight_congr ?_ fun _ _ _ => rfl
    rw [live]
    split
    · subst j
      refine (List.filter_eq_nil_iff.2 fun u hu => ?_).symm
      simp [hu]
    next hj =>
      apply List.filter_congr
      intro u hu
      simp [elsewhere hj hu]
  exact {
    known := fun u hu => h.known u (List.mem_append_right _ hu)
    tops_distinct := h.tops_distinct
    root := h.root
    floats := fun j hj => ⟨(h.floats j hj).1, fun u ho => (h.floats j hj).2 u (owns.1 ho)⟩
    held := fun j hj => (h.held j hj).imp_right (Exists.imp fun _ => owns.2)
    corresponds := by
      intro u hu
      refine (h.corresponds u hu).congr rfl (fun o ho => ?_) id ?_
      · obtain ⟨_, hk, _⟩ := sited sound ho
        simp [hk]
      · by_cases e : u = t
        · subst e
          simpa [Forest.retireAll, Forest.dropCallee] using perm_move hi (f.deleted u)
        · simp [Forest.retireAll, Forest.dropCallee, e]
    callee_alive := by
      intro u j hu hj
      rw [callees hu] at hj
      have hul : u ∉ f.live i := fun hl => by simp [bare u hl] at hj
      obtain ⟨v, hv, hv'⟩ := h.callee_alive (t := u) (by simp [hul, hu]) hj
      refine ⟨v, ?_, fun hv'' => hv' (List.mem_append_right _ hv'')⟩
      rw [live, if_neg (apart hu hj)]
      exact hv
    settled := by
      intro u j hu hl
      rw [live] at hl
      split at hl
      · simp at hl
      next hj =>
        obtain ⟨⟨o, ho, sum⟩, fits⟩ := h.settled (t := u) (by simp [elsewhere hj hl, hu]) hl
        exact ⟨⟨o, ho, by rw [weight, callees hu]; exact sum⟩, fits⟩
    total := by
      rw [weight]
      exact h.total }

/-- A settled target counts from now on; on a site of a compiled method it is charged. -/
theorem accept (sound : f.Sound depth)
    (h : f.Accounts p limit roots total (t :: hidden) unsettled floating) (live : t ∈ f.live i)
    (fresh : t ∉ hidden) (settled : f.Settled limit (t :: hidden) t)
    (alive : ∀ j ∈ f.callees t, ∃ u ∈ f.live j, u ∉ t :: hidden) (unowned : ∀ u, ¬ f.Owns u i) :
    f.Accounts p limit roots (if f.isTop i then total + f.fullSize t else total) hidden unsettled
      floating := by
  have distinct : (f.live i).Nodup := sound.live_nodup i
  have elsewhere : ∀ {j}, j ≠ i → f.weight hidden j = f.weight (t :: hidden) j := by
    intro j hj
    exact (weight_hide fun hl => hj (sound.home_unique hl live)).symm
  have here := weight_reveal distinct live fresh
  have sums : ∀ u, (f.callees u).map (f.weight hidden) = (f.callees u).map (f.weight (t :: hidden)) := by
    intro u
    refine List.map_congr_left fun j hj => elsewhere ?_
    rintro rfl
    exact unowned u (List.mem_append_left _ hj)
  exact { h with
    known := fun u hu => h.known u (List.mem_cons_of_mem _ hu)
    callee_alive := by
      intro u j hu hj
      by_cases e : u = t
      · subst e
        obtain ⟨v, hv, hv'⟩ := alive j hj
        exact ⟨v, hv, fun hv'' => hv' (List.mem_cons_of_mem _ hv'')⟩
      · obtain ⟨v, hv, hv'⟩ := h.callee_alive (t := u) (by simp [e, hu]) hj
        exact ⟨v, hv, fun hv'' => hv' (List.mem_cons_of_mem _ hv'')⟩
    settled := by
      intro u j hu hl
      have old : f.Settled limit (t :: hidden) u := by
        by_cases e : u = t
        · exact e ▸ settled
        · exact h.settled (by simp [e, hu]) hl
      obtain ⟨⟨o, ho, sum⟩, fits⟩ := old
      exact ⟨⟨o, ho, by rw [sums]; exact sum⟩, fits⟩
    total := by
      have tops := h.tops_distinct.filter f.isTop
      split
      next top =>
        have held : i ∈ roots ++ floating := by
          refine (h.held i ?_).resolve_right fun ⟨u, hu⟩ => unowned u hu
          obtain ⟨k, hk, _⟩ := sound.within (sound.home live)
          simp [hk]
        rw [h.total]
        exact (sum_map_gain tops (List.mem_filter.2 ⟨held, top⟩) (fun j _ hj => elsewhere hj) here).symm
      next top =>
        rw [h.total]
        refine congrArg List.sum (List.map_congr_left fun j hj => (elsewhere ?_).symm)
        rintro rfl
        exact top (List.mem_filter.1 hj).2 }

end Accounts

end Forest

end Inlining
