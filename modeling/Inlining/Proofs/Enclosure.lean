import Inlining.Proofs.Accounts

/-!
# The bodies around a site

`Forest.Encloses` is the way from a site up to the body of a compiled method: through live
targets that still have the site below as a callee. A target that is added to an enclosed site
counts for every body on that way. `Accounts.acceptWithin` says that enlarging each of them by
the size of the new target, and the total as well, settles the accounts again: the surplus of
one site is handed up from body to body (`Surplus.raise`) until it reaches a site of a compiled
method (`Surplus.settle`).
-/

namespace Inlining

namespace Forest

/-- The targets whose bodies enclose a site, the innermost first. -/
def Encloses (f : Forest) : List TargetId → SiteId → Prop
  | [], i => ∃ k, f.call? i = some k ∧ k.depth = 0
  | e :: rest, i => i ∈ f.callees e ∧ ∃ j, e ∈ f.live j ∧ Encloses f rest j

/-- Enlarges targets one after the other. -/
def enlargeAll (f : Forest) (a : Size) (ts : List TargetId) : Forest :=
  ts.foldl (fun f t => f.enlarge a t) f

variable {f : Forest} {depth : Nat} {limit total a : Size} {chain hidden : List TargetId}
  {i j : SiteId} {e : TargetId}

/-- Enclosing targets live on sites further up. -/
theorem Encloses.live_above (sound : f.Sound depth) (h : f.Encloses chain i) :
    ∀ x ∈ chain, ∃ j k k', x ∈ f.live j ∧ f.call? j = some k ∧ f.call? i = some k' ∧
      k.depth < k'.depth := by
  induction chain generalizing i with
  | nil => intro x hx; simp at hx
  | cons e rest ih =>
    obtain ⟨hi, j, he, hj⟩ := h
    obtain ⟨o, k, k', ho, hk, hk', hd, _⟩ := sound.owned (List.mem_append_left _ hi)
    rw [sound.site_of_live ho he] at hk
    intro x hx
    rcases List.mem_cons.1 hx with rfl | hx
    · exact ⟨j, k, k', he, hk, hk', by omega⟩
    · obtain ⟨j', k₁, k₂, hx, h₁, h₂, hlt⟩ := ih hj x hx
      obtain rfl : k₂ = k := Option.some.inj (h₂.symm.trans hk)
      exact ⟨j', k₁, k', hx, h₁, hk', by omega⟩

theorem Encloses.not_mem (sound : f.Sound depth) (h : f.Encloses chain j) (he : e ∈ f.live j) :
    e ∉ chain := by
  intro hmem
  obtain ⟨j', k, k', he', hk, hk', hd⟩ := h.live_above sound e hmem
  obtain rfl : j' = j := sound.home_unique he' he
  obtain rfl : k = k' := Option.some.inj (hk.symm.trans hk')
  exact Nat.lt_irrefl _ hd

/-- Enlarging a target changes nothing that enclosing depends on. -/
theorem Encloses.enlarge (h : f.Encloses chain i) : (f.enlarge a e).Encloses chain i := by
  induction chain generalizing i with
  | nil => exact h
  | cons x rest ih =>
    obtain ⟨hi, j, hx, hj⟩ := h
    exact ⟨hi, j, hx, ih hj⟩

theorem enlargeAll_reverse (ts : List TargetId) : f.enlargeAll a ts.reverse = f.enlargeAll a ts := by
  have comm : RightCommutative fun (f : Forest) t => f.enlarge a t := by
    refine ⟨fun f x y => ?_⟩
    ext1
    case fullSize =>
      funext t
      simp only [Forest.enlarge, Function.update_apply]
      grind
    all_goals rfl
  exact ts.reverse_perm.foldl_eq f

/-- Every size and the total are right for the weights `w`, and the site `i` weighs `a` more than
that. -/
structure Surplus (f : Forest) (limit total : Size) (tops : List SiteId) (hidden : List TargetId)
    (w : SiteId → Size) (i : SiteId) (a : Size) : Prop where
  elsewhere : ∀ j, j ≠ i → f.weight hidden j = w j
  here : f.weight hidden i = w i + a
  sum : ∀ {u j}, u ∉ hidden → u ∈ f.live j →
    ∃ o, f.origin? u = some o ∧ f.fullSize u = o.size + ((f.callees u).map w).sum
  fits : ∀ {u j}, u ∉ hidden → u ∈ f.live j → f.fullSize u ≤ limit
  total : total = ((tops.filter f.isTop).map w).sum

namespace Surplus

variable {tops : List SiteId} {w : SiteId → Size}

/-- The surplus of a site is that of the site around it once the body between them has grown. -/
theorem raise (sound : f.Sound depth) (h : f.Surplus limit total tops hidden w i a)
    (hi : i ∈ f.callees e) (he : e ∈ f.live j) (shown : e ∉ hidden)
    (fits : f.fullSize e + a ≤ limit) :
    (f.enlarge a e).Surplus limit total tops hidden (f.weight hidden) j a := by
  have owner : f.Owns e i := List.mem_append_left _ hi
  have distinct : (f.live j).Nodup := sound.live_nodup j
  have grown : ∀ u, (f.enlarge a e).fullSize u = if u = e then f.fullSize e + a else f.fullSize u := by
    intro u
    simp only [Forest.enlarge, Function.update_apply]
  exact {
    elsewhere := by
      intro j' hj'
      refine weight_congr rfl fun u hu _ => ?_
      have : u ≠ e := by rintro rfl; exact hj' (sound.home_unique hu he)
      rw [grown, if_neg this]
    here := by
      refine sum_map_gain (distinct.filter _) (List.mem_filter.2 ⟨he, by simpa using shown⟩) ?_ ?_
      · intro u _ hu
        rw [grown, if_neg hu]
      · rw [grown, if_pos rfl]
    sum := by
      intro u j' hu hl
      obtain ⟨o, ho, sum⟩ := h.sum hu hl
      refine ⟨o, ho, ?_⟩
      rw [grown]
      show _ = o.size + ((f.callees u).map (f.weight hidden)).sum
      split
      next e' =>
        subst e'
        have callees : (f.callees u).Nodup := (List.nodup_append'.1 (sound.owned_distinct u)).1
        rw [sum, sum_map_gain callees hi (fun j _ hj => h.elsewhere j hj) h.here, add_assoc]
      next e' =>
        rw [sum]
        refine congrArg _ (congrArg List.sum (List.map_congr_left fun j hj => (h.elsewhere j ?_).symm))
        rintro rfl
        exact e' (sound.owner_unique (List.mem_append_left _ hj) owner)
    fits := by
      intro u j' hu hl
      rw [grown]
      split
      · exact fits
      · exact h.fits hu hl
    total := by
      refine h.total.trans (congrArg List.sum (List.map_congr_left fun j hj => (h.elsewhere j ?_).symm))
      rintro rfl
      have := Accounts.not_isTop_of_owns sound owner
      simp_all }

/-- The surplus of a site of a compiled method belongs to the total. -/
theorem settle (sound : f.Sound depth) (h : f.Surplus limit total tops hidden w i a) {k : Call}
    (hk : f.call? i = some k) (hd : k.depth = 0) (distinct : tops.Nodup) (hi : i ∈ tops) :
    (∀ {u j}, u ∉ hidden → u ∈ f.live j → f.Settled limit hidden u) ∧
      total + a = ((tops.filter f.isTop).map (f.weight hidden)).sum := by
  have top : f.isTop i := by simp [isTop, hk, hd]
  refine ⟨fun {u j} hu hl => ⟨?_, h.fits hu hl⟩, ?_⟩
  · obtain ⟨o, ho, sum⟩ := h.sum hu hl
    refine ⟨o, ho, sum.trans ?_⟩
    refine congrArg _ (congrArg List.sum (List.map_congr_left fun j hj => (h.elsewhere j ?_).symm))
    rintro rfl
    exact sound.not_owns_top hk hd (List.mem_append_left _ hj)
  · rw [h.total]
    exact (sum_map_gain (distinct.filter _) (List.mem_filter.2 ⟨hi, top⟩)
      (fun j _ hj => h.elsewhere j hj) h.here).symm

end Surplus

/-- Enlarging all bodies around a site by its surplus settles sizes and total. -/
theorem Encloses.settle (sound : f.Sound depth) (h : f.Encloses chain i) {tops : List SiteId}
    {w : SiteId → Size} (surplus : f.Surplus limit total tops hidden w i a) (distinct : tops.Nodup)
    (held : ∀ {j k}, f.call? j = some k → k.depth = 0 → j ∈ tops)
    (shown : ∀ e ∈ chain, e ∉ hidden) (fits : ∀ e ∈ chain, f.fullSize e + a ≤ limit) :
    (∀ {u j}, u ∉ hidden → u ∈ f.live j → (f.enlargeAll a chain).Settled limit hidden u) ∧
      total + a = ((tops.filter f.isTop).map ((f.enlargeAll a chain).weight hidden)).sum := by
  induction chain generalizing f w i with
  | nil =>
    obtain ⟨k, hk, hd⟩ := h
    exact surplus.settle sound hk hd distinct (held hk hd)
  | cons e rest ih =>
    obtain ⟨hi, j, he, hj⟩ := h
    have raised := surplus.raise sound hi he (shown e (List.mem_cons_self ..))
      (fits e (List.mem_cons_self ..))
    refine ih (f := f.enlarge a e) sound.enlarge hj.enlarge raised held
      (fun x hx => shown x (List.mem_cons_of_mem _ hx)) fun x hx => ?_
    have : x ≠ e := ne_of_mem_of_not_mem hx (hj.not_mem sound he)
    simpa [Forest.enlarge, this] using fits x (List.mem_cons_of_mem _ hx)

namespace Accounts

variable {p : Program} {roots floating : List SiteId} {unsettled : List TargetId} {t : TargetId}

theorem enlargeAll_eq (ts : List TargetId) :
    ∃ sizes, f.enlargeAll a ts = { f with fullSize := sizes } := by
  induction ts generalizing f with
  | nil => exact ⟨_, rfl⟩
  | cons t ts ih =>
    obtain ⟨sizes, h⟩ := ih (f := f.enlarge a t)
    exact ⟨sizes, h⟩

/-- A settled target inside some bodies counts from now on; these bodies and the total are
charged. -/
theorem acceptWithin (sound : f.Sound depth)
    (h : f.Accounts p limit roots total (t :: hidden) unsettled floating) (live : t ∈ f.live i)
    (fresh : t ∉ hidden) (settled : f.Settled limit (t :: hidden) t)
    (alive : ∀ j ∈ f.callees t, ∃ u ∈ f.live j, u ∉ t :: hidden) (encloses : f.Encloses chain i)
    (shown : ∀ e ∈ chain, e ∉ t :: hidden)
    (fits : ∀ e ∈ chain, f.fullSize e + f.fullSize t ≤ limit) :
    (f.enlargeAll (f.fullSize t) chain).Accounts p limit roots (total + f.fullSize t) hidden
      unsettled floating := by
  have distinct : (f.live i).Nodup := sound.live_nodup i
  have surplus : f.Surplus limit total (roots ++ floating) hidden (f.weight (t :: hidden)) i
      (f.fullSize t) := {
    elsewhere := fun j hj => (weight_hide fun hl => hj (sound.home_unique hl live)).symm
    here := weight_reveal distinct live fresh
    sum := by
      intro u j hu hl
      by_cases e : u = t
      · exact e ▸ settled.sum
      · exact (h.settled (by simp [e, hu]) hl).sum
    fits := by
      intro u j hu hl
      by_cases e : u = t
      · exact e ▸ settled.fits
      · exact (h.settled (by simp [e, hu]) hl).fits
    total := h.total }
  have held : ∀ {j k}, f.call? j = some k → k.depth = 0 → j ∈ roots ++ floating := by
    intro j k hk hd
    exact (h.held j (by simp [hk])).resolve_right fun ⟨u, hu⟩ => sound.not_owns_top hk hd hu
  have charged := encloses.settle sound surplus h.tops_distinct held
    (fun e he hh => shown e he (List.mem_cons_of_mem _ hh)) fits
  obtain ⟨sizes, eq⟩ := enlargeAll_eq (f := f) (a := f.fullSize t) chain
  rw [eq] at charged ⊢
  exact {
    known := fun u hu => h.known u (List.mem_cons_of_mem _ hu)
    tops_distinct := h.tops_distinct
    root := h.root
    floats := h.floats
    held := h.held
    corresponds := h.corresponds
    callee_alive := by
      intro u j hu hj
      by_cases e : u = t
      · subst e
        obtain ⟨v, hv, hv'⟩ := alive j hj
        exact ⟨v, hv, fun hv'' => hv' (List.mem_cons_of_mem _ hv'')⟩
      · obtain ⟨v, hv, hv'⟩ := h.callee_alive (t := u) (by simp [e, hu]) hj
        exact ⟨v, hv, fun hv'' => hv' (List.mem_cons_of_mem _ hv'')⟩
    settled := charged.1
    total := charged.2 }

end Accounts

end Forest

namespace Region

variable {r : Region} {depth : Nat}

theorem owner?_eq_some {i : SiteId} {e : TargetId} {x : CallTarget}
    (h : r.owner? i = some (e, x)) : r.targets.get? e = some x ∧ i ∈ x.callees := by
  have mem := List.mem_of_find?_eq_some h
  have owns := List.find?_some h
  exact ⟨Arena.mem_entries_iff.1 mem, by simpa using owns⟩

theorem encloses_of_enclosingFrom (sound : r.forest.Sound depth) {d : Nat} {i : SiteId} {k : Call}
    {inner chain : List TargetId} (h : r.enclosingFrom inner d i = some chain)
    (hk : r.forest.call? i = some k) (hd : k.depth = d) :
    ∃ path, chain = path.reverse ++ inner ∧ r.forest.Encloses path i := by
  induction d generalizing i k inner with
  | zero =>
    cases h
    exact ⟨[], rfl, k, hk, hd⟩
  | succ d ih =>
    obtain ⟨⟨e, x⟩, owner, h⟩ := Option.bind_eq_some_iff.1 h
    obtain ⟨hx, hi⟩ := owner?_eq_some owner
    dsimp only at h
    split at h
    next live =>
      have callee : i ∈ r.forest.callees e := by simpa [forest, hx] using hi
      obtain ⟨o, k₁, k₂, ho, h₁, h₂, hd', _⟩ := sound.owned (List.mem_append_left _ callee)
      have home : o.site = x.callSite := by
        have : some (⟨x.callSite, x.method, x.size⟩ : Origin) = some o := by simpa [forest, hx] using ho
        cases this
        rfl
      rw [home] at h₁
      obtain rfl := Option.some.inj (h₂.symm.trans hk)
      have live : e ∈ r.forest.live x.callSite := List.contains_iff_mem.1 live
      obtain ⟨path, eq, encl⟩ := ih h h₁ (by omega)
      exact ⟨e :: path, by simpa using eq, callee, x.callSite, live, encl⟩
    next => cases h

/-- The targets that are found to enclose a site do so. -/
theorem encloses_of_enclosing? (sound : r.forest.Sound depth) {id : SiteId} {s : CallSite}
    {chain : List TargetId} (hs : r.sites.get? id = some s) (h : r.enclosing? s = some chain) :
    r.forest.Encloses chain.reverse id := by
  have hk : r.forest.call? id = some s.toCall := by simp [forest, hs]
  have same : s.id = id := sound.call_id hk
  unfold enclosing? at h
  rw [same] at h
  obtain ⟨path, rfl, encl⟩ := encloses_of_enclosingFrom sound h hk rfl
  simpa using encl

/-- Whoever owns a site as a callee is found. -/
theorem owner?_of_callee (sound : r.forest.Sound depth) {i : SiteId} {e : TargetId}
    (hi : i ∈ r.forest.callees e) : ∃ x, r.owner? i = some (e, x) ∧ r.targets.get? e = some x := by
  have known : ∃ x, r.targets.get? e = some x ∧ i ∈ x.callees := by
    cases hx : r.targets.get? e with
    | none => simp [forest, hx] at hi
    | some x => exact ⟨x, rfl, by simpa [forest, hx] using hi⟩
  obtain ⟨x, hx, mem⟩ := known
  have found : (r.owner? i).isSome := by
    rw [owner?, List.find?_isSome]
    exact ⟨(e, x), Arena.mem_entries_iff.2 hx, by simpa using mem⟩
  obtain ⟨⟨e', x'⟩, owner⟩ := Option.isSome_iff_exists.1 found
  obtain ⟨hx', mem'⟩ := owner?_eq_some owner
  have callee : i ∈ r.forest.callees e' := by simpa [forest, hx'] using mem'
  obtain rfl := sound.owner_unique (List.mem_append_left _ callee) (List.mem_append_left _ hi)
  exact ⟨x', owner, hx'⟩

theorem enclosingFrom_of_encloses (sound : r.forest.Sound depth) {path : List TargetId} {i : SiteId}
    {k : Call} (h : r.forest.Encloses path i) (hk : r.forest.call? i = some k)
    (inner : List TargetId) : r.enclosingFrom inner k.depth i = some (path.reverse ++ inner) := by
  induction path generalizing i k inner with
  | nil =>
    obtain ⟨k', hk', top⟩ := h
    obtain rfl := Option.some.inj (hk.symm.trans hk')
    rw [top]
    rfl
  | cons e rest ih =>
    obtain ⟨hi, j, he, hj⟩ := h
    obtain ⟨o, k₁, k₂, ho, h₁, h₂, deeper, -⟩ := sound.owned (List.mem_append_left _ hi)
    obtain rfl := Option.some.inj (hk.symm.trans h₂)
    obtain ⟨x, owner, hx⟩ := owner?_of_callee sound hi
    have home : x.callSite = j := by
      rw [forest_origin hx] at ho
      cases ho
      exact sound.site_of_live (forest_origin hx) he
    rw [sound.site_of_live ho he] at h₁
    have live : e ∈ r.liveTargets j := he
    rw [deeper]
    simp [enclosingFrom, owner, home, live, ih hj h₁]

/-- The targets that are found to enclose a site are those that do. -/
theorem enclosing?_eq_some_iff (sound : r.forest.Sound depth) {id : SiteId} {s : CallSite}
    {chain : List TargetId} (hs : r.sites.get? id = some s) :
    r.enclosing? s = some chain ↔ r.forest.Encloses chain.reverse id := by
  refine ⟨encloses_of_enclosing? sound hs, fun h => ?_⟩
  have hk := forest_call hs
  have same : s.id = id := sound.call_id hk
  rw [enclosing?, same, enclosingFrom_of_encloses sound h hk]
  simp

theorem forest_grow_eq (ts : List TargetId) (hts : ∀ t ∈ ts, r.targets.get? t ≠ none) (size : Size) :
    (r.grow ts size).forest = r.forest.enlargeAll size ts :=
  forest_grow r hts size

end Region

end Inlining
