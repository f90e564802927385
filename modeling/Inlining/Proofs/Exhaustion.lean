import Inlining.Proofs.Effects
import Inlining.Proofs.Frames
import Inlining.Proofs.Pruning

/-!
# Exhausted sites

A site is exhausted once every method that a call from its place may be bound to has a target on
it, live or removed: resolving it again finds only duplicates and methods that were ruled out.
Resolving a site exhausts it (`SiteScope.has_resolved`), and it stays exhausted, since targets
never leave a site and ever more counts as inlined earlier. `Forest.Complete` says that of a site
and of everything that lives below it, each site judged by the frames that stand around it.
-/

namespace Inlining

namespace SiteScope

variable {s : SiteScope} {m : MethodId}

/-- The method has a target on the site, live or removed. -/
def Has (s : SiteScope) (m : MethodId) : Prop :=
  ∃ t x, (t ∈ s.site.live ∨ t ∈ s.site.removed) ∧ s.targets.get? t = some x ∧ x.method = m

theorem Extends.has {s' : SiteScope} (h : s.Extends s') (has : s.Has m) : s'.Has m := by
  obtain ⟨t, x, ht, hx, hm⟩ := has
  exact ⟨t, x, ht.imp (h.live.subset ·) fun ht => by rwa [h.removed], h.target hx, hm⟩

theorem has_of_ruledOut (h : m ∈ s.ruledOut) : s.Has m := by
  obtain ⟨x, hx, rfl⟩ := List.mem_map.1 h
  obtain ⟨t, ht, hx⟩ := List.mem_filterMap.1 (List.mem_filter.1 hx).1
  exact ⟨t, x, .inr ht, hx, rfl⟩

theorem has_of_alreadyInlined (h : m ∈ s.alreadyInlined) : s.Has m := by
  obtain ⟨x, hx, rfl⟩ := List.mem_map.1 h
  obtain ⟨t, ht, hx⟩ := List.mem_filterMap.1 (List.mem_filter.1 hx).1
  exact ⟨t, x, List.mem_append.1 ht, hx, rfl⟩

theorem has_of_binds (h : s.binds m = true) : s.Has m := by
  obtain ⟨x, hx, hm⟩ := List.any_eq_true.1 h
  obtain ⟨t, ht, hx⟩ := List.mem_filterMap.1 hx
  exact ⟨t, x, .inl ht, hx, by simpa using hm⟩

/-- A candidate that is not taken has a target on the site already. -/
theorem has_take {p : Program} {ruledOut : List MethodId} {b : Candidate}
    (hr : b.method ∈ ruledOut → s.Has b.method) : (s.take p ruledOut b).Has b.method := by
  unfold take
  split
  next skipped =>
    rw [Bool.or_eq_true, List.contains_iff_mem] at skipped
    exact skipped.elim has_of_binds hr
  next =>
    exact ⟨s.targets.next, { s.targetOf p b with callSite := s.site.id },
      .inl (List.mem_append_right _ (List.mem_singleton_self _)), by simp [add, Arena.get?_alloc],
      s.method_targetOf p b⟩

theorem has_takeAll {p : Program} {ruledOut : List MethodId} (hr : ∀ m ∈ ruledOut, s.Has m)
    {bs : List Candidate} {b : Candidate} (hb : b ∈ bs) :
    (bs.foldl (·.take p ruledOut) s).Has b.method := by
  induction bs generalizing s with
  | nil => cases hb
  | cons b' bs ih =>
    rw [List.foldl_cons]
    rcases List.mem_cons.1 hb with rfl | hb
    · exact (extends_takeAll ..).has (has_take (hr _))
    · exact ih (fun m hm => (extends_take ..).has (hr m hm)) hb

/-- After a resolution the site has every method that may be bound at its place. -/
theorem has_resolved {env : Environment} {stack : CallStack} {methods : List MethodId}
    {earlier : List InlinedRecord} (stands : stack.Stands methods earlier) {b : Candidate}
    (offers : env.Offers methods earlier s.site.toCall b) : (s.resolved env stack).Has b.method := by
  by_cases old : b.method ∈ s.visited.alreadyInlined
  · exact ((extends_takeAll ..).trans (extends_conclude ..)).has (has_of_alreadyInlined old)
  · have candidate := (Environment.mem_candidates_iff stands).2 ⟨offers, old⟩
    exact (extends_conclude ..).has (has_takeAll (fun _ hm => has_of_ruledOut hm) candidate)

end SiteScope

namespace Forest

/-- The sites below a depth, and the targets on them, hold what lives below each of them. -/
theorem Sound.closed_deeper {f : Forest} {depth : Nat} (sound : f.Sound depth) (d : Nat) :
    f.Closed {i | ∀ k, f.call? i = some k → d < k.depth}
      {t | ∀ i k, f.home? t = some i → f.call? i = some k → d < k.depth} where
  sites ht hi := (sound.closed_below d).sites (fun i k hi hk => (ht i k hi hk).le) hi
  targets hi ht j k hj hk := by
    obtain rfl := Option.some.inj ((sound.home ht).symm.trans hj)
    exact hi k hk

variable (f : Forest) (env : Environment)

/-- Every method that may be bound at a site inside frames of `methods` has a target on it. -/
structure Exhausted (earlier : List InlinedRecord) (methods : List MethodId) (i : SiteId) (k : Call) :
    Prop where
  call : f.call? i = some k
  checked : k.Checked env
  taken : ∀ b, env.Offers methods earlier k b →
    ∃ t o, f.origin? t = some o ∧ o.site = i ∧ o.method = b.method

/-- A site is exhausted inside frames of `methods`, and so is every site that lives below it. -/
inductive Complete (earlier : List InlinedRecord) : List MethodId → SiteId → Prop
  | mk {methods : List MethodId} {i : SiteId} {k : Call} :
    f.Exhausted env earlier methods i k →
    (∀ t o, t ∈ f.live i → f.origin? t = some o → ∀ j ∈ f.callees t,
      Complete earlier (o.method :: methods) j) →
    Complete earlier methods i

/-- Everything that lives in the body of a target is exhausted. -/
def CompleteBelow (earlier : List InlinedRecord) (methods : List MethodId) (t : TargetId) : Prop :=
  ∀ o, f.origin? t = some o → ∀ j ∈ f.callees t, f.Complete env earlier (o.method :: methods) j

variable {f env} {earlier later : List InlinedRecord} {methods : List MethodId} {i : SiteId} {k : Call}

/-- What is complete below a compiled method is complete inside each of its bodies. -/
theorem Complete.of_frames (tops : ∀ j k, f.call? j = some k → k.depth = 0 →
    f.Complete env earlier [k.caller] j) {root : MethodId} {chain : List TargetId}
    (frames : f.Frames root chain i methods) : f.Complete env earlier methods i := by
  induction frames with
  | root hk top caller => exact caller ▸ tops _ _ hk top
  | body hi he ho _ ih =>
    cases ih with
    | mk _ below => exact below _ _ he ho _ hi

/-- The more was inlined earlier, the less is missing. -/
theorem Complete.mono (more : earlier ⊆ later) (h : f.Complete env earlier methods i) :
    f.Complete env later methods i := by
  induction h with
  | mk exhausted _ ih =>
    exact .mk { exhausted with taken := fun b offers => exhausted.taken b (offers.antitone more) } ih

/-- From `f` to `f'` the sites `S` kept their live targets and the targets `T` their callees. -/
structure Preserves (f f' : Forest) (S : Set SiteId) (T : Set TargetId) : Prop where
  call : ∀ {i k}, f.call? i = some k → f'.call? i = some k
  origin : ∀ {t o}, f.origin? t = some o → f'.origin? t = some o
  live : ∀ {i}, i ∈ S → f.call? i ≠ none → f'.live i = f.live i
  callees : ∀ {t}, t ∈ T → f.origin? t ≠ none → f'.callees t = f.callees t

section Preserves

variable {f' : Forest} {S : Set SiteId} {T : Set TargetId} {depth : Nat}

theorem Preserves.exhausted (kept : f.Preserves f' S T) (more : earlier ⊆ later)
    (h : f.Exhausted env earlier methods i k) : f'.Exhausted env later methods i k where
  call := kept.call h.call
  checked := h.checked
  taken b offers := by
    obtain ⟨t, o, ho, same⟩ := h.taken b (offers.antitone more)
    exact ⟨t, o, kept.origin ho, same⟩

/-- A site stays complete where neither it nor anything below it changes. -/
theorem Preserves.complete (kept : f.Preserves f' S T) (sound : f.Sound depth) (closed : f.Closed S T)
    (more : earlier ⊆ later) (hi : i ∈ S) (h : f.Complete env earlier methods i) :
    f'.Complete env later methods i := by
  induction h with
  | @mk methods i k exhausted _ ih =>
    refine .mk (kept.exhausted more exhausted) fun t o ht ho j hj => ?_
    rw [kept.live hi (by simp [exhausted.call])] at ht
    obtain ⟨o', ho', -⟩ := sound.origin_of_live ht
    obtain rfl := Option.some.inj ((kept.origin ho').symm.trans ho)
    have within := closed.targets hi ht
    rw [kept.callees within (by simp [ho'])] at hj
    exact ih t o' ht ho' j hj (closed.sites within hj)

/-- What lives in the body of a target stays complete where nothing below the target's site
changes. -/
theorem Preserves.completeBelow {t : TargetId} {k : Call}
    (kept : f.Preserves f' {i | ∀ k', f.call? i = some k' → k.depth < k'.depth} T)
    (deeper : {t | ∀ i k', f.home? t = some i → f.call? i = some k' → k.depth < k'.depth} ⊆ T)
    (ht : t ∈ T) (sound : f.Sound depth) (more : earlier ⊆ later) (hk : f.call? i = some k)
    (live : t ∈ f.live i) (h : f.CompleteBelow env earlier methods t) :
    f'.CompleteBelow env later methods t := by
  intro o ho j hj
  obtain ⟨o', ho', home⟩ := sound.origin_of_live live
  obtain rfl := Option.some.inj ((kept.origin ho').symm.trans ho)
  rw [kept.callees ht (by simp [ho'])] at hj
  have closed := sound.closed_deeper k.depth
  refine Preserves.complete ⟨kept.call, kept.origin, kept.live, fun hu => kept.callees (deeper hu)⟩ sound
    closed more (fun k' hk' => ?_) (h o' ho' j hj)
  obtain ⟨o₂, k₁, k₂, ho₂, h₁, h₂, lower, -⟩ := sound.owned (List.mem_append_left _ hj)
  obtain rfl := Option.some.inj (ho'.symm.trans ho₂)
  rw [home, hk] at h₁
  obtain rfl := Option.some.inj h₁
  obtain rfl := Option.some.inj (h₂.symm.trans hk')
  omega

end Preserves

end Forest

namespace Region

variable {r r' : Region} {env : Environment} {earlier later : List InlinedRecord}
  {methods : List MethodId} {i : SiteId} {S S' : Set SiteId} {T T' : Set TargetId}

theorem Keeps.preserves (kept : r.Keeps r' S' T') (sites : ∀ i ∈ S, r.forest.call? i ≠ none → i ∉ S')
    (targets : ∀ t ∈ T, r.forest.origin? t ≠ none → t ∉ T') : r.forest.Preserves r'.forest S T where
  call := kept.call
  origin := kept.origin
  live hi there := kept.live there (sites _ hi there)
  callees ht there := (kept.callees there (targets _ ht there)).1

/-- What is complete stays so when nothing that is there changes. -/
theorem Keeps.complete (kept : r.Keeps r' ∅ ∅) {depth : Nat} (sound : r.forest.Sound depth)
    (more : earlier ⊆ later) (h : r.forest.Complete env earlier methods i) :
    r'.forest.Complete env later methods i :=
  (kept.preserves (S := Set.univ) (T := Set.univ) (fun _ _ _ => Set.notMem_empty _)
    fun _ _ _ => Set.notMem_empty _).complete sound ⟨fun _ _ => trivial, fun _ _ => trivial⟩ more
    trivial h

/-- A site is exhausted by its resolution. -/
theorem exhausted_resolved {c : Compilation} {s : CallSite} {stack : CallStack}
    (hs : c.region.sites.get? i = some s)
    {depth : Nat} (sound : (c.resolve env stack i s).region.forest.Sound depth)
    (stands : stack.Stands methods earlier) (checked : s.toCall.Checked env) :
    (c.resolve env stack i s).region.forest.Exhausted env earlier methods i s.toCall where
  call := by
    change (c.region.put i _).forest.call? i = _
    rw [call_put hs (SiteScope.extends_resolved ..).call]
    exact forest_call hs
  checked := checked
  taken b offers := by
    obtain ⟨t, x, ht, hx, hm⟩ := SiteScope.has_resolved (s := c.scope s) stands offers
    have origin := forest_origin (r := (c.resolve env stack i s).region) hx
    refine ⟨t, _, origin, ?_, hm⟩
    have there : c.region.sites.get? i ≠ none := by simp [hs]
    rw [← forest_put_live there, ← forest_put_removed there] at ht
    have home := sound.placed.1 ht
    rw [Forest.home?, origin] at home
    exact Option.some.inj home

end Region

end Inlining
