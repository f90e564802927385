import Inlining.Proofs.Calls
import Inlining.Proofs.Nesting
import Inlining.Proofs.Provenance

/-!
# Where sites were found

A site is found inside bodies, and its targets are screened against them. The forest only knows the body
that a site was found in once that body was explored, so in the middle of an exploration it does not
tell. `Forest.Surrounds` is about a function that does: it agrees with what the forest knows, and no
target has a method that is around its site as often as it may be. In the end the bodies around a site
are those that the forest leads to (`Forest.Surrounds.frames`), and so they keep to the limits
(`Region.limits_of_frames`).
-/

namespace Inlining

namespace Forest

/-- `around` tells inside which bodies every site was found, the innermost first, as far as the forest
knows; and no method of a target is among them `limit` times where the target was added. -/
structure Surrounds (f : Forest) (limit : Nat) (around : SiteId → List MethodId) : Prop where
  top : ∀ {i k}, f.call? i = some k → k.depth = 0 → around i = [k.caller]
  body : ∀ {t i o}, f.Owns t i → f.origin? t = some o → around i = o.method :: around o.site
  screened : ∀ {t o}, f.origin? t = some o → (around o.site).count o.method < limit

/-- It can be told around every site in which bodies the site was found. -/
def Surrounded (f : Forest) (limit : Nat) : Prop := ∃ around, f.Surrounds limit around

variable {f f' : Forest} {limit depth : Nat} {around around' : SiteId → List MethodId} {root : MethodId}
  {chain : List TargetId} {i : SiteId} {methods : List MethodId}

/-- The bodies that the forest leads to are those that the site was found in. -/
theorem Surrounds.frames (h : f.Surrounds limit around) (sound : f.Sound depth)
    (frames : f.Frames root chain i methods) : around i = methods := by
  induction frames with
  | root hk top caller => exact caller ▸ h.top hk top
  | body hi he ho _ ih => rw [h.body (List.mem_append_left _ hi) ho, sound.site_of_live ho he, ih]

theorem Surrounds.count_le (h : f.Surrounds limit around) (sound : f.Sound depth)
    (frames : f.Frames root chain i methods) (m : MethodId) : methods.count m ≤ max 1 limit := by
  induction frames with
  | root => exact List.count_le_length.trans (le_max_left ..)
  | @body e rest i j o methods hi he ho frames ih =>
    rw [List.count_cons]
    split
    next same =>
      have screened := h.screened ho
      rw [sound.site_of_live ho he, h.frames sound frames, beq_iff_eq.1 same] at screened
      exact screened.trans_le (le_max_right ..)
    next => exact ih

/-- Only the calls, where targets come from and which sites they own matter. -/
theorem Surrounds.congr (h : f.Surrounds limit around) (call : f'.call? = f.call?)
    (origin : f'.origin? = f.origin?) (owns : ∀ t i, f'.Owns t i ↔ f.Owns t i) :
    f'.Surrounds limit around where
  top hk := h.top (call ▸ hk)
  body owner ho := h.body ((owns ..).1 owner) (origin ▸ ho)
  screened ho := h.screened (origin ▸ ho)

/-- A site that is found inside some bodies, or found there again, may get targets that are screened
against them. -/
theorem Surrounds.screen (h : f.Surrounds limit around) (sound : f.Sound depth)
    (kept : ∀ j, f.call? j ≠ none → around' j = around j) (here : around' i = methods)
    (call : ∀ {j k}, f'.call? j = some k →
      f.call? j = some k ∨ j = i ∧ (k.depth = 0 → methods = [k.caller]))
    (origin : ∀ {t o}, f'.origin? t = some o →
      f.origin? t = some o ∨ o.site = i ∧ methods.count o.method < limit)
    (old : ∀ {t o}, f.origin? t = some o → f'.origin? t = some o)
    (owns : ∀ {t j}, f'.Owns t j → f.Owns t j) : f'.Surrounds limit around' where
  top {j k} hk top := by
    rcases call hk with was | ⟨rfl, outermost⟩
    · rw [kept j (by simp [was]), h.top was top]
    · rw [here, outermost top]
  body {t j o} owner ho := by
    obtain ⟨o', k, k', ho', hk, hk', -⟩ := sound.owned (owns owner)
    obtain rfl := Option.some.inj ((old ho').symm.trans ho)
    rw [kept j (by simp [hk']), kept o'.site (by simp [hk]), h.body (owns owner) ho']
  screened {t o} ho := by
    rcases origin ho with was | ⟨home, few⟩
    · obtain ⟨k, hk, -⟩ := Accounts.sited sound was
      rw [kept o.site (by simp [hk])]
      exact h.screened was
    · rwa [home, here]

/-- The sites that were found in the body of a target are found inside that body. -/
theorem Surrounds.settle {t : TargetId} {o : Origin} {found : List SiteId} (h : f.Surrounds limit around)
    (pending : f.Pending i t) (ho : f.origin? t = some o)
    (inside : ∀ j ∈ found, around j = o.method :: around o.site) (size : Size) :
    (f.settle t size found).Surrounds limit around where
  top := h.top
  body {u j o'} owner ho' := by
    rcases (owns_settle size found pending).1 owner with was | ⟨rfl, hj⟩
    · exact h.body was ho'
    · obtain rfl := Option.some.inj (ho.symm.trans ho')
      exact inside j hj
  screened := h.screened

end Forest

/-- Only a declared method has calls. -/
theorem Description.declared_of_instruction {d : Description} {m : MethodId} {call : CallInstruction}
    (h : call ∈ d.instructionsOf m) : d.method? m ≠ none := by
  intro missing
  simp [instructionsOf, missing] at h

theorem Description.declared_of_inlinable {d : Description} {m : MethodId}
    (h : d.isInlinable m = true) : d.method? m ≠ none := by
  intro missing
  simp [isInlinable, missing] at h

namespace Region

variable {r : Region} {env : Environment} {depth : Nat} {around : SiteId → List MethodId} {root : MethodId}
  {chain : List TargetId} {i : SiteId} {methods : List MethodId}

/-- The methods of the bodies around a site are declared. -/
theorem declared_of_frames (sound : r.forest.Sound depth) (sourced : r.Sourced env)
    (frames : r.forest.Frames root chain i methods) : ∀ m ∈ methods, env.program.method? m ≠ none := by
  have caller {j k} (hk : r.forest.call? j = some k) : env.program.method? k.caller ≠ none := by
    obtain ⟨-, instruction, mem, -⟩ := sourced hk
    exact Description.declared_of_instruction mem
  induction frames with
  | root hk _ same => simpa [← same] using caller hk
  | body hi _ ho _ ih =>
    obtain ⟨o', k, k', ho', -, hk', -, same⟩ := sound.owned (List.mem_append_left _ hi)
    obtain rfl := Option.some.inj (ho.symm.trans ho')
    simpa [← same] using ⟨caller hk', ih⟩

/-- The bodies around a site keep to the limits. -/
theorem limits_of_frames (sound : r.forest.Sound depth) (sourced : r.Sourced env)
    (surrounds : r.forest.Surrounds env.config.maxRecursiveOccurrences around)
    (frames : r.forest.Frames root chain i methods) : Limits env.program env.config methods := by
  obtain ⟨k, hk, height⟩ := frames.depth sound
  refine .of_often (declared_of_frames sound sourced frames) (surrounds.count_le sound frames) ?_
  rw [height]
  exact Nat.succ_le_succ (sourced hk).1

/-- Who owns a site is up to the callees of targets. -/
theorem owns_congr {r' : Region}
    (same : ∀ t, (r'.targets.get? t).map (fun x => (x.callees, x.deletedCallees)) =
      (r.targets.get? t).map fun x => (x.callees, x.deletedCallees)) (t : TargetId) (i : SiteId) :
    r'.forest.Owns t i ↔ r.forest.Owns t i := by
  have lists := same t
  simp only [Forest.Owns, forest]
  cases hx : r.targets.get? t <;> cases hy : r'.targets.get? t <;> simp_all

theorem owns_grow (r : Region) (ts : List TargetId) (size : Size) (t : TargetId) (i : SiteId) :
    (r.grow ts size).forest.Owns t i ↔ r.forest.Owns t i := by
  induction ts generalizing r with
  | nil => exact .rfl
  | cons u ts ih =>
    refine (ih { r with targets := r.targets.modify u _ }).trans (owns_congr (fun v => ?_) t i)
    simp only [Arena.get?_modify]
    split
    · cases r.targets.get? v <;> rfl
    · rfl

theorem owns_put_drops {id : SiteId} {s : CallSite} {journal : Journal} {scope : SiteScope}
    {reason : FailureReason} {ts : List TargetId}
    (drops : (⟨s, r.targets, journal⟩ : SiteScope).Drops reason scope ts) (t : TargetId) (i : SiteId) :
    (r.put id scope).forest.Owns t i ↔ r.forest.Owns t i := by
  refine owns_congr (fun u => ?_) t i
  rw [put, drops.target]
  split
  · cases r.targets.get? u <;> rfl
  · rfl

end Region

/-- From `c` to `c'` nothing was found: there is no new site, target or owner, and what the journal gained
is about sites. -/
structure Calm (c c' : Compilation) : Prop where
  gains : ∃ es, c.journal.Gains c'.journal es ∧ ∀ e ∈ es, e.site? ≠ none
  call : c'.region.forest.call? = c.region.forest.call?
  origin : c'.region.forest.origin? = c.region.forest.origin?
  owns : ∀ t i, c'.region.forest.Owns t i ↔ c.region.forest.Owns t i

section Calm

variable {c c' c'' : Compilation} {env : Environment} {methods : List MethodId}

theorem Calm.refl (c : Compilation) : Calm c c :=
  ⟨⟨[], .refl _, nofun⟩, rfl, rfl, fun _ _ => .rfl⟩

theorem Calm.trans (h : Calm c c') (h' : Calm c' c'') : Calm c c'' := by
  obtain ⟨es, gains, quiet⟩ := h.gains
  obtain ⟨es', gains', quiet'⟩ := h'.gains
  refine ⟨⟨es ++ es', gains.trans gains', fun e he => ?_⟩, h'.call.trans h.call,
    h'.origin.trans h.origin, fun t i => (h'.owns t i).trans (h.owns t i)⟩
  exact (List.mem_append.1 he).elim (quiet e) (quiet' e)

theorem Calm.events (h : Calm c c') (limits : Limits env.program env.config methods) :
    ∃ es, c.journal.Gains c'.journal es ∧ Nested env.program env.config methods es :=
  h.gains.imp fun _ h => ⟨h.1, limits.nested h.2⟩

/-- What neither the forest nor the journal sees. -/
theorem Calm.of_forest (forest : c'.region.forest = c.region.forest) (journal : c'.journal = c.journal) :
    Calm c c' :=
  ⟨⟨[], journal ▸ .refl _, nofun⟩, by rw [forest], by rw [forest], fun t i => by rw [forest]⟩

theorem SiteScope.Posts.quiet {s s' : SiteScope} (h : ∃ es, s.Posts s' es) :
    ∃ es, s.journal.Gains s'.journal es ∧ ∀ e ∈ es, e.site? ≠ none := by
  obtain ⟨es, posts⟩ := h
  exact ⟨es, posts.gains, fun e he => by simp [posts.about e he]⟩

theorem Calm.grow (c : Compilation) (ts : List TargetId) (size total : Size) :
    Calm c { c with region := c.region.grow ts size, totalSize := total } :=
  ⟨⟨[], .refl _, nofun⟩, rfl, c.region.origin_grow ts size, c.region.owns_grow ts size⟩

/-- Giving something up is calm. -/
theorem Cut.calm {reason : FailureReason} (h : Cut reason c c') : Calm c c' := by
  have drops {id : SiteId} {s : CallSite} {scope : SiteScope} {ts : List TargetId}
      (hs : c.region.sites.get? id = some s) (posts : ∃ es, (c.scope s).Posts scope es)
      (drops : (c.scope s).Drops reason scope ts) : Calm c (c.update id scope) :=
    ⟨SiteScope.Posts.quiet posts, Region.call_put hs drops.call, Region.origin_put_drops drops,
      Region.owns_put_drops drops⟩
  cases h with
  | target hs live => exact drops hs (SiteScope.posts_giveUp live reason) (SiteScope.drops_giveUp live)
  | site hs => exact drops hs (SiteScope.posts_giveUpAll ..) (SiteScope.drops_giveUpAll ..)
  | callee hx hy =>
    obtain ⟨hi, forest⟩ := Region.forest_dropCallee hx hy
    refine ⟨⟨[], .refl _, nofun⟩, by rw [forest]; rfl, by rw [forest]; rfl, fun t i => ?_⟩
    rw [forest]
    exact Forest.owns_dropCallee hi

end Calm

section Opening

open Exploration

variable {env : Environment} {c c' : Compilation} {id : SiteId} {s : CallSite} {k : Call}
  {stack : CallStack} {methods : List MethodId} {earlier : List InlinedRecord} {t : TargetId} {o : Origin}
  {around : SiteId → List MethodId}

/-- The targets that a site gets are screened against the bodies that it is resolved in. -/
theorem Compilation.screened_resolve (hid : s.id = id) (stands : stack.Stands methods earlier)
    (ho : (c.resolve env stack id s).region.forest.origin? t = some o) :
    c.region.forest.origin? t = some o ∨
      o.site = id ∧ methods.count o.method < env.config.maxRecursiveOccurrences := by
  obtain ⟨x, hx, rfl⟩ := Region.target_of_origin ho
  rcases SiteScope.made_of_resolved hx with old | ⟨-, made⟩
  · exact .inl (Region.forest_origin (r := c.region) old)
  · obtain ⟨b, hb, same⟩ := made.candidate
    obtain ⟨offers, -⟩ := (Environment.mem_candidates_iff stands).1 hb
    exact .inr ⟨made.home.trans hid, same ▸ offers.admitted.shallow⟩

theorem Compilation.quiet_resolve (c : Compilation) (env : Environment) (stack : CallStack) (id : SiteId)
    (s : CallSite) : ∃ es, c.journal.Gains (c.resolve env stack id s).journal es ∧
      ∀ e ∈ es, e.site? ≠ none :=
  SiteScope.Posts.quiet ((c.scope s).posts_resolved env stack)

/-- A new site with all its targets, which are screened against the bodies that it was found in. -/
theorem Forest.Surrounds.opened {new : List TargetId}
    (h : c.region.forest.Surrounds env.config.maxRecursiveOccurrences around)
    (sound : c.region.forest.Sound env.config.maxDepth) (opened : Opened env k.id k new c c')
    (call : c'.region.forest.call? = Function.update c.region.forest.call? k.id (some k))
    (outermost : k.depth = 0 → methods = [k.caller])
    (origin : ∀ {t o}, c'.region.forest.origin? t = some o → c.region.forest.origin? t = some o ∨
      o.site = k.id ∧ methods.count o.method < env.config.maxRecursiveOccurrences) :
    c'.region.forest.Surrounds env.config.maxRecursiveOccurrences
      (Function.update around k.id methods) := by
  have calls {j k'} (hk' : c'.region.forest.call? j = some k') :
      c.region.forest.call? j = some k' ∨ j = k.id ∧ k = k' := by
    rw [call, Function.update_apply] at hk'
    split at hk'
    next same => exact .inr ⟨same, Option.some.inj hk'⟩
    next => exact .inl hk'
  refine h.screen sound (i := k.id) (fun j there => ?_) (by simp) (fun hk' => ?_) origin
    opened.grown.keeps.origin fun {t j} owner => ?_
  · refine Function.update_of_ne ?_ ..
    rintro rfl
    exact there opened.fresh
  · refine (calls hk').imp_right ?_
    rintro ⟨same, rfl⟩
    exact ⟨same, outermost⟩
  · obtain ⟨_, _, k', _, _, hk', -⟩ := opened.grown.sound.owned owner
    rcases calls hk' with there | ⟨rfl, -⟩
    · exact opened.grown.keeps.owner owner (by simp [there])
    · exact absurd owner (opened.unowned t)

theorem Compilation.call_update_withSite (hk : k.id = c.region.sites.next) {scope : SiteScope}
    (same : scope.site.toCall = k) : ((c.withSite k).update k.id scope).region.forest.call? =
      Function.update c.region.forest.call? k.id (some k) := by
  refine (Region.call_put (c.get?_withSite hk) same).trans ?_
  rw [show (c.withSite k).region.forest = _ from Region.forest_addSite c.region k, hk]
  rfl

theorem surrounds_opened (h : c.region.forest.Surrounds env.config.maxRecursiveOccurrences around)
    (sound : c.region.forest.Sound env.config.maxDepth) (hk : k.id = c.region.sites.next)
    (stands : stack.Stands methods earlier) (outermost : k.depth = 0 → methods = [k.caller]) :
    (c.opened env stack k).region.forest.Surrounds env.config.maxRecursiveOccurrences
      (Function.update around k.id methods) :=
  h.opened sound (opened_opened sound hk stack)
    (Compilation.call_update_withSite hk (SiteScope.extends_resolved ..).call) outermost
    (Compilation.screened_resolve (c := c.withSite k) rfl stands)

theorem surrounds_refused (h : c.region.forest.Surrounds env.config.maxRecursiveOccurrences around)
    (sound : c.region.forest.Sound env.config.maxDepth) (hk : k.id = c.region.sites.next)
    (outermost : k.depth = 0 → methods = [k.caller]) :
    (c.refused k).region.forest.Surrounds env.config.maxRecursiveOccurrences
      (Function.update around k.id methods) :=
  h.opened sound (opened_refused sound hk) (Compilation.call_update_withSite hk rfl) outermost .inl

/-- A site that is resolved again where it was found. -/
theorem surrounds_resolve (h : c.region.forest.Surrounds env.config.maxRecursiveOccurrences around)
    (sound : c.region.forest.Sound env.config.maxDepth) (hs : c.region.sites.get? id = some s)
    (undeleted : ∀ u, id ∉ c.region.forest.deleted u) (stands : stack.Stands (around id) earlier) :
    (c.resolve env stack id s).region.forest.Surrounds env.config.maxRecursiveOccurrences around := by
  obtain ⟨-, new, adds⟩ := adds_resolved stack c.journal sound hs undeleted
  have call : (c.resolve env stack id s).region.forest.call? = c.region.forest.call? :=
    Region.call_put hs (SiteScope.extends_resolved ..).call
  refine h.screen sound (fun _ _ => rfl) rfl (fun hk => .inl (call ▸ hk))
    (Compilation.screened_resolve (sound.call_id (Region.forest_call hs)) stands)
    adds.keeps.origin fun {t j} owner => ?_
  obtain ⟨_, _, k', _, _, hk', -⟩ := adds.sound.owned owner
  have there : c.region.forest.call? j = some k' := (congrFun call j).symm.trans hk'
  exact adds.keeps.owner owner (by simp [there])

end Opening

end Inlining
