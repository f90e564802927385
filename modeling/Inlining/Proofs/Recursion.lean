import Inlining.Proofs.Progress
import Inlining.Proofs.Surroundings

/-!
# How deep an exploration goes

The recursion over bodies once more, now for the bodies that it enters: they nest inside those that it
was called in, and never more of them are open than the limits allow. So it never gets further down than
the limits say, and where it may stop there does not matter: within any number of levels that is large
enough it does the same (`Agrees`). `Roamed` is what an exploration leaves behind, in the journal and
around the sites that it found.
-/

namespace Inlining

namespace Exploration

section Agreement

variable {α β : Type} {c : Compilation} {x y : Exploration α} {post : α → Compilation → Prop}
  {fail : Fault → Compilation → Prop}

/-- Run from `c`, `x` does what `y` does, which ends as `post` says, or fails as `fail` says. -/
structure Agrees (x y : Exploration α) (c : Compilation) (post : α → Compilation → Prop)
    (fail : Fault → Compilation → Prop) : Prop where
  same : x.run c = y.run c
  ensures : Ensures y c post fail

theorem Agrees.refl (h : Ensures x c post fail) : Agrees x x c post fail := ⟨rfl, h⟩

theorem Agrees.mono {post' : α → Compilation → Prop} {fail' : Fault → Compilation → Prop}
    (h : Agrees x y c post fail) (hp : ∀ a c', post a c' → post' a c')
    (hf : ∀ e c', fail e c' → fail' e c') : Agrees x y c post' fail' :=
  ⟨h.same, h.ensures.mono hp hf⟩

theorem Agrees.and {post' : α → Compilation → Prop} {fail' : Fault → Compilation → Prop}
    (h : Agrees x y c post fail) (h' : Ensures y c post' fail') :
    Agrees x y c (fun a c' => post a c' ∧ post' a c') fun e c' => fail e c' ∧ fail' e c' :=
  ⟨h.same, h.ensures.and h'⟩

/-- Runs that are the same as runs that agree. -/
theorem Agrees.congr {x' y' : Exploration α} {c' : Compilation} (hx : x.run c = x'.run c')
    (hy : y.run c = y'.run c') (h : Agrees x' y' c' post fail) : Agrees x y c post fail :=
  ⟨by rw [hx, hy, h.same], h.ensures.congr hy⟩

theorem Agrees.bind {f g : α → Exploration β} {post : β → Compilation → Prop}
    {mid : α → Compilation → Prop} (h : Agrees x y c mid fail)
    (hf : ∀ a c', mid a c' → Agrees (f a) (g a) c' post fail) :
    Agrees (x >>= f) (y >>= g) c post fail where
  same := by
    rw [run_bind, run_bind, h.same]
    rcases run : y.run c with ⟨_ | a, c'⟩
    · rfl
    · exact (hf a c' (h.ensures.post_of_ok run)).same
  ensures := h.ensures.bind fun a c' ha => (hf a c' ha).ensures

theorem Agrees.mapM {f g : α → Exploration β} (inv : List α → List β → Compilation → Prop)
    (step : ∀ x rest done c, inv (x :: rest) done c →
      Agrees (f x) (g x) c (fun y => inv rest (done ++ [y])) fail)
    {xs : List α} (h : inv xs [] c) : Agrees (xs.mapM f) (xs.mapM g) c (inv []) fail := by
  suffices ∀ xs done c, inv xs done c →
      Agrees (xs.mapM f) (xs.mapM g) c (fun ys => inv [] (done ++ ys)) fail from this xs [] c h
  intro xs
  induction xs with
  | nil =>
    intro done c h
    exact .refl (by simpa [ensures_pure] using h)
  | cons x xs ih =>
    intro done c h
    rw [List.mapM_cons, List.mapM_cons]
    refine .bind (step x xs done c h) fun y c' h => ?_
    refine .bind (ih _ c' h) fun ys c'' h => .refl ?_
    simpa [ensures_pure] using h

/-- Going through new targets of a site, each of which leaves the others as new as they were. -/
theorem agrees_forNew {f g : TargetId → Exploration Unit} {id : SiteId} {inv : Compilation → Prop}
    (each : ∀ {c t}, inv c → c.region.forest.Pending id t → Agrees (f t) (g t) c
      (fun _ c' => inv c' ∧
        ∀ u, u ≠ t → c.region.forest.Pending id u → c'.region.forest.Pending id u) fail)
    {new : List TargetId} (distinct : new.Nodup)
    (pending : ∀ t ∈ new, c.region.forest.Pending id t) (hc : inv c) :
    Agrees (new.forM f) (new.forM g) c (fun _ => inv) fail := by
  induction new generalizing c with
  | nil => exact .refl hc
  | cons t new ih =>
    obtain ⟨ht, distinct⟩ := List.nodup_cons.1 distinct
    refine .bind (each hc (pending t (List.mem_cons_self ..))) fun _ c' ⟨hc', others⟩ => ?_
    exact ih distinct (fun u hu => others u (ne_of_mem_of_not_mem hu ht)
      (pending u (List.mem_cons_of_mem _ hu))) hc'

end Agreement

variable {env : Environment} {c c' c'' : Compilation} {around around' around'' : SiteId → List MethodId}
  {methods : List MethodId} {found found' : List SiteId} {id : SiteId} {t : TargetId} {k : Call}
  {depth : Nat}

/-- From `c` to `c'` sites were found; what is around them is told by `around'`, which agrees with
`around` on the sites of `c`. -/
structure Widens (env : Environment) (around around' : SiteId → List MethodId) (c c' : Compilation) :
    Prop where
  there : ∀ i, c.region.forest.call? i ≠ none → c'.region.forest.call? i ≠ none
  kept : ∀ i, c.region.forest.call? i ≠ none → around' i = around i
  surrounds : c'.region.forest.Surrounds env.config.maxRecursiveOccurrences around'

theorem Widens.trans (h : Widens env around around' c c') (h' : Widens env around' around'' c' c'') :
    Widens env around around'' c c'' where
  there i hi := h'.there i (h.there i hi)
  kept i hi := (h'.kept i (h.there i hi)).trans (h.kept i hi)
  surrounds := h'.surrounds

/-- From `c` to `c'` an exploration inside the bodies of `methods` found some sites in the innermost
one. -/
structure Roamed (env : Environment) (methods : List MethodId) (around around' : SiteId → List MethodId)
    (found : List SiteId) (c c' : Compilation) : Prop extends Widens env around around' c c' where
  sound : c'.region.forest.Sound env.config.maxDepth
  earlier : c'.previouslyInlined = c.previouslyInlined
  events : ∃ es, c.journal.Gains c'.journal es ∧ Nested env.program env.config methods es
  inside : ∀ i ∈ found, c'.region.forest.call? i ≠ none ∧ around' i = methods

theorem Roamed.refl (limits : Limits env.program env.config methods)
    (sound : c.region.forest.Sound env.config.maxDepth)
    (surrounds : c.region.forest.Surrounds env.config.maxRecursiveOccurrences around) :
    Roamed env methods around around [] c c :=
  { there := fun _ h => h
    kept := fun _ _ => rfl
    surrounds
    sound
    earlier := rfl
    events := ⟨[], .refl _, limits.nested nofun⟩
    inside := nofun }

theorem Roamed.trans (h : Roamed env methods around around' found c c')
    (h' : Roamed env methods around' around'' found' c' c'') :
    Roamed env methods around around'' (found ++ found') c c'' :=
  { h.toWidens.trans h'.toWidens with
    sound := h'.sound
    earlier := h'.earlier.trans h.earlier
    events := by
      obtain ⟨es, gains, nested⟩ := h.events
      obtain ⟨es', gains', nested'⟩ := h'.events
      exact ⟨es ++ es', gains.trans gains', nested.append nested'⟩
    inside := fun i hi => by
      rcases List.mem_append.1 hi with hi | hi
      · obtain ⟨there, same⟩ := h.inside i hi
        exact ⟨h'.there i there, (h'.kept i there).trans same⟩
      · exact h'.inside i hi }

theorem Roamed.stands (h : Roamed env methods around around' found c c') {stack : CallStack}
    (stands : stack.Stands methods c.previouslyInlined) : stack.Stands methods c'.previouslyInlined := by
  rwa [h.earlier]

section Body

variable {a b : Nat} (limits : Limits env.program env.config methods)
  (descends : ∀ {c id t k around} stack, c.region.forest.Sound env.config.maxDepth →
    c.region.forest.Pending id t → c.region.forest.call? id = some k → k.depth = depth →
    stack.Stands methods c.previouslyInlined →
    c.region.forest.Surrounds env.config.maxRecursiveOccurrences around → around id = methods →
    Agrees (exploreTarget env a stack id t) (exploreTarget env b stack id t) c
      (fun _ c' => (∃ around', Roamed env methods around around' [] c c') ∧ Explored env id t c c')
      fun _ c' => ∃ around', Widens env around around' c c')
include limits descends

/-- Exploring new targets of a site one after the other. -/
theorem agrees_exploreNew {new : List TargetId} (stack : CallStack)
    (sound : c.region.forest.Sound env.config.maxDepth) (hk : c.region.forest.call? id = some k)
    (lies : k.depth = depth) (pending : ∀ t ∈ new, c.region.forest.Pending id t) (distinct : new.Nodup)
    (stands : stack.Stands methods c.previouslyInlined)
    (surrounds : c.region.forest.Surrounds env.config.maxRecursiveOccurrences around)
    (here : around id = methods) :
    Agrees (new.forM (exploreTarget env a stack id)) (new.forM (exploreTarget env b stack id)) c
      (fun _ c' => (∃ around', Roamed env methods around around' [] c c') ∧
        c'.region.forest.call? id = some k)
      fun _ c' => ∃ around', Widens env around around' c c' := by
  refine agrees_forNew ?_ distinct pending ⟨⟨around, .refl limits sound surrounds⟩, hk⟩
  rintro c₁ t ⟨⟨around₁, roamed⟩, hk₁⟩ pending
  have stands₁ := roamed.stands stands
  have here₁ : around₁ id = methods := (roamed.kept id (by simp [hk])).trans here
  refine (descends stack roamed.sound pending hk₁ lies stands₁ roamed.surrounds here₁).mono ?_ ?_
  · rintro - c₂ ⟨⟨around₂, one⟩, explored⟩
    exact ⟨⟨⟨around₂, roamed.trans one⟩, explored.grown.keeps.call hk₁⟩, fun u other hu =>
      explored.pending roamed.sound hu other⟩
  · rintro - c₂ ⟨around₂, widens⟩
    exact ⟨around₂, roamed.toWidens.trans widens⟩

variable (height : methods.length = depth + 1)
include height

/-- Exploring one call of a body. -/
theorem agrees_exploreCall {method : MethodId} {outer : List MethodId} (hm : methods = method :: outer)
    (stack : CallStack) (stands : stack.Stands methods c.previouslyInlined)
    (sound : c.region.forest.Sound env.config.maxDepth)
    (surrounds : c.region.forest.Surrounds env.config.maxRecursiveOccurrences around)
    (call : CallInstruction) :
    Agrees (exploreCall env (exploreTarget env a) stack method depth call)
      (exploreCall env (exploreTarget env b) stack method depth call) c
      (fun id c' => ∃ around', Roamed env methods around around' [id] c c')
      fun _ c' => ∃ around', Widens env around around' c c' := by
  subst hm
  generalize hk : Call.ofInstruction c.region.sites.next method depth call = k
  have kid : k.id = c.region.sites.next := by rw [← hk]; rfl
  have lies : k.depth = depth := by rw [← hk]; rfl
  have outermost (top : k.depth = 0) : method :: outer = [k.caller] := by
    have alone : outer = [] := by simpa [← lies, top] using height
    rw [alone, ← hk]
    rfl
  -- the new site is found inside the bodies that are open
  let around₁ := Function.update around k.id (method :: outer)
  have kept (i : SiteId) (hi : c.region.forest.call? i ≠ none) : around₁ i = around i := by
    refine Function.update_of_ne ?_ ..
    rintro rfl
    exact hi (kid ▸ c.region.call_next)
  rcases run_exploreCall stands sound hk.symm with
    ⟨-, stack', stands', run⟩ | ⟨-, e, -, run⟩
  · have opened := opened_opened sound kid stack'
    obtain ⟨es, gains, quiet⟩ := (c.withSite k).quiet_resolve env stack' k.id (.ofCall k)
    have first : Roamed env (method :: outer) around around₁ [k.id] c (c.opened env stack' k) :=
      { there := fun _ hi => opened.grown.there hi
        kept
        surrounds := surrounds_opened surrounds sound kid stands' outermost
        sound := opened.grown.sound
        earlier := rfl
        events := ⟨es, gains, limits.nested quiet⟩
        inside := fun i hi => by simp [List.mem_singleton.1 hi, opened.call, around₁] }
    have walked := agrees_exploreNew limits descends stack' first.sound opened.call lies
      opened.pending (first.sound.live_nodup k.id) stands' first.surrounds (by simp [around₁])
    refine .congr (run _) (run _) (.bind (walked.mono (fun _ _ h => h) ?_) fun _ c₁ h => .refl ?_)
    · rintro - c₁ ⟨around₂, widens⟩
      exact ⟨around₂, first.toWidens.trans widens⟩
    · obtain ⟨⟨around₂, roamed⟩, -⟩ := h
      exact ⟨around₂, first.trans roamed⟩
  · have grown : Grown env.config.maxDepth ∅ ∅ c (c.refused k) := (opened_refused sound kid).grown
    exact ⟨(run _).trans (run _).symm, .of_error (run _) ⟨around₁, fun _ hi => grown.there hi, kept,
      surrounds_refused surrounds sound kid outermost⟩⟩

/-- Exploring the calls of a body one after the other. -/
theorem agrees_exploreBody {method : MethodId} {outer : List MethodId} (hm : methods = method :: outer)
    (stack : CallStack) (stands : stack.Stands methods c.previouslyInlined)
    (sound : c.region.forest.Sound env.config.maxDepth)
    (surrounds : c.region.forest.Surrounds env.config.maxRecursiveOccurrences around) :
    Agrees (exploreBody env (exploreTarget env a) stack method depth)
      (exploreBody env (exploreTarget env b) stack method depth) c
      (fun found c' => ∃ around', Roamed env methods around around' found c c')
      fun _ c' => ∃ around', Widens env around around' c c' := by
  refine Agrees.mapM (fun _ done c' => ∃ around', Roamed env methods around around' done c c') ?_
    ⟨around, .refl limits sound surrounds⟩
  rintro call rest done c₁ ⟨around₁, roamed⟩
  have stands₁ := roamed.stands stands
  refine (agrees_exploreCall limits descends height hm stack stands₁ roamed.sound roamed.surrounds
    call).mono ?_ ?_
  · rintro id c₂ ⟨around₂, one⟩
    exact ⟨around₂, roamed.trans one⟩
  · rintro - c₂ ⟨around₂, widens⟩
    exact ⟨around₂, roamed.toWidens.trans widens⟩

end Body

/-- What is left to do for a target once its body was explored leaves the body, and is calm otherwise. -/
theorem calm_finish {stack : CallStack} {m : MethodId} (inside : stack.At m depth) :
    Ensures (finish env stack id t depth found) c
      (fun _ c' => ∃ committed, Calm (c.left t found m depth committed) c')
      fun _ c' => ∃ committed, Calm (c.left t found m depth committed) c' := by
  have kept {committed : Bool} {x : Exploration Unit} {c₁ : Compilation}
      (calm : Maintains (Calm (c.left t found m depth committed)) x)
      (h : Calm (c.left t found m depth committed) c₁) :
      Ensures x c₁ (fun _ c' => ∃ committed, Calm (c.left t found m depth committed) c')
        fun _ c' => ∃ committed, Calm (c.left t found m depth committed) c' :=
    (calm c₁ h).mono (fun _ _ h => ⟨committed, h⟩) fun _ _ h => ⟨committed, h⟩
  refine ensures_finish inside (fun reason _ => ?_) (fun _ _ => ?_) fun _ _ => ?_
  · exact kept (maintains_abandon fun h cut => h.trans cut.calm) (.refl _)
  · exact kept maintains_checkCallees (.of_forest rfl rfl)
  · exact kept maintains_checkCallees (.refl _)

theorem Widens.of_calm (h : Calm c c')
    (surrounds : c.region.forest.Surrounds env.config.maxRecursiveOccurrences around) :
    Widens env around around c c' where
  there i hi := by rwa [h.call]
  kept _ _ := rfl
  surrounds := surrounds.congr h.call h.origin h.owns

/-- Only what the forest says of the sites before matters. -/
theorem Widens.after_forest {c₀ : Compilation} (forest : c₀.region.forest = c.region.forest)
    (h : Widens env around around' c₀ c') : Widens env around around' c c' where
  there i hi := h.there i (by rwa [forest])
  kept i hi := h.kept i (by rwa [forest])
  surrounds := h.surrounds

section Leaving

variable {c₀ c₁ : Compilation} {o : Origin}
  (roamed : Roamed env (o.method :: methods) around around' found c₀ c₁)
  (forest : c₀.region.forest = c.region.forest)
  (journal : c₀.journal = c.journal.record (.framePushed o.method methods.length))
  (limits : Limits env.program env.config methods) (pending : c₁.region.forest.Pending id t)
  (ho : c₁.region.forest.origin? t = some o) (here : around' o.site = methods)
include roamed forest journal limits pending ho here

/-- Leaving a body. What was found in it is settled then. -/
theorem Roamed.leave {committed : Bool}
    (calm : Calm (c₁.left t found o.method methods.length committed) c') :
    Widens env around around' c c' ∧
      ∃ es, c.journal.Gains c'.journal es ∧ Nested env.program env.config methods es := by
  obtain ⟨x, hx, rfl⟩ := Region.target_of_origin ho
  have home (j : SiteId) (hj : j ∈ found) : around' j = x.method :: around' x.callSite := by
    rw [(roamed.inside j hj).2, here]
  have settled := roamed.surrounds.settle pending ho home x.size
  have same : (c₁.left t found x.method methods.length committed).region.forest = _ :=
    Region.forest_settle c₁.region hx found
  rw [← same] at settled
  constructor
  · have there : (c₁.left t found x.method methods.length committed).region.forest.call? =
        c₁.region.forest.call? := by
      rw [same]
      rfl
    exact .after_forest forest (roamed.toWidens.trans ⟨fun i hi => by rwa [calm.call, there],
      fun _ _ => rfl, settled.congr calm.call calm.origin calm.owns⟩)
  · obtain ⟨es, gains, nested⟩ := roamed.events
    obtain ⟨es', gains', nested'⟩ := calm.events limits
    have entered := c.journal.gains_record (.framePushed x.method methods.length)
    have left := c₁.journal.gains_record (.framePopped x.method methods.length committed)
    rw [journal] at gains
    exact ⟨_, ((entered.trans gains).trans left).trans gains',
      (nested.body limits committed).append nested'⟩

/-- What is left to do for a target once its body was explored leaves the body. -/
theorem Roamed.ensures_finish {stack : CallStack} (inside : stack.At o.method methods.length) :
    Ensures (finish env stack id t methods.length found) c₁
      (fun _ c' => ∃ around', Widens env around around' c c' ∧
        ∃ es, c.journal.Gains c'.journal es ∧ Nested env.program env.config methods es)
      fun _ c' => ∃ around', Widens env around around' c c' := by
  refine (calm_finish inside).mono ?_ ?_
  · rintro - c' ⟨committed, calm⟩
    exact ⟨around', roamed.leave forest journal limits pending ho here calm⟩
  · rintro - c' ⟨committed, calm⟩
    exact ⟨around', (roamed.leave forest journal limits pending ho here calm).1⟩

end Leaving

/-- The body of a target of a site inside the bodies of `methods` may be entered. -/
theorem limits_enter {o : Origin} (limits : Limits env.program env.config methods)
    (surrounds : c.region.forest.Surrounds env.config.maxRecursiveOccurrences around)
    (ho : c.region.forest.origin? t = some o) (here : around o.site = methods)
    (inlinable : env.program.isInlinable o.method = true)
    (shallow : methods.length ≤ env.config.maxDepth) :
    Limits env.program env.config (o.method :: methods) := by
  have screened := surrounds.screened ho
  rw [here] at screened
  exact limits.cons (Description.declared_of_inlinable inlinable) shallow
    (screened.trans_le (le_max_right ..))

/-- Exploring a new target whose method may be inlined, inside the bodies of `methods`. -/
theorem agrees_exploreInlinable {a b : Nat} {x : CallTarget} (stack : CallStack)
    (sound : c.region.forest.Sound env.config.maxDepth) (pending : c.region.forest.Pending id t)
    (hk : c.region.forest.call? id = some k) (hx : c.region.targets.get? t = some x)
    (inlinable : env.program.isInlinable x.method = true)
    (reach : env.config.maxDepth ≤ k.depth + 1 + b) (height : methods.length = k.depth + 1)
    (limits : Limits env.program env.config methods)
    (limits' : Limits env.program env.config (x.method :: methods))
    (stands : stack.Stands methods c.previouslyInlined)
    (surrounds : c.region.forest.Surrounds env.config.maxRecursiveOccurrences around)
    (here : around id = methods)
    (descends : ∀ {c id t k' around} stack, c.region.forest.Sound env.config.maxDepth →
      c.region.forest.Pending id t → c.region.forest.call? id = some k' → k'.depth = k.depth + 1 →
      stack.Stands (x.method :: methods) c.previouslyInlined →
      c.region.forest.Surrounds env.config.maxRecursiveOccurrences around →
      around id = x.method :: methods →
      Agrees (exploreTarget env a stack id t) (exploreTarget env b stack id t) c
        (fun _ c' => (∃ around', Roamed env (x.method :: methods) around around' [] c c') ∧
          Explored env id t c c')
        fun _ c' => ∃ around', Widens env around around' c c') :
    Agrees (exploreTarget env (a + 1) stack id t) (exploreTarget env (b + 1) stack id t) c
      (fun _ c' => ∃ around', Widens env around around' c c' ∧
        ∃ es, c.journal.Gains c'.journal es ∧ Nested env.program env.config methods es)
      fun _ c' => ∃ around', Widens env around around' c c' := by
  obtain ⟨inner, stands', inside, run⟩ := run_exploreTarget hk hx inlinable stands height
  refine .congr (run a) (run b) ?_
  have ho := Region.forest_origin hx
  have sited : x.callSite = id := sound.site_of_live ho pending.live
  have forest := c.forest_entered env t x.method (k.depth + 1)
  generalize hc₀ : c.entered env t x.method (k.depth + 1) = c₀ at forest ⊢
  have journal : c₀.journal = c.journal.record (.framePushed x.method methods.length) := by
    rw [← hc₀, height]
    rfl
  have earlier : c₀.previouslyInlined = c.previouslyInlined := by rw [← hc₀]; rfl
  have sound₀ := forest ▸ sound
  have pending₀ := forest ▸ pending
  have explores {c id t} {k' : Call} (stack : CallStack)
      (sound : c.region.forest.Sound env.config.maxDepth) (pending : c.region.forest.Pending id t)
      (hk' : c.region.forest.call? id = some k') (deeper : k'.depth = k.depth + 1) :
      Ensures (exploreTarget env b stack id t) c _ _ :=
    ensures_exploreTarget sound pending hk' (by omega)
  have body := (agrees_exploreBody limits' descends (by simp [height]) rfl inner (earlier ▸ stands')
    sound₀ (forest ▸ surrounds)).and (ensures_exploreBody explores inner sound₀ x.method)
  refine .bind (body.mono (fun _ _ h => h) ?_) ?_
  · rintro - c₁ ⟨⟨around₁, widens⟩, -⟩
    exact ⟨around₁, .after_forest forest widens⟩
  · rintro found c₁ ⟨⟨around₁, roamed⟩, walked⟩
    have ho₁ := walked.grown.keeps.origin (forest ▸ ho)
    have here₁ : around₁ x.callSite = methods := by
      rw [sited, roamed.kept id (by simp [forest, hk]), here]
    rw [← height] at inside ⊢
    exact .refl (roamed.ensures_finish forest journal limits (walked.grown.pending sound₀ pending₀) ho₁
      here₁ inside)

/-- Exploring a new target of a site inside the bodies of `methods`, within enough levels. -/
theorem agrees_exploreTarget {a b : Nat} (stack : CallStack)
    (sound : c.region.forest.Sound env.config.maxDepth) (pending : c.region.forest.Pending id t)
    (hk : c.region.forest.call? id = some k)
    (enough : maxNesting env.program env.config ≤ k.depth + a)
    (reach : env.config.maxDepth ≤ k.depth + b) (height : methods.length = k.depth + 1)
    (limits : Limits env.program env.config methods)
    (stands : stack.Stands methods c.previouslyInlined)
    (surrounds : c.region.forest.Surrounds env.config.maxRecursiveOccurrences around)
    (here : around id = methods) :
    Agrees (exploreTarget env a stack id t) (exploreTarget env b stack id t) c
      (fun _ c' => (∃ around', Roamed env methods around around' [] c c') ∧ Explored env id t c c')
      fun _ c' => ∃ around', Widens env around around' c c' := by
  induction a generalizing b c stack id t k methods around with
  | zero =>
    -- a target is only found where a body may be entered
    have within := sound.depth_lt hk pending.live
    have few := limits.few
    simp only [maxNesting] at enough
    omega
  | succ a ih =>
    have within := sound.depth_lt hk pending.live
    obtain ⟨b, rfl⟩ : ∃ b', b = b' + 1 := ⟨b - 1, by omega⟩
    suffices core : Agrees (exploreTarget env (a + 1) stack id t) (exploreTarget env (b + 1) stack id t) c
        (fun _ c' => ∃ around', Widens env around around' c c' ∧
          ∃ es, c.journal.Gains c'.journal es ∧ Nested env.program env.config methods es)
        fun _ c' => ∃ around', Widens env around around' c c' by
      refine (core.and ((ensures_exploreTarget sound pending hk reach).and
        (ensures_descendTarget stack sound pending hk reach height stands))).mono ?_ fun _ _ h => h.1
      rintro - c' ⟨⟨around', widens, events⟩, explored, descended⟩
      exact ⟨⟨around', { widens with
        sound := explored.grown.sound
        earlier := descended.steps.previouslyInlined
        events
        inside := nofun }⟩, explored⟩
    obtain ⟨o, ho, home⟩ := sound.origin_of_live pending.live
    obtain ⟨x, hx, rfl⟩ := Region.target_of_origin ho
    cases inlinable : env.program.isInlinable x.method with
    | false =>
      have run := run_exploreTarget_uninlinable hk hx inlinable stack
      refine .congr (run a) (run b) (.refl ?_)
      have numbered : Calm c (c.numbered t) := .of_forest (c.forest_numbered t) rfl
      exact (maintains_removeTarget (P := Calm c) (fun h cut => h.trans cut.calm) _ numbered).mono
        (fun _ _ h => ⟨around, .of_calm h surrounds, h.events limits⟩)
        fun _ _ h => ⟨around, .of_calm h surrounds⟩
    | true =>
      have limits' : Limits env.program env.config (x.method :: methods) :=
        limits_enter limits surrounds ho (sound.site_of_live ho pending.live ▸ here) inlinable (by omega)
      exact agrees_exploreInlinable stack sound pending hk hx inlinable (by omega) height limits limits'
        stands surrounds here fun stack sound pending hk' deeper stands surrounds here =>
          ih stack sound pending hk' (by omega) (by omega) (by simp [height, deeper]) limits' stands
            surrounds here

/-- A visit that fails is calm. -/
theorem calm_visit {s : CallSite} (hs : c.region.sites.get? id = some s) : Calm c (c.visit id s) := by
  refine .of_forest ?_ rfl
  have seen : (c.region.put id (c.scope s).visited).forest = (c.region.put id (c.scope s)).forest :=
    Region.forest_put_congr rfl fun _ => rfl
  exact seen.trans (by rw [put_scope hs])

/-- Charging a target is calm, whether it is accepted or given up. -/
theorem calm_charge (c₀ : Compilation) (chain : List TargetId) :
    Maintains (Calm c₀) (charge env chain id t) := by
  intro c calm
  have given_up (reason : FailureReason) :
      Ensures (abandon env id t reason) c (fun _ => Calm c₀) fun _ => Calm c₀ :=
    maintains_abandon (fun h cut => h.trans cut.calm) c calm
  rw [charge, ensures_get_bind]
  dsimp only
  split
  · exact given_up _
  · split
    · exact given_up _
    · exact calm.trans (.grow ..)

/-- Being calm adds nothing to what was found. -/
theorem Roamed.calm (h : Roamed env methods around around' found c c') (calm : Calm c' c'')
    (limits : Limits env.program env.config methods)
    (sound : c''.region.forest.Sound env.config.maxDepth)
    (earlier : c''.previouslyInlined = c.previouslyInlined) :
    Roamed env methods around around' found c c'' :=
  { h.toWidens.trans (.of_calm calm h.surrounds) with
    sound
    earlier
    events := by
      obtain ⟨es, gains, nested⟩ := h.events
      obtain ⟨es', gains', nested'⟩ := calm.events limits
      exact ⟨es ++ es', gains.trans gains', nested.append nested'⟩
    inside := fun i hi => by
      rw [calm.call]
      exact h.inside i hi }

/-- Exploring a new target of a site inside `chain`, within enough levels, and charging it. -/
theorem agrees_absorb {levels : Nat} {chain : List TargetId} (stack : CallStack)
    (sound : c.region.forest.Sound env.config.maxDepth) (pending : c.region.forest.Pending id t)
    (hk : c.region.forest.call? id = some k) (enclosed : c.region.forest.Encloses chain.reverse id)
    (enough : maxNesting env.program env.config ≤ levels) (height : methods.length = k.depth + 1)
    (limits : Limits env.program env.config methods)
    (stands : stack.Stands methods c.previouslyInlined)
    (surrounds : c.region.forest.Surrounds env.config.maxRecursiveOccurrences around)
    (here : around id = methods) :
    Agrees (absorb env (levels - k.depth) stack chain id t)
      (absorb env (env.config.maxDepth - k.depth) stack chain id t) c
      (fun _ c' => (∃ around', Roamed env methods around around' [] c c') ∧ Charged env chain id t c c')
      fun _ c' => ∃ around', Widens env around around' c c' := by
  have core : Agrees (absorb env (levels - k.depth) stack chain id t)
      (absorb env (env.config.maxDepth - k.depth) stack chain id t) c
      (fun _ c' => ∃ c₁ around', Roamed env methods around around' [] c c₁ ∧ Calm c₁ c')
      fun _ c' => ∃ around', Widens env around around' c c' := by
    refine .bind ((agrees_exploreTarget stack sound pending hk (by omega) (by omega) height limits stands
      surrounds here).mono (fun _ _ h => h.1) fun _ _ h => h) ?_
    rintro - c₁ ⟨around₁, roamed⟩
    have rest : Maintains (Calm c₁) (do
        if (← site id).live.contains t && !chain.isEmpty then
          charge env chain id t) := by
      refine .bind maintains_site fun s => ?_
      split
      · exact calm_charge c₁ chain
      · exact maintains_pure
    exact .refl ((rest c₁ (.refl c₁)).mono (fun _ _ calm => ⟨c₁, around₁, roamed, calm⟩)
      fun _ _ calm => ⟨around₁, roamed.toWidens.trans (.of_calm calm roamed.surrounds)⟩)
  refine (core.and ((ensures_exploreCharge stack sound hk enclosed pending).and
    (ensures_absorb sound pending enclosed hk stack stands height))).mono ?_ fun _ _ h => h.1
  rintro - c' ⟨⟨c₁, around₁, roamed, calm⟩, charged, a, absorbed⟩
  exact ⟨⟨around₁, roamed.calm calm limits charged.grown.sound absorbed.steps.previouslyInlined⟩, charged⟩

/-- Absorbing new targets of a site one after the other. -/
theorem agrees_absorbAll {levels : Nat} {chain new : List TargetId} (stack : CallStack)
    (sound : c.region.forest.Sound env.config.maxDepth)
    (pending : ∀ t ∈ new, c.region.forest.Pending id t) (distinct : new.Nodup)
    (hk : c.region.forest.call? id = some k) (enclosed : c.region.forest.Encloses chain.reverse id)
    (enough : maxNesting env.program env.config ≤ levels) (height : methods.length = k.depth + 1)
    (limits : Limits env.program env.config methods)
    (stands : stack.Stands methods c.previouslyInlined)
    (surrounds : c.region.forest.Surrounds env.config.maxRecursiveOccurrences around)
    (here : around id = methods) :
    Agrees (new.forM (absorb env (levels - k.depth) stack chain id))
      (new.forM (absorb env (env.config.maxDepth - k.depth) stack chain id)) c
      (fun _ c' => (∃ around', Roamed env methods around around' [] c c') ∧
        c'.region.forest.call? id = some k ∧ c'.region.forest.Encloses chain.reverse id)
      fun _ c' => ∃ around', Widens env around around' c c' := by
  refine agrees_forNew ?_ distinct pending ⟨⟨around, .refl limits sound surrounds⟩, hk, enclosed⟩
  rintro c₁ t ⟨⟨around₁, roamed⟩, hk₁, enclosed₁⟩ pending
  have stands₁ := roamed.stands stands
  have here₁ : around₁ id = methods := (roamed.kept id (by simp [hk])).trans here
  refine (agrees_absorb stack roamed.sound pending hk₁ enclosed₁ enough height limits stands₁
    roamed.surrounds here₁).mono ?_ ?_
  · rintro - c₂ ⟨⟨around₂, one⟩, charged⟩
    exact ⟨⟨⟨around₂, roamed.trans one⟩, charged.grown.keeps.call hk₁, charged.encloses⟩,
      fun u other hu => charged.pending other hu⟩
  · rintro - c₂ ⟨around₂, widens⟩
    exact ⟨around₂, roamed.toWidens.trans widens⟩

/-- A site that is resolved again is inside the same bodies as before. -/
theorem roamed_resolve {s : CallSite} {stack : CallStack} {earlier : List InlinedRecord}
    (sound : c.region.forest.Sound env.config.maxDepth)
    (surrounds : c.region.forest.Surrounds env.config.maxRecursiveOccurrences around)
    (hs : c.region.sites.get? id = some s) (undeleted : ∀ u, id ∉ c.region.forest.deleted u)
    (stands : stack.Stands (around id) earlier) (limits : Limits env.program env.config (around id)) :
    Roamed env (around id) around around [] c (c.resolve env stack id s) := by
  obtain ⟨es, gains, quiet⟩ := c.quiet_resolve env stack id s
  obtain ⟨-, new, adds⟩ := adds_resolved stack c.journal sound hs undeleted
  have grown : Grown env.config.maxDepth {id} ∅ c (c.resolve env stack id s) := ⟨adds.sound, adds.keeps⟩
  exact
    { there := fun i hi => grown.there hi
      kept := fun _ _ => rfl
      surrounds := surrounds_resolve surrounds sound hs undeleted stands
      sound := adds.sound
      earlier := rfl
      events := ⟨es, gains, limits.nested quiet⟩
      inside := nofun }

section Requests

variable {levels : Nat} {method root : MethodId} {chain : List TargetId} {s : CallSite}
  (sound : c.region.forest.Sound env.config.maxDepth)
  (surrounds : c.region.forest.Surrounds env.config.maxRecursiveOccurrences around)
  (enough : maxNesting env.program env.config ≤ levels)
include sound surrounds enough

/-- Exploring a method enters bodies inside no other. -/
theorem agrees_exploreDown :
    Agrees (exploreDown env levels method) (explore env method) c
      (fun _ c' => (∃ es, c.journal.Gains c'.journal es ∧ Nested env.program env.config [] es) ∧
        c'.region.forest.Surrounded env.config.maxRecursiveOccurrences)
      fun _ c' => c'.region.forest.Surrounded env.config.maxRecursiveOccurrences := by
  by_cases missing : env.program.sizeOf? method = none
  · exact ⟨(run_exploreDown_of_none missing levels).trans (run_explore_of_none missing).symm,
      .of_error (run_explore_of_none missing) ⟨around, surrounds⟩⟩
  obtain ⟨stack, stands, inside, run⟩ := run_exploreDown (c := c) missing
  have declared : env.program.method? method ≠ none := by
    intro unknown
    simp [Description.sizeOf?, unknown] at missing
  have limits : Limits env.program env.config [method] :=
    limits_nil.cons declared (Nat.zero_le _) (by simp)
  have body := agrees_exploreBody (c := { c with journal := c.journal.record (.framePushed method 0) })
    limits (fun stack sound pending hk top stands surrounds here => agrees_exploreTarget (a := levels)
      (b := env.config.maxDepth) stack sound pending hk (by omega) (by omega) (by simp [top]) limits stands
      surrounds here) (show [method].length = 0 + 1 from rfl) rfl stack stands sound surrounds
  rw [explore_eq]
  refine .congr (run levels) (run env.config.maxDepth) (.bind (body.mono (fun _ _ h => h) ?_) ?_)
  · rintro - c₁ ⟨around₁, widens⟩
    exact ⟨around₁, widens.surrounds⟩
  · rintro found c₁ ⟨around₁, roamed⟩
    refine .refl ?_
    rw [ensures_bind, ensures_leave inside, ensures_bind, ensures_modify, ensures_pure]
    refine ⟨?_, around₁, roamed.surrounds⟩
    obtain ⟨es, gains, nested⟩ := roamed.events
    exact ⟨_, ((c.journal.gains_record _).trans gains).trans (c₁.journal.gains_record _),
      nested.body limits_nil true⟩

/-- Revisiting a site that is attached enters bodies inside those that enclose the site. -/
theorem agrees_revisitWithin (sourced : c.region.Sourced env) (hs : c.region.sites.get? id = some s)
    (hchain : c.region.enclosing? s = some chain)
    (frames : c.region.forest.Frames root chain.reverse id methods) :
    Agrees (revisitDown env levels id) (revisit env id) c
      (fun _ c' => (∃ es, c.journal.Gains c'.journal es ∧ Nested env.program env.config methods es) ∧
        c'.region.forest.Surrounded env.config.maxRecursiveOccurrences)
      fun _ c' => c'.region.forest.Surrounded env.config.maxRecursiveOccurrences := by
  have hk := Region.forest_call hs
  have enclosed := frames.encloses
  have undeleted := enclosed.undeleted sound
  have limits := Region.limits_of_frames sound sourced surrounds frames
  obtain rfl : around id = methods := surrounds.frames sound frames
  have height := frames.height sound hk
  obtain ⟨stack, stands, run⟩ := run_revisitDown sound frames hs (by rwa [List.reverse_reverse])
  rw [List.reverse_reverse] at run
  obtain ⟨-, new, adds⟩ := adds_resolved stack c.journal sound hs undeleted
  have first := roamed_resolve sound surrounds hs undeleted stands limits
  rw [revisit_eq]
  refine .congr (run levels) (run env.config.maxDepth) (.bind (.refl ((ensures_resolveStroke stack sound
    hs undeleted).imp_fail ?_)) ?_)
  · rintro - c₁ ⟨-, -, rfl⟩
    have calm := calm_visit hs
    exact ⟨around, surrounds.congr calm.call calm.origin calm.owns⟩
  rintro - c₁ ⟨-, hc₁⟩
  rw [← hc₁] at first
  have adds : c.region.Adds env.config.maxDepth id c₁.region new := hc₁ ▸ adds
  have hk₁ := adds.keeps.call hk
  obtain ⟨s₁, hs₁, -⟩ := Region.site_of_call hk₁
  have added := adds.new_live sound hs hs₁
  refine .congr (run_bind_of_ok (run_site hs₁)) (run_bind_of_ok (run_site hs₁)) ?_
  rw [added]
  have absorbed := agrees_absorbAll stack first.sound (fun t ht => adds.pending sound ht) adds.nodup hk₁
    (adds.encloses sound enclosed) enough height limits (first.stands stands) first.surrounds rfl
  refine .bind (absorbed.mono (fun _ _ h => h) ?_) fun _ c₂ ⟨⟨around₂, rest⟩, hk₂, _⟩ => ?_
  · rintro - c₂ ⟨around₂, widens⟩
    exact ⟨around₂, widens.surrounds⟩
  · obtain ⟨s₂, hs₂, -⟩ := Region.site_of_call hk₂
    exact .congr (run_bind_of_ok (run_site hs₂)) (run_bind_of_ok (run_site hs₂))
      (.refl ⟨(first.trans rest).events, around₂, rest.surrounds⟩)

/-- Revisiting a site enters bodies inside those that enclose the site, if it is attached. -/
theorem agrees_revisitDown (sourced : c.region.Sourced env) :
    Agrees (revisitDown env levels id) (revisit env id) c
      (fun _ c' => (∃ es s, c.journal.Gains c'.journal es ∧ c.region.sites.get? id = some s ∧
        (c.region.enclosing? s = none ∧ es = [] ∨
          ∃ chain root methods, c.region.enclosing? s = some chain ∧
            c.region.forest.Frames root chain.reverse id methods ∧
            Nested env.program env.config methods es)) ∧
        c'.region.forest.Surrounded env.config.maxRecursiveOccurrences)
      fun _ c' => c'.region.forest.Surrounded env.config.maxRecursiveOccurrences := by
  cases hs : c.region.sites.get? id with
  | none =>
    exact ⟨(run_revisitDown_of_none hs levels).trans (run_revisit_of_none hs).symm,
      .of_error (run_revisit_of_none hs) ⟨around, surrounds⟩⟩
  | some s =>
    cases hchain : c.region.enclosing? s with
    | none =>
      have detached : (revisit env id).run c = (.ok false, c) := run_revisit_of_detached hs hchain
      exact ⟨(run_revisitDown_of_detached hs hchain levels).trans detached.symm,
        .of_ok detached ⟨⟨[], s, .refl _, rfl, .inl ⟨hchain, rfl⟩⟩, around, surrounds⟩⟩
    | some chain =>
      obtain ⟨root, methods, frames⟩ := Region.frames_of_enclosing sound hs hchain
      refine (agrees_revisitWithin sound surrounds enough sourced hs hchain frames).mono ?_ fun _ _ h => h
      rintro - c' ⟨⟨es, gains, nested⟩, around', surrounds'⟩
      exact ⟨⟨es, s, gains, rfl, .inr ⟨chain, root, methods, hchain, frames, nested⟩⟩, around',
        surrounds'⟩

end Requests

/-- It can be told around every site in which bodies the site was found, after a request as before. -/
theorem ensures_perform_surrounded {p : Program} {config : Configuration} {earlier : List InlinedRecord}
    (h : Visits p config earlier c)
    (surrounded : c.region.forest.Surrounded config.maxRecursiveOccurrences) (advice : Advice)
    (request : Request) :
    Ensures (perform ⟨p, config, advice⟩ request) c
      (fun _ c' => c'.region.forest.Surrounded config.maxRecursiveOccurrences)
      fun _ c' => c'.region.forest.Surrounded config.maxRecursiveOccurrences := by
  have ⟨around, surrounds⟩ := surrounded
  have enough : maxNesting p config ≤ config.maxDepth := min_le_left ..
  cases request with
  | explore method =>
    exact ensures_discard.2 ((agrees_exploreDown h.sound surrounds enough).ensures.imp fun _ _ h => h.2)
  | revisit id =>
    exact ensures_discard.2 ((agrees_revisitDown h.sound surrounds enough
      (h.sourced advice)).ensures.imp fun _ _ h => h.2)
  | markInlined t =>
    refine ensures_markInlined.2 ⟨fun x hx => ⟨fun s hs => ?_, fun _ => surrounded⟩, fun _ => surrounded⟩
    rwa [Compilation.forest_marked]
  | replay t folds =>
    refine ensures_discard.2 (ensures_replay.2 ⟨fun x hx => ?_, fun _ => surrounded⟩)
    rwa [Compilation.forest_replayed]
  | invalidate a => exact surrounded

end Exploration

open Exploration

section Sessions

variable {p : Program} {config : Configuration} {earlier : List InlinedRecord} {c : Compilation}

/-- In every session it can be told around every site in which bodies the site was found. -/
theorem Visits.surrounded (h : Visits p config earlier c) :
    c.region.forest.Surrounded config.maxRecursiveOccurrences := by
  induction h with
  | start =>
    refine ⟨fun _ => [], fun hk => ?_, fun _ ho => ?_, fun ho => ?_⟩
    · simp [Compilation.forest_start] at hk
    · simp [Compilation.forest_start] at ho
    · simp [Compilation.forest_start] at ho
  | @step c c' answer advice request visits run ih =>
    exact (ensures_perform_surrounded visits ih advice request).of_run run

/-- What a journal gained that records nothing is nothing, which is nested too. -/
theorem Nested.gained {methods : List MethodId} {j j' : Journal} {es : List Event}
    (nested : Nested p config methods es) (limits : Limits p config methods) (gains : j.Gains j' es) :
    ∃ es, j'.events.toList = j.events.toList ++ es ∧ Nested p config methods es := by
  refine ⟨_, gains.events, ?_⟩
  split
  · exact nested
  · exact limits.nested nofun

/-- **Bodies nest, and not too deep.** In every session, the events of an exploration that succeeds enter
and leave bodies inside each other, and those of a revisit do so inside the bodies around its site. At
no time are more bodies open than the limits allow: one at each depth, down to the depth limit at most,
and of each method no more than there may be. So neither goes down more than so many levels, however
many the depth limit leaves it. -/
theorem exploration_nested (h : Visits p config earlier c) (advice : Advice) :
    (∀ method found c', (explore ⟨p, config, advice⟩ method).run c = (.ok found, c') →
      ∃ es, c'.journal.events.toList = c.journal.events.toList ++ es ∧ Nested p config [] es) ∧
    (∀ id answer c', (revisit ⟨p, config, advice⟩ id).run c = (.ok answer, c') →
      ∃ es s, c'.journal.events.toList = c.journal.events.toList ++ es ∧
        c.region.sites.get? id = some s ∧
        (c.region.enclosing? s = none ∧ es = [] ∨
          ∃ chain root methods, c.region.enclosing? s = some chain ∧
            c.region.forest.Frames root chain.reverse id methods ∧ Nested p config methods es)) ∧
    ∀ levels, maxNesting p config ≤ levels →
      (∀ method, (exploreDown ⟨p, config, advice⟩ levels method).run c =
        (explore ⟨p, config, advice⟩ method).run c) ∧
      ∀ id, (revisitDown ⟨p, config, advice⟩ levels id).run c =
        (revisit ⟨p, config, advice⟩ id).run c := by
  obtain ⟨around, surrounds⟩ := h.surrounded
  have sourced := h.sourced advice
  refine ⟨fun method found c' run => ?_, fun id answer c' run => ?_, fun levels enough =>
    ⟨fun method => (agrees_exploreDown h.sound surrounds enough).same,
      fun id => (agrees_revisitDown h.sound surrounds enough sourced).same⟩⟩
  · have ends : Ensures (explore ⟨p, config, advice⟩ method) c _ _ :=
      (agrees_exploreDown h.sound surrounds (min_le_left ..)).ensures
    obtain ⟨⟨es, gains, nested⟩, -⟩ := ends.post_of_ok run
    exact nested.gained limits_nil gains
  · have ends : Ensures (revisit ⟨p, config, advice⟩ id) c _ _ :=
      (agrees_revisitDown h.sound surrounds (min_le_left ..) sourced).ensures
    obtain ⟨⟨es, s, gains, hs, bodies⟩, -⟩ := ends.post_of_ok run
    rcases bodies with ⟨detached, rfl⟩ | ⟨chain, root, methods, hchain, frames, nested⟩
    · exact ⟨[], s, by simpa using gains.events, hs, .inl ⟨detached, rfl⟩⟩
    · have limits := Region.limits_of_frames h.sound sourced surrounds frames
      obtain ⟨es, events, nested⟩ := nested.gained limits gains
      exact ⟨es, s, events, hs, .inr ⟨chain, root, methods, hchain, frames, nested⟩⟩

end Sessions

/-- `main` calls `count`, which calls itself. -/
def counting : Program where
  classes := [{ id := ⟨0⟩, name := "Counter" }]
  methods := [
    { id := ⟨0⟩, name := "main", declaringClass := ⟨0⟩, kind := .static, size := .ofNat _ 5,
      calls := [{ index := 1, shape := .direct, method := some ⟨1⟩ }] },
    { id := ⟨1⟩, name := "count", declaringClass := ⟨0⟩, kind := .static, size := .ofNat _ 1,
      calls := [{ index := 2, shape := .direct, method := some ⟨1⟩ }] }]
  accepted := by decide +kernel

/-- The depth limit is as far down as it can be. -/
def bottomless : Configuration := { Configuration.standard with depthLimit := 4294967295 }

/-- `main` was explored, and `count` in it. -/
def counted : Compilation :=
  ((explore ⟨counting, bottomless, .unprofiled⟩ ⟨0⟩).run (.start bottomless [])).2

/-- `count` is entered once, so two levels are enough however deep bodies may lie. The bodies of the
squares that a revisit enters lie inside `render` and `main`. -/
theorem exploration_nested_count :
    Nested counting bottomless [] counted.journal.events.toList ∧
      counted.journal.events.toList.countP (· matches .framePushed ..) = 2 ∧
      (exploreDown ⟨counting, bottomless, .unprofiled⟩ 2 ⟨0⟩).run (.start bottomless []) =
        (explore ⟨counting, bottomless, .unprofiled⟩ ⟨0⟩).run (.start bottomless []) ∧
      ∃ es methods, ((revisit ⟨shapes, .standard, drawing ⟨2⟩⟩ ⟨1⟩).run
          circlesDrawn).2.journal.events.toList = circlesDrawn.journal.events.toList ++ es ∧
        methods.length = 2 ∧ Nested shapes .standard methods es := by
  obtain ⟨explored, -, levels⟩ :=
    exploration_nested (.start : Visits counting bottomless [] _) .unprofiled
  obtain ⟨-, revisited, -⟩ := exploration_nested completes_circlesDrawn.visits (drawing ⟨2⟩)
  have run : (explore ⟨counting, bottomless, .unprofiled⟩ ⟨0⟩).run (.start bottomless []) =
      (.ok [⟨0⟩], counted) := Prod.ext (by decide +kernel) (by rw [counted])
  obtain ⟨es, events, nested⟩ := explored ⟨0⟩ _ _ run
  refine ⟨by rwa [events], by decide +kernel, (levels 2 (by decide)).1 ⟨0⟩, ?_⟩
  have answer : ((revisit ⟨shapes, .standard, drawing ⟨2⟩⟩ ⟨1⟩).run circlesDrawn).1 = .ok true := by
    decide +kernel
  have there : (circlesDrawn.region.sites.get? ⟨1⟩).any fun s =>
      s.depth = 1 ∧ circlesDrawn.region.enclosing? s = some [⟨0⟩] := by decide +kernel
  obtain ⟨es, s, events, hs, bodies⟩ := revisited ⟨1⟩ true _ (Prod.ext answer rfl)
  rw [hs, Option.any_some, decide_eq_true_eq] at there
  obtain ⟨lies, enclosed⟩ := there
  rcases bodies with ⟨detached, -⟩ | ⟨chain, root, methods, -, frames, nested⟩
  · cases detached.symm.trans enclosed
  · obtain ⟨k, hk, height⟩ := frames.depth completes_circlesDrawn.visits.sound
    obtain rfl := Option.some.inj ((Region.forest_call hs).symm.trans hk)
    exact ⟨es, methods, events, by rw [height, lies], nested⟩

end Inlining
