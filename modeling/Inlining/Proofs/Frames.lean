import Inlining.Proofs.Enclosure
import Inlining.Proofs.Ensures

/-!
# The stack inside nested bodies

A call is screened against the methods of the frames it is made from and against what was inlined
earlier; nothing else about the stack matters (`mem_candidates_iff`). `CallStack.Stands` says
which methods a stack has frames for, one at each depth. `Forest.Frames` says which methods stand
around a site, given the bodies that enclose it. The stack that a revisit reads off the forest has
frames for exactly these (`ensures_revisit_within`), as has the stack of the exploration that found
the site, which begins with one frame (`ensures_explore_within`).
-/

namespace Inlining

/-- A stack has frames for some methods, the innermost first, one at each depth from zero on. -/
structure CallStack.Stands (s : CallStack) (methods : List MethodId)
    (earlier : List InlinedRecord) : Prop where
  names : s.frames.map (·.method) = methods
  depths : s.frames.map (·.depth) = (List.range methods.length).reverse
  earlier : s.previouslyInlined = earlier

namespace CallStack

variable {s : CallStack} {methods : List MethodId} {earlier : List InlinedRecord} {m : MethodId}

theorem stands_empty (size : Size) (earlier : List InlinedRecord) :
    Stands { maxCallSize := size, previouslyInlined := earlier } [] earlier :=
  ⟨rfl, rfl, rfl⟩

/-- A frame may be pushed at the next depth. -/
theorem Stands.push (h : s.Stands methods earlier) (symbol : Option SymbolId) (m : MethodId) :
    ∃ s', s.push symbol m methods.length true = .ok s' ∧ s'.Stands (m :: methods) earlier := by
  have pushed (f : Frame) (hm : f.method = m) (hd : f.depth = methods.length) :
      ({ s with frames := f :: s.frames } : CallStack).Stands (m :: methods) earlier := by
    refine ⟨by simp [hm, h.names], ?_, h.earlier⟩
    rw [List.length_cons, List.range_succ, List.reverse_concat, ← h.depths, List.map_cons, hd]
  refine ⟨_, ?_, pushed (.enter symbol m methods.length true s.maxCallSize s.current?) rfl rfl⟩
  unfold CallStack.push
  cases hc : s.current? with
  | none => rfl
  | some caller =>
    -- the innermost frame stands at the depth before
    have shallow : caller.depth < methods.length := by
      have mem : caller.depth ∈ s.frames.map (·.depth) :=
        List.mem_map_of_mem (List.mem_of_mem_head? hc)
      rw [h.depths] at mem
      simpa using mem
    simp [Nat.not_le.2 shallow]

/-- Changing the innermost frame where it stands keeps the frames in place. -/
theorem Stands.modifyCurrent (h : s.Stands (m :: methods) earlier) {f : Frame → Frame}
    (place : ∀ g, (f g).place = g.place) :
    ∃ s', s.modifyCurrent f = .ok s' ∧ s'.Stands (m :: methods) earlier := by
  obtain ⟨hm, hd, he⟩ := h
  cases hf : s.frames with
  | nil => simp [hf] at hm
  | cons g rest =>
    have method : (f g).method = g.method := congrArg Prod.fst (place g)
    have depth : (f g).depth = g.depth := congrArg Prod.snd (place g)
    rw [hf] at hm hd
    refine ⟨{ s with frames := f g :: rest }, ?_, ?_, ?_, he⟩
    · simp [CallStack.modifyCurrent, hf]
    · simpa [method] using hm
    · simpa [depth] using hd

theorem Stands.moveTo (h : s.Stands (m :: methods) earlier) (p : Program) (block : BlockId) :
    ∃ s', s.moveTo p block = .ok s' ∧ s'.Stands (m :: methods) earlier :=
  h.modifyCurrent fun g => g.place_moveTo p block

theorem Stands.cacheBlocks (h : s.Stands (m :: methods) earlier) (p : Program) :
    ∃ s', s.cacheBlocks p = .ok s' ∧ s'.Stands (m :: methods) earlier :=
  h.modifyCurrent fun g => g.place_cacheBlocks p

theorem Stands.atNode (h : s.Stands (m :: methods) earlier) (node? : Option NodeId) :
    ∃ s', s.atNode node? = .ok s' ∧ s'.Stands (m :: methods) earlier := by
  cases node? with
  | none => exact ⟨s, rfl, h⟩
  | some node => exact h.modifyCurrent fun _ => rfl

end CallStack

namespace Environment

variable (env : Environment)

/-- A method may be taken for a frame at `depth` inside frames of some methods, unless the site has
it already. -/
structure Admits (methods : List MethodId) (earlier : List InlinedRecord) (depth : Nat)
    (m : MethodId) : Prop where
  new : ⟨m, depth⟩ ∉ earlier
  shallow : methods.count m < env.config.maxRecursiveOccurrences
  small : ∀ size ∈ env.program.sizeOf? m, size ≤ env.config.maxCallSize

/-- A call may be bound by a candidate when it is made inside frames of some methods, unless its
site has the method already. -/
structure Offers (methods : List MethodId) (earlier : List InlinedRecord) (k : Call)
    (b : Candidate) : Prop where
  within : k.depth < env.config.maxDepth
  proposed : b ∈ (env.firstBound k.unboundReason (k.steps env)).1
  admitted : env.Admits methods earlier (k.depth + 1) b.method

variable {env} {methods : List MethodId} {earlier later : List InlinedRecord} {k : Call} {b : Candidate}

theorem Admits.antitone {depth : Nat} {m : MethodId} (h : env.Admits methods later depth m)
    (more : earlier ⊆ later) : env.Admits methods earlier depth m :=
  ⟨fun old => h.new (more old), h.shallow, h.small⟩

/-- With more inlined earlier less is offered. -/
theorem Offers.antitone (h : env.Offers methods later k b) (more : earlier ⊆ later) :
    env.Offers methods earlier k b :=
  ⟨h.within, h.proposed, h.admitted.antitone more⟩

/-- A method is taken on a stack unless the site has it or one of the limits speaks against it. -/
theorem rejection?_eq_none {stack : CallStack} {already : List MethodId} {depth : Nat} {m : MethodId} :
    env.rejection? stack already depth m = none ↔
      (⟨m, depth⟩ ∉ stack.previouslyInlined ∧
        stack.occurrences m < env.config.maxRecursiveOccurrences ∧
        ∀ size ∈ env.program.sizeOf? m, size ≤ env.config.maxCallSize) ∧ m ∉ already := by
  unfold rejection?
  constructor
  · intro h
    split at h
    next => cases h
    next fresh =>
      simp only [CallStack.wasPreviouslyInlined, Bool.or_eq_true, List.contains_iff_mem, not_or] at fresh
      split at h
      next => cases h
      next shallow =>
        split at h
        next => cases h
        next small =>
          refine ⟨⟨fresh.2, Nat.not_le.1 shallow, fun size hsize => ?_⟩, fresh.1⟩
          simp only [Option.mem_def] at hsize
          have fits : ¬ env.config.maxCallSize < size := by simpa [hsize] using small
          exact Nat.not_lt.1 fits
  · rintro ⟨⟨new, shallow, small⟩, fresh⟩
    have fresh' : ¬(already.contains m || stack.wasPreviouslyInlined m depth) = true := by
      simp [CallStack.wasPreviouslyInlined, fresh, new]
    rw [if_neg fresh', if_neg (Nat.not_le.2 shallow)]
    cases hsize : env.program.sizeOf? m with
    | none => simp
    | some size => simp [Nat.not_lt.2 (small size hsize), Saturating.lt_def]

theorem rejection?_eq_none_iff {stack : CallStack} (stands : stack.Stands methods earlier)
    {already : List MethodId} {depth : Nat} {m : MethodId} :
    env.rejection? stack already depth m = none ↔
      env.Admits methods earlier depth m ∧ m ∉ already := by
  have count : stack.occurrences m = methods.count m := by
    rw [← stands.names, CallStack.occurrences, List.count, List.countP_map]
    rfl
  rw [rejection?_eq_none, count, stands.earlier]
  exact and_congr_left' ⟨fun ⟨new, shallow, small⟩ => ⟨new, shallow, small⟩,
    fun ⟨new, shallow, small⟩ => ⟨new, shallow, small⟩⟩

/-- What the candidates for a call are, in terms of the frames that it is made from. -/
theorem mem_candidates_iff {stack : CallStack} (stands : stack.Stands methods earlier)
    {already : List MethodId} :
    b ∈ (env.resolve k stack already).candidates ↔
      env.Offers methods earlier k b ∧ b.method ∉ already := by
  unfold resolve
  split
  next deep =>
    simp only [List.not_mem_nil, false_iff, not_and]
    exact fun offers => absurd offers.within (Nat.not_lt.2 deep)
  next within =>
    dsimp only
    rw [List.mem_filter, Option.isNone_iff_eq_none, rejection?_eq_none_iff stands]
    exact ⟨fun ⟨proposed, admitted, fresh⟩ => ⟨⟨Nat.not_le.1 within, proposed, admitted⟩, fresh⟩,
      fun ⟨offers, fresh⟩ => ⟨offers.proposed, offers.admitted, fresh⟩⟩

end Environment

namespace Forest

variable {f : Forest}

/-- The methods of the bodies around a site, the innermost first, down to the compiled method
`root`; the bodies are those of the targets in the list. -/
inductive Frames (f : Forest) (root : MethodId) : List TargetId → SiteId → List MethodId → Prop
  | root {i : SiteId} {k : Call} :
    f.call? i = some k → k.depth = 0 → k.caller = root → Frames f root [] i [root]
  | body {e : TargetId} {rest : List TargetId} {i j : SiteId} {o : Origin} {methods : List MethodId} :
    i ∈ f.callees e → e ∈ f.live j → f.origin? e = some o → Frames f root rest j methods →
    Frames f root (e :: rest) i (o.method :: methods)

/-- A site inside nested bodies has frames around it. -/
theorem Encloses.frames {depth : Nat} (sound : f.Sound depth) {chain : List TargetId} {i : SiteId}
    (h : f.Encloses chain i) : ∃ root methods, f.Frames root chain i methods := by
  induction chain generalizing i with
  | nil =>
    obtain ⟨k, hk, top⟩ := h
    exact ⟨k.caller, _, .root hk top rfl⟩
  | cons e rest ih =>
    obtain ⟨hi, j, he, hj⟩ := h
    obtain ⟨o, ho, -⟩ := sound.origin_of_live he
    obtain ⟨root, methods, frames⟩ := ih hj
    exact ⟨root, _, .body hi he ho frames⟩

theorem Frames.encloses {root : MethodId} {chain : List TargetId} {i : SiteId}
    {methods : List MethodId} (h : f.Frames root chain i methods) : f.Encloses chain i := by
  induction h with
  | root hk top _ => exact ⟨_, hk, top⟩
  | body hi he _ _ ih => exact ⟨hi, _, he, ih⟩

/-- There is a frame for every depth down to that of the site. -/
theorem Frames.depth {depth : Nat} (sound : f.Sound depth) {root : MethodId}
    {chain : List TargetId} {i : SiteId} {methods : List MethodId}
    (h : f.Frames root chain i methods) : ∃ k, f.call? i = some k ∧ methods.length = k.depth + 1 := by
  induction h with
  | root hk top _ => exact ⟨_, hk, by simp [top]⟩
  | body hi he _ _ ih =>
    obtain ⟨k, hk, length⟩ := ih
    obtain ⟨o, k₁, k₂, ho, h₁, h₂, deeper, -⟩ := sound.owned (List.mem_append_left _ hi)
    rw [sound.site_of_live ho he, hk] at h₁
    obtain rfl := Option.some.inj h₁
    exact ⟨k₂, h₂, by simp [length, deeper]⟩

/-- There is one frame more than the site is deep. -/
theorem Frames.height {depth : Nat} (sound : f.Sound depth) {root : MethodId}
    {chain : List TargetId} {i : SiteId} {methods : List MethodId}
    (h : f.Frames root chain i methods) {k : Call} (hk : f.call? i = some k) :
    methods.length = k.depth + 1 := by
  obtain ⟨k', hk', height⟩ := h.depth sound
  obtain rfl := Option.some.inj (hk.symm.trans hk')
  exact height

/-- The outermost of the bodies around a site belongs to a call of the compiled method. -/
theorem Frames.outermost {root : MethodId} {chain : List TargetId} {i : SiteId}
    {methods : List MethodId} (h : f.Frames root chain i methods) :
    (chain = [] ∧ ∃ k, f.call? i = some k ∧ k.caller = root) ∨
      ∃ inner e j k, chain = inner ++ [e] ∧ e ∈ f.live j ∧ f.call? j = some k ∧ k.caller = root := by
  induction h with
  | root hk _ caller => exact .inl ⟨rfl, _, hk, caller⟩
  | @body e rest i j o methods hi he ho _ ih =>
    right
    rcases ih with ⟨rfl, k, hk, caller⟩ | ⟨inner, e', j', k, rfl, he', hk, caller⟩
    · exact ⟨[], e, j, k, rfl, he, hk, caller⟩
    · exact ⟨e :: inner, e', j', k, rfl, he', hk, caller⟩

end Forest

/-- Around a site that is attached there are frames. -/
theorem Region.frames_of_enclosing {r : Region} {depth : Nat} {id : SiteId} {s : CallSite}
    {chain : List TargetId} (sound : r.forest.Sound depth) (hs : r.sites.get? id = some s)
    (hchain : r.enclosing? s = some chain) :
    ∃ root methods, r.forest.Frames root chain.reverse id methods :=
  ((enclosing?_eq_some_iff sound hs).1 hchain).frames sound

namespace Exploration

variable {c : Compilation} {depth : Nat} {root : MethodId} {chain : List TargetId} {id : SiteId}
  {methods : List MethodId} {earlier : List InlinedRecord} {fail : Fault → Compilation → Prop}

theorem stackWithin_append (stack : CallStack) (outer inner : List TargetId) :
    stackWithin stack (outer ++ inner) =
      stackWithin stack outer >>= fun stack => stackWithin stack inner := by
  induction outer generalizing stack with
  | nil => simp [stackWithin]
  | cons t outer ih => simp [stackWithin, ih]

/-- Explores a method within the given number of levels. -/
def exploreDown (env : Environment) (levels : Nat) (method : MethodId) : Exploration (List SiteId) := do
  if (env.program.sizeOf? method).isNone then throw (.noBody method)
  let stack : CallStack :=
    { maxCallSize := env.config.maxCallSize
      previouslyInlined := (← get).previouslyInlined }
  let stack ← enter stack none method 0
  let stack ← ofExcept (stack.cacheBlocks env.program)
  let found ← exploreBody env (exploreTarget env levels) stack method 0
  leave stack true
  modify fun c => { c with roots := c.roots ++ found, compiled := c.compiled ++ [method] }
  return found

theorem explore_eq (env : Environment) (method : MethodId) :
    explore env method = exploreDown env env.config.maxDepth method := rfl

/-- Exploring a method without a body fails. -/
theorem run_exploreDown_of_none {env : Environment} {method : MethodId}
    (missing : env.program.sizeOf? method = none) (levels : Nat) :
    (exploreDown env levels method).run c = (.error (.noBody method), c) := by
  apply Ensures.run_error
  unfold exploreDown
  rw [missing]
  exact ⟨rfl, rfl⟩

theorem run_explore_of_none {env : Environment} {method : MethodId}
    (missing : env.program.sizeOf? method = none) :
    (explore env method).run c = (.error (.noBody method), c) :=
  run_exploreDown_of_none missing env.config.maxDepth

/-- An exploration of a method with a body explores that body on a stack with one frame. -/
theorem run_exploreDown {env : Environment} {method : MethodId}
    (known : env.program.sizeOf? method ≠ none) :
    ∃ stack : CallStack, stack.Stands [method] c.previouslyInlined ∧ stack.At method 0 ∧ ∀ levels,
      (exploreDown env levels method).run c = (do
        let found ← exploreBody env (exploreTarget env levels) stack method 0
        leave stack true
        modify fun c : Compilation =>
          { c with roots := c.roots ++ found, compiled := c.compiled ++ [method] }
        return found).run { c with journal := c.journal.record (.framePushed method 0) } := by
  obtain ⟨bottom, hpush, stands⟩ :=
    (CallStack.stands_empty env.config.maxCallSize c.previouslyInlined).push none method
  rw [List.length_nil] at hpush
  obtain ⟨stack, cached, stands⟩ := stands.cacheBlocks env.program
  refine ⟨stack, stands, (CallStack.at_push hpush).cacheBlocks cached, fun levels => ?_⟩
  unfold exploreDown
  dsimp only
  rw [if_neg (by simpa using known), run_get_bind, run_bind_of_ok (run_enter hpush), cached]
  rfl

theorem ensures_explore_within {env : Environment} {method : MethodId}
    {post : List SiteId → Compilation → Prop} (known : env.program.sizeOf? method ≠ none)
    (h : ∀ stack, stack.Stands [method] c.previouslyInlined →
      Ensures (exploreBody env (exploreTarget env env.config.maxDepth) stack method 0)
        { c with journal := c.journal.record (.framePushed method 0) }
        (fun found c' => post found { c' with
          journal := c'.journal.record (.framePopped method 0 true)
          roots := c'.roots ++ found
          compiled := c'.compiled ++ [method] }) fail) :
    Ensures (explore env method) c post fail := by
  obtain ⟨stack, stands, inside, run⟩ := run_exploreDown (c := c) known
  refine .congr (run env.config.maxDepth) (.bind (h stack stands) fun found c' done => ?_)
  rw [ensures_bind, ensures_leave inside, ensures_bind, ensures_modify, ensures_pure]
  exact done

/-- Explores a new target of a site inside `chain` within the given number of levels, and charges it. -/
def absorb (env : Environment) (levels : Nat) (stack : CallStack) (chain : List TargetId) (id : SiteId)
    (t : TargetId) : Exploration Unit := do
  exploreTarget env levels stack id t
  if (← site id).live.contains t && !chain.isEmpty then
    charge env chain id t

/-- Resolves a site again on the stack inside `chain`, and absorbs what it was given. -/
def resume (env : Environment) (levels : Nat) (stack : CallStack) (id : SiteId) (s : CallSite)
    (chain : List TargetId) : Exploration Bool := do
  let _ ← resolveSite env stack id
  let added := (← site id).live.filter (!s.live.contains ·)
  added.forM (absorb env (levels - s.depth) stack chain id)
  return !(← site id).live.isEmpty

/-- Revisits a site within the given number of levels below the compiled method. -/
def revisitDown (env : Environment) (levels : Nat) (id : SiteId) : Exploration Bool := do
  let s ← site id
  match (← get).region.enclosing? s with
  | none => return false
  | some chain =>
    let stack : CallStack :=
      { maxCallSize := env.config.maxCallSize
        previouslyInlined := (← get).previouslyInlined }
    let stack ← ofExcept (stack.push none (← rootMethod s chain) 0 true)
    let stack ← stackWithin stack chain
    resume env levels stack id s chain

theorem revisit_eq (env : Environment) (id : SiteId) :
    revisit env id = revisitDown env env.config.maxDepth id := rfl

/-- A revisit of a site that does not exist fails. -/
theorem run_revisitDown_of_none {env : Environment} (hs : c.region.sites.get? id = none) (levels : Nat) :
    (revisitDown env levels id).run c = (.error (.noSite id), c) := by
  apply Ensures.run_error
  rw [revisitDown, ensures_bind, ensures_site]
  exact ⟨fun s hs' => by simp [hs] at hs', fun _ => ⟨rfl, rfl⟩⟩

theorem run_revisit_of_none {env : Environment} (hs : c.region.sites.get? id = none) :
    (revisit env id).run c = (.error (.noSite id), c) :=
  run_revisitDown_of_none hs env.config.maxDepth

/-- A revisit of a site that is not attached to a compiled method does nothing. -/
theorem run_revisitDown_of_detached {env : Environment} {s : CallSite}
    (hs : c.region.sites.get? id = some s) (detached : c.region.enclosing? s = none) (levels : Nat) :
    (revisitDown env levels id).run c = (.ok false, c) := by
  rw [revisitDown, run_bind_of_ok (run_site hs), run_get_bind, detached]
  rfl

theorem run_revisit_of_detached {env : Environment} {s : CallSite}
    (hs : c.region.sites.get? id = some s) (detached : c.region.enclosing? s = none) :
    (revisit env id).run c = (.ok false, c) :=
  run_revisitDown_of_detached hs detached env.config.maxDepth

section Rebuilt

variable (sound : c.region.forest.Sound depth) (frames : c.region.forest.Frames root chain id methods)
include sound frames

/-- The compiled method around a site is found. -/
theorem run_rootMethod {s : CallSite} (hs : c.region.sites.get? id = some s) :
    (rootMethod s chain.reverse).run c = (.ok root, c) := by
  rcases frames.outermost with ⟨rfl, k, hk, caller⟩ | ⟨inner, e, j, k, rfl, he, hk, caller⟩
  · obtain rfl : s.toCall = k := Option.some.inj ((Region.forest_call hs).symm.trans hk)
    subst caller
    rfl
  · obtain ⟨o, ho, rfl⟩ := sound.origin_of_live he
    obtain ⟨x, hx, rfl⟩ := Region.target_of_origin ho
    obtain ⟨s', hs', rfl⟩ := Region.site_of_call hk
    subst caller
    rw [List.reverse_concat, rootMethod, run_bind_of_ok (run_target hx), run_bind_of_ok (run_site hs')]
    rfl

/-- The rebuilt stack has the frames around the site. -/
theorem run_stackWithin {stack : CallStack} (stands : stack.Stands [root] earlier) :
    ∃ inner, inner.Stands methods earlier ∧ (stackWithin stack chain.reverse).run c = (.ok inner, c) := by
  induction frames generalizing stack with
  | root => exact ⟨stack, stands, rfl⟩
  | @body e rest i j o methods hi he ho frames ih =>
    obtain ⟨k, hk, length⟩ := frames.depth sound
    obtain ⟨x, hx, rfl⟩ := Region.target_of_origin ho
    obtain ⟨s, hs, rfl⟩ := Region.site_of_call hk
    have home : x.callSite = j := sound.site_of_live ho he
    obtain ⟨inner, stands, run⟩ := ih stands
    obtain ⟨pushed, hpush, stands⟩ := stands.push x.symbol x.method
    rw [length] at hpush
    refine ⟨pushed, stands, ?_⟩
    rw [List.reverse_cons, stackWithin_append, run_bind_of_ok run, stackWithin,
      run_bind_of_ok (run_target hx)]
    change (site x.callSite >>= _).run c = _
    rw [home, run_bind_of_ok (run_site hs)]
    simp only [hpush]
    rfl

/-- A revisit resumes at its site on a stack with the frames around it. -/
theorem run_revisitDown {env : Environment} {s : CallSite} (hs : c.region.sites.get? id = some s)
    (hchain : c.region.enclosing? s = some chain.reverse) :
    ∃ stack : CallStack, stack.Stands methods c.previouslyInlined ∧ ∀ levels,
      (revisitDown env levels id).run c = (resume env levels stack id s chain.reverse).run c := by
  obtain ⟨bottom, hpush, stands⟩ :=
    (CallStack.stands_empty env.config.maxCallSize c.previouslyInlined).push none root
  rw [List.length_nil] at hpush
  obtain ⟨stack, stands, run⟩ := run_stackWithin sound frames stands
  refine ⟨stack, stands, fun levels => ?_⟩
  rw [revisitDown, run_bind_of_ok (run_site hs), run_get_bind, hchain]
  dsimp only
  rw [run_get_bind, run_bind_of_ok (run_rootMethod sound frames hs), hpush]
  exact run_bind_of_ok run

theorem ensures_revisit_within {env : Environment} {s : CallSite} {post : Bool → Compilation → Prop}
    (hs : c.region.sites.get? id = some s) (hchain : c.region.enclosing? s = some chain.reverse)
    (h : ∀ stack, stack.Stands methods c.previouslyInlined →
      Ensures (resume env env.config.maxDepth stack id s chain.reverse) c post fail) :
    Ensures (revisit env id) c post fail := by
  obtain ⟨stack, stands, run⟩ := run_revisitDown sound frames hs hchain
  exact .congr (run env.config.maxDepth) (h stack stands)

end Rebuilt

end Exploration

end Inlining
