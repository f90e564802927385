import Mathlib
import Inlining.Exploration
import Inlining.Proofs.Acceptance

/-!
# The forest in a region

The call sites and targets of a region form a forest: a site holds its live and removed
targets, and a target the sites that were found in its body. `Region.forest` is what a region
says about that and about sizes; events, failure reasons, constants, numbers and the rest are
left out. It is read by total functions, so what an operation does to it is one record update.
The equations at the end say which update belongs to which operation on a region.
-/

namespace Inlining

/-- What is known of a target from the moment it is added. -/
structure Origin where
  site : SiteId
  method : MethodId
  size : Size

/-- The call sites and targets of a region, as far as ownership and size go. -/
@[ext] structure Forest where
  call? : SiteId → Option Call
  live : SiteId → List TargetId
  removed : SiteId → List TargetId
  totalAdded : SiteId → Nat
  origin? : TargetId → Option Origin
  fullSize : TargetId → Size
  callees : TargetId → List SiteId
  deleted : TargetId → List SiteId
  calleeCount : TargetId → Nat
  deletedCount : TargetId → Nat

/-- What a region says about its sites and targets. -/
def Region.forest (r : Region) : Forest where
  call? i := (r.sites.get? i).map (·.toCall)
  live := r.liveTargets
  removed i := ((r.sites.get? i).map (·.removed)).getD []
  totalAdded i := ((r.sites.get? i).map (·.totalAdded)).getD 0
  origin? t := (r.targets.get? t).map fun x => ⟨x.callSite, x.method, x.size⟩
  fullSize := r.fullSize
  callees t := ((r.targets.get? t).map (·.callees)).getD []
  deleted t := ((r.targets.get? t).map (·.deletedCallees)).getD []
  calleeCount t := ((r.targets.get? t).map (·.calleeCount)).getD 0
  deletedCount t := ((r.targets.get? t).map (·.deletedCalleeCount)).getD 0

namespace Forest

variable (f : Forest)

/-- The site that a target was added to. -/
def home? (t : TargetId) : Option SiteId := (f.origin? t).map (·.site)

/-- A site was found in the body of a target. -/
def Owns (t : TargetId) (i : SiteId) : Prop := i ∈ f.callees t ++ f.deleted t

open Function (update)

/-- A new site. -/
def addSite (i : SiteId) (call : Call) : Forest :=
  { f with call? := update f.call? i (some call) }

/-- A new live target of a site. -/
def addTarget (t : TargetId) (o : Origin) : Forest :=
  { f with
    live := update f.live o.site (f.live o.site ++ [t])
    totalAdded := update f.totalAdded o.site (f.totalAdded o.site + 1)
    origin? := update f.origin? t (some o)
    fullSize := update f.fullSize t o.size }

/-- A live target is removed. -/
def retire (i : SiteId) (t : TargetId) : Forest :=
  { f with
    live := update f.live i ((f.live i).erase t)
    removed := update f.removed i (f.removed i ++ [t]) }

/-- All live targets of a site are removed. -/
def retireAll (i : SiteId) : Forest :=
  { f with
    live := update f.live i []
    removed := update f.removed i (f.removed i ++ f.live i) }

/-- A callee becomes a deleted one. -/
def dropCallee (t : TargetId) (i : SiteId) : Forest :=
  { f with
    callees := update f.callees t ((f.callees t).erase i)
    deleted := update f.deleted t (f.deleted t ++ [i])
    calleeCount := update f.calleeCount t (f.calleeCount t - 1)
    deletedCount := update f.deletedCount t (f.deletedCount t + 1) }

/-- The sum of the sizes of the live targets of some sites. -/
def totalSize (found : List SiteId) : Size :=
  (found.map fun i => ((f.live i).map f.fullSize).sum).sum

/-- The found sites that have live targets. -/
def alive (found : List SiteId) : List SiteId := found.filter fun i => !(f.live i).isEmpty

/-- The found sites that have no live target. -/
def dead (found : List SiteId) : List SiteId := found.filter fun i => (f.live i).isEmpty

/-- The sites in the body of a target are known, and with them its size. -/
def settle (t : TargetId) (size : Size) (found : List SiteId) : Forest :=
  { f with
    fullSize := update f.fullSize t (size + f.totalSize found)
    callees := update f.callees t (f.callees t ++ f.alive found)
    deleted := update f.deleted t (f.deleted t ++ f.dead found)
    calleeCount := update f.calleeCount t (f.calleeCount t + (f.alive found).length)
    deletedCount := update f.deletedCount t (f.deletedCount t + (f.dead found).length) }

/-- A target grows. -/
def enlarge (size : Size) (t : TargetId) : Forest :=
  { f with fullSize := update f.fullSize t (f.fullSize t + size) }

end Forest

/-- What the forest takes from a site. -/
def CallSite.node (s : CallSite) : Call × List TargetId × List TargetId × Nat :=
  (s.toCall, s.live, s.removed, s.totalAdded)

/-- What the forest takes from a target. -/
def CallTarget.node (t : CallTarget) :
    Origin × Size × List SiteId × List SiteId × Nat × Nat :=
  (⟨t.callSite, t.method, t.size⟩, t.fullSize, t.callees, t.deletedCallees, t.calleeCount,
    t.deletedCalleeCount)

namespace Region

variable {r r' : Region}

section Read

variable {i : SiteId} {s : CallSite} {t : TargetId} {x : CallTarget}

theorem forest_call (hs : r.sites.get? i = some s) : r.forest.call? i = some s.toCall := by
  simp [forest, hs]

theorem forest_live (hs : r.sites.get? i = some s) : r.forest.live i = s.live := by
  simp [forest, liveTargets, hs]

theorem forest_removed (hs : r.sites.get? i = some s) : r.forest.removed i = s.removed := by
  simp [forest, hs]

theorem forest_origin (hx : r.targets.get? t = some x) :
    r.forest.origin? t = some ⟨x.callSite, x.method, x.size⟩ := by
  simp [forest, hx]

theorem forest_fullSize (hx : r.targets.get? t = some x) : r.forest.fullSize t = x.fullSize := by
  simp [forest, fullSize, hx]

theorem forest_callees (hx : r.targets.get? t = some x) :
    r.forest.callees t = x.callees ∧ r.forest.deleted t = x.deletedCallees := by
  simp [forest, hx]

theorem forest_owns (hx : r.targets.get? t = some x) :
    r.forest.Owns t i ↔ i ∈ x.callees ++ x.deletedCallees := by
  simp [Forest.Owns, forest, hx]

theorem site_of_call {k : Call} (h : r.forest.call? i = some k) :
    ∃ s, r.sites.get? i = some s ∧ s.toCall = k :=
  Option.map_eq_some_iff.1 h

theorem target_of_origin {o : Origin} (h : r.forest.origin? t = some o) :
    ∃ x, r.targets.get? t = some x ∧ ⟨x.callSite, x.method, x.size⟩ = o :=
  Option.map_eq_some_iff.1 h

end Read

/-- Regions whose sites and targets agree in what the forest takes from them have one forest. -/
theorem forest_congr (sites : ∀ i, (r.sites.get? i).map (·.node) = (r'.sites.get? i).map (·.node))
    (targets : ∀ t, (r.targets.get? t).map (·.node) = (r'.targets.get? t).map (·.node)) :
    r.forest = r'.forest := by
  have site (i) : r.forest.call? i = r'.forest.call? i ∧ r.forest.live i = r'.forest.live i ∧
      r.forest.removed i = r'.forest.removed i ∧ r.forest.totalAdded i = r'.forest.totalAdded i := by
    have := sites i
    simp only [forest, liveTargets]
    cases h : r.sites.get? i <;> cases h' : r'.sites.get? i <;> simp_all [CallSite.node]
  have target (t) : r.forest.origin? t = r'.forest.origin? t ∧
      r.forest.fullSize t = r'.forest.fullSize t ∧ r.forest.callees t = r'.forest.callees t ∧
      r.forest.deleted t = r'.forest.deleted t ∧
      r.forest.calleeCount t = r'.forest.calleeCount t ∧
      r.forest.deletedCount t = r'.forest.deletedCount t := by
    have := targets t
    simp only [forest, fullSize]
    cases h : r.targets.get? t <;> cases h' : r'.targets.get? t <;> simp_all [CallTarget.node]
  ext1 <;> funext k
  · exact (site k).1
  · exact (site k).2.1
  · exact (site k).2.2.1
  · exact (site k).2.2.2
  · exact (target k).1
  · exact (target k).2.1
  · exact (target k).2.2.1
  · exact (target k).2.2.2.1
  · exact (target k).2.2.2.2.1
  · exact (target k).2.2.2.2.2

/-- A change to a target that the forest does not see. -/
theorem forest_modify_target {t : TargetId} {f : CallTarget → CallTarget}
    (h : ∀ x, (f x).node = x.node) :
    ({ r with targets := r.targets.modify t f } : Region).forest = r.forest := by
  refine forest_congr (fun _ => rfl) fun u => ?_
  rw [Arena.get?_modify]
  split
  · simp [Function.comp_def, h]
  · rfl

/-- Folds are nothing that the forest sees. -/
theorem forest_recordFolds (r : Region) (t : TargetId) (folds : List SpeculativeFold) :
    (r.recordFolds t folds).forest = r.forest := by
  induction folds generalizing r with
  | nil => rfl
  | cons fold folds ih => exact (ih _).trans (forest_modify_target fun _ => rfl)

theorem forest_addSite (r : Region) (call : Call) :
    ({ r with sites := r.sites.alloc (.ofCall call) } : Region).forest =
      r.forest.addSite r.sites.next call := by
  have fresh := r.sites.get?_next
  ext1
  case call? =>
    funext i
    simp only [forest, Forest.addSite, Arena.get?_alloc, Function.update_apply]
    split <;> rfl
  case live =>
    funext i
    simp only [forest, Forest.addSite, liveTargets, Arena.get?_alloc]
    split
    next h => simp [h, fresh, CallSite.ofCall]
    next => rfl
  case removed =>
    funext i
    simp only [forest, Forest.addSite, Arena.get?_alloc]
    split
    next h => simp [h, fresh, CallSite.ofCall]
    next => rfl
  case totalAdded =>
    funext i
    simp only [forest, Forest.addSite, Arena.get?_alloc]
    split
    next h => simp [h, fresh, CallSite.ofCall]
    next => rfl
  all_goals rfl

/-- The region in which a site and the targets are those of a scope. -/
def put (r : Region) (id : SiteId) (s : SiteScope) : Region :=
  { r with sites := r.sites.modify id fun _ => s.site, targets := s.targets }

section Put

variable {id : SiteId} {s : SiteScope}

theorem get?_put_site (h : r.sites.get? id ≠ none) (i : SiteId) :
    (r.put id s).sites.get? i = if id = i then some s.site else r.sites.get? i := by
  obtain ⟨x, hx⟩ := Option.ne_none_iff_exists'.1 h
  rw [put, Arena.get?_modify]
  split
  next e => subst e; simp [hx]
  next => rfl

/-- A change of scope that the forest does not see. -/
theorem forest_put_congr {s' : SiteScope} (site : s'.site.node = s.site.node)
    (targets : ∀ t, (s'.targets.get? t).map (·.node) = (s.targets.get? t).map (·.node)) :
    (r.put id s').forest = (r.put id s).forest := by
  refine forest_congr (fun i => ?_) targets
  simp only [put, Arena.get?_modify]
  split
  · cases r.sites.get? i <;> simp [site]
  · rfl

theorem forest_put_add (h : r.sites.get? id ≠ none) (hid : s.site.id = id) {t : CallTarget}
    {m : MethodId} {size : Size} (ht : t.node = (⟨id, m, size⟩, size, [], [], 0, 0)) :
    (r.put id (s.add t).2).forest =
      (r.put id s).forest.addTarget s.targets.next ⟨id, m, size⟩ := by
  have fresh := s.targets.get?_next
  simp only [CallTarget.node, Prod.mk.injEq, Origin.mk.injEq] at ht
  ext1 <;> funext k
  case call? | live | removed | totalAdded =>
    simp only [forest, Forest.addTarget, liveTargets, get?_put_site h, SiteScope.add,
      Function.update_apply]
    grind
  case origin? | fullSize =>
    simp only [forest, Forest.addTarget, fullSize, put, SiteScope.add, Function.update_apply,
      Arena.get?_alloc]
    grind
  all_goals
    simp only [forest, Forest.addTarget, put, SiteScope.add, Arena.get?_alloc]
    grind

/-- The target that a candidate makes has nothing below it yet. -/
theorem node_targetOf (hid : s.site.id = id) (p : Program) (k : Candidate) : ∃ size,
    (s.targetOf p k).node = (⟨id, k.method, size⟩, size, [], [], 0, 0) := by
  subst hid
  unfold SiteScope.targetOf
  cases p.sizeOf? k.method with
  | none => exact ⟨0, rfl⟩
  | some size => exact ⟨size, rfl⟩

/-- Retired targets are appended to the removed ones, and the forest sees no other change. -/
theorem retireAll_node (s : SiteScope) (ts : List TargetId) (reason : FailureReason) :
    (s.retireAll ts reason).site = { s.site with removed := s.site.removed ++ ts } ∧
      ∀ u, ((s.retireAll ts reason).targets.get? u).map (·.node) =
        (s.targets.get? u).map (·.node) := by
  induction ts generalizing s with
  | nil => exact ⟨by simp [SiteScope.retireAll], fun _ => rfl⟩
  | cons t ts ih =>
    obtain ⟨site, targets⟩ := ih (s.retire t reason)
    refine ⟨?_, fun u => (targets u).trans ?_⟩
    · simpa [SiteScope.retireAll, SiteScope.retire, SiteScope.note] using site
    · simp only [SiteScope.retire, SiteScope.note, Arena.get?_modify]
      split
      · cases s.targets.get? u <;> rfl
      · rfl

theorem forest_put_retireAll (h : r.sites.get? id ≠ none) (live ts : List TargetId)
    (reason : FailureReason) :
    (r.put id (SiteScope.retireAll { s with site := { s.site with live } } ts reason)).forest =
      { (r.put id s).forest with
        live := Function.update (r.put id s).forest.live id live
        removed := Function.update (r.put id s).forest.removed id (s.site.removed ++ ts) } := by
  obtain ⟨site, targets⟩ := retireAll_node { s with site := { s.site with live } } ts reason
  rw [forest_put_congr
    (s := { s with site := { s.site with live, removed := s.site.removed ++ ts } })
    (by rw [site]) targets]
  ext1 <;> funext k
  case call? | live | removed | totalAdded =>
    simp only [forest, liveTargets, get?_put_site h, Function.update_apply]
    grind
  all_goals rfl

theorem forest_put_live (h : r.sites.get? id ≠ none) : (r.put id s).forest.live id = s.site.live := by
  simp [forest, liveTargets, get?_put_site h]

theorem forest_put_removed (h : r.sites.get? id ≠ none) :
    (r.put id s).forest.removed id = s.site.removed := by
  simp [forest, get?_put_site h]

/-- A removed target goes from the live ones to the end of the removed ones. -/
theorem forest_put_remove (h : r.sites.get? id ≠ none) {t : TargetId} {reason : FailureReason}
    {s' : SiteScope} (hs : s.remove t reason = .ok s') :
    t ∈ s.site.live ∧ (r.put id s').forest = (r.put id s).forest.retire id t := by
  obtain ⟨live, hs⟩ := unit_bind_eq_ok.1 hs
  refine ⟨by simpa [SiteScope.checkLive] using live, ?_⟩
  cases hs
  have retired := forest_put_retireAll (s := s) h (s.site.live.erase t) [t] reason
  simp only [SiteScope.retireAll, List.foldl_cons, List.foldl_nil] at retired
  rw [retired, Forest.retire, forest_put_live h, forest_put_removed h]

theorem forest_put_removeAll (h : r.sites.get? id ≠ none) {reason : FailureReason}
    {s' : SiteScope} (hs : s.removeAll reason = .ok s') :
    (r.put id s').forest = (r.put id s).forest.retireAll id := by
  have : s' = SiteScope.retireAll { s with site := { s.site with live := [] } } s.site.live reason := by
    simpa [SiteScope.removeAll, SiteScope.removeFrom, eq_comm] using hs
  rw [this, forest_put_retireAll h, Forest.retireAll, forest_put_live h, forest_put_removed h]

end Put

/-- The loop of `Region.settle` appends the found sites with targets to the callees and the
others to the deleted callees. -/
theorem foldl_addFound (r : Region) (t : TargetId) (found : List SiteId) :
    found.foldl (fun r i => r.addFound t i) r =
      { r with targets := r.targets.modify t fun x => { x with
          callees := x.callees ++ r.forest.alive found
          calleeCount := x.calleeCount + (r.forest.alive found).length
          deletedCallees := x.deletedCallees ++ r.forest.dead found
          deletedCalleeCount := x.deletedCalleeCount + (r.forest.dead found).length } } := by
  induction found generalizing r with
  | nil =>
    have same : r.targets = r.targets.modify t fun x => { x with
        callees := x.callees ++ [], calleeCount := x.calleeCount + 0
        deletedCallees := x.deletedCallees ++ [], deletedCalleeCount := x.deletedCalleeCount + 0 } := by
      refine Arena.ext_get? fun u => ?_
      rw [Arena.get?_modify]
      split <;> simp
    exact congrArg (fun targets => ({ r with targets } : Region)) same
  | cons i found ih =>
    have alive : (r.addFound t i).forest.alive found = r.forest.alive found := rfl
    have dead : (r.addFound t i).forest.dead found = r.forest.dead found := rfl
    rw [List.foldl_cons, ih, alive, dead]
    simp only [addFound]
    congr 1
    refine Arena.ext_get? fun u => ?_
    simp only [Arena.get?_modify]
    by_cases h : t = u
    · cases hu : r.targets.get? u with
      | none => simp [h]
      | some x =>
        have live : r.forest.live i = r.liveTargets i := rfl
        cases hl : (r.liveTargets i).isEmpty with
        | true => simp [h, hl, live, Forest.alive, Forest.dead, CallTarget.addDeadCallee]; omega
        | false => simp [h, hl, live, Forest.alive, Forest.dead, CallTarget.addCallee]; omega
    · simp [h]

theorem forest_settle (r : Region) {t : TargetId} {x : CallTarget}
    (hx : r.targets.get? t = some x) (found : List SiteId) :
    (r.settle t found).forest = r.forest.settle t x.size found := by
  simp only [settle, foldl_addFound]
  ext1 <;> funext k
  case call? | live | removed | totalAdded => rfl
  all_goals
    simp only [forest, Forest.settle, Arena.get?_modify, Function.update_apply, fullSize]
    by_cases h : t = k
    · subst h
      simp [hx, Forest.totalSize, totalSize]
    · simp [h, Ne.symm h]

theorem forest_dropCallee {t : TargetId} {x y : CallTarget} {i : SiteId}
    (hx : r.targets.get? t = some x) (hy : x.removeCallee t i = .ok y) :
    i ∈ r.forest.callees t ∧
      ({ r with targets := r.targets.modify t fun _ => y } : Region).forest =
        r.forest.dropCallee t i := by
  unfold CallTarget.removeCallee at hy
  split at hy
  next mem =>
    cases hy
    refine ⟨by simpa [forest, hx] using mem, ?_⟩
    ext1 <;> funext k
    case call? | live | removed | totalAdded => rfl
    all_goals
      simp only [forest, Forest.dropCallee, Arena.get?_modify, Function.update_apply, fullSize]
      by_cases h : t = k
      · subst h
        simp [hx]
      · simp [h, Ne.symm h]
  next => cases hy

theorem forest_enlarge {t : TargetId} {x : CallTarget} (hx : r.targets.get? t = some x)
    (size : Size) :
    ({ r with targets := r.targets.modify t fun x => { x with fullSize := x.fullSize + size } } :
      Region).forest = r.forest.enlarge size t := by
  ext1 <;> funext k
  case call? | live | removed | totalAdded => rfl
  all_goals
    simp only [forest, Forest.enlarge, Arena.get?_modify, Function.update_apply, fullSize]
    by_cases h : t = k
    · subst h
      simp [hx]
    · simp [h, Ne.symm h]

theorem forest_grow (r : Region) {ts : List TargetId} (hts : ∀ t ∈ ts, r.targets.get? t ≠ none)
    (size : Size) :
    (r.grow ts size).forest = ts.foldl (fun f t => f.enlarge size t) r.forest := by
  induction ts generalizing r with
  | nil => rfl
  | cons t ts ih =>
    obtain ⟨x, hx⟩ := Option.ne_none_iff_exists'.1 (hts t (List.mem_cons_self ..))
    rw [List.foldl_cons, ← forest_enlarge hx, ← ih]
    · rfl
    · intro u hu
      rw [Arena.get?_modify]
      have := hts u (List.mem_cons_of_mem _ hu)
      split <;> simpa using this

end Region

end Inlining
