import Inlining.Proofs.Faults
import Inlining.Proofs.Ledger

/-!
# Checks and the log only observe

A configuration may ask for two things that are no part of the work: that the bookkeeping is checked
while it is done, and that every decision is recorded. Here everything is run once more without either
(`Environment.silent`), from the compilation without its log (`Compilation.silent`). What a part of an
exploration does where it succeeds, it does there as well (`Erases`), by one rule for each way to put
parts together. Since a request fails only for an unknown handle or a refused first binding, sessions
that differ in these two settings alone agree on everything but the log (`session_observed`).
-/

namespace Inlining

/-- The configuration with other settings for the checks and the log. -/
def Configuration.observing (config : Configuration) (verify trace : Bool) : Configuration :=
  { config with verifyInvariants := verify, traceEvents := trace }

/-- The environment without checks and log. -/
def Environment.silent (env : Environment) : Environment :=
  { env with config := env.config.observing false false }

/-- What was counted, without the log. -/
def Journal.silent (j : Journal) : Journal := { recording := false, counted := j.counted }

def SiteScope.silent (s : SiteScope) : SiteScope := { s with journal := s.journal.silent }

def Compilation.silent (c : Compilation) : Compilation := { c with journal := c.journal.silent }

theorem Journal.silent_record (j : Journal) (e : Event) : (j.record e).silent = j.silent := by
  unfold silent
  rw [counted_record]

namespace Environment

variable (env : Environment)

theorem firstBound_silent (reason : FailureReason) (steps : List (List Binding)) :
    env.silent.firstBound reason steps = env.firstBound reason steps := by
  induction steps generalizing reason with
  | nil => rfl
  | cons step rest ih =>
    have same : step.filterMap env.silent.bind? = step.filterMap env.bind? := rfl
    simp only [firstBound, same, ih]

theorem resolve_silent (k : Call) (stack : CallStack) (inlined : List MethodId) :
    env.silent.resolve k stack inlined = env.resolve k stack inlined := by
  have steps : k.steps env.silent = k.steps env := rfl
  unfold resolve
  rw [steps, firstBound_silent]
  rfl

end Environment

namespace SiteScope

variable (s : SiteScope)

theorem silent_note (reason : FailureReason) (e : Event) :
    (s.note reason e).silent = s.silent.note reason e := by
  unfold note silent
  rw [Journal.silent_record]
  rfl

theorem silent_retire (t : TargetId) (reason : FailureReason) :
    (s.retire t reason).silent = s.silent.retire t reason := silent_note ..

theorem silent_retireAll (ts : List TargetId) (reason : FailureReason) :
    (s.retireAll ts reason).silent = s.silent.retireAll ts reason := by
  unfold retireAll
  induction ts generalizing s with
  | nil => rfl
  | cons t ts ih => rw [List.foldl_cons, List.foldl_cons, ih, silent_retire]

theorem silent_giveUp (t : TargetId) (reason : FailureReason) :
    (s.giveUp t reason).silent = s.silent.giveUp t reason := by
  unfold giveUp
  dsimp only
  rw [apply_ite silent]
  exact congrArg₂ (ite _) (congrArg (setFailureReason · reason) (silent_retire ..)) (silent_retire ..)

theorem silent_giveUpAll (reason : FailureReason) :
    (s.giveUpAll reason).silent = s.silent.giveUpAll reason :=
  congrArg (setFailureReason · reason) (silent_retireAll ..)

theorem silent_take (p : Program) (ruledOut : List MethodId) (k : Candidate) :
    (s.take p ruledOut k).silent = s.silent.take p ruledOut k := by
  unfold take
  have binds : s.silent.binds k.method = s.binds k.method := rfl
  rw [binds]
  split
  · rfl
  · dsimp only [silent]
    rw [Journal.silent_record]
    rfl

theorem silent_takeAll (p : Program) (ruledOut : List MethodId) (ks : List Candidate) :
    (ks.foldl (·.take p ruledOut) s).silent = ks.foldl (·.take p ruledOut) s.silent := by
  induction ks generalizing s with
  | nil => rfl
  | cons k ks ih => rw [List.foldl_cons, List.foldl_cons, ih, silent_take]

theorem silent_conclude (reason : FailureReason) :
    (s.conclude reason).silent = s.silent.conclude reason := by
  unfold conclude
  have live : s.silent.site.live = s.site.live := rfl
  rw [live]
  split
  · split <;> exact silent_note ..
  · rfl

theorem silent_resolved (env : Environment) (stack : CallStack) :
    (s.resolved env stack).silent = s.silent.resolved env stack := by
  unfold resolved
  rw [silent_conclude, silent_takeAll]
  rfl

/-- Without checks a resolution always succeeds. -/
theorem findTargets_silent (env : Environment) (stack : CallStack) :
    s.findTargets env.silent stack =
      (.ok (!(s.resolved env stack).site.live.isEmpty), s.resolved env stack) := by
  have same : s.resolved env stack = s.resolved env.silent stack := by
    unfold resolved
    rw [Environment.resolve_silent]
    rfl
  rw [same]
  rfl

end SiteScope

/-- Popping a frame records it and nothing else. -/
theorem CallStack.popRecorded_silent (stack : CallStack) (j : Journal) (committed : Bool) :
    stack.popRecorded j.silent committed =
      (stack.popRecorded j committed).map fun left => (left.1, left.2.silent) := by
  let event (f : Frame) : Event := .framePopped f.method f.depth committed
  have popped (stack : CallStack) :
      (stack.pop >>= fun out => .ok (out.2, j.silent.record (event out.1))) =
        (stack.pop >>= fun out => .ok (out.2, j.record (event out.1))).map
          fun left => (left.1, left.2.silent) := by
    cases stack.pop with
    | error e => rfl
    | ok left => exact congrArg (fun j => Except.ok (left.2, j)) (j.silent_record _).symm
  unfold popRecorded
  cases committed with
  | false => exact popped stack
  | true =>
    cases stack.commit with
    | error e => rfl
    | ok stack => exact popped stack

namespace Exploration

variable {α β : Type} {env : Environment}

/-- What `x` does where it succeeds, `y` does without the log. -/
def Erases (x y : Exploration α) : Prop :=
  ∀ c, Ensures x c (fun a c' => y.run c.silent = (.ok a, c'.silent)) fun _ _ => True

section Rules

variable {x y : Exploration α}

theorem erases_pure {a : α} : Erases (pure a) (pure a) := fun _ => rfl

theorem erases_throw {e : Fault} : Erases (throw e) y := fun _ => trivial

theorem Erases.bind {f g : α → Exploration β} (h : Erases x y) (hf : ∀ a, Erases (f a) (g a)) :
    Erases (x >>= f) (y >>= g) := fun c =>
  .bind (h c) fun a c' run => (hf a c').imp fun _ _ rest => by rw [run_bind_of_ok run, rest]

theorem erases_get_bind {f g : Compilation → Exploration α} (h : ∀ c, Erases (f c) (g c.silent)) :
    Erases (get >>= f) (get >>= g) := fun c => h c c

theorem erases_modify {f : Compilation → Compilation} (same : ∀ c, f c.silent = (f c).silent) :
    Erases (modify f) (modify f) :=
  fun c => congrArg (Prod.mk (Except.ok ())) (same c)

theorem erases_modifyRegion {f : Region → Region} : Erases (modifyRegion f) (modifyRegion f) :=
  fun _ => rfl

theorem erases_modifyTarget {t : TargetId} {f : CallTarget → CallTarget} :
    Erases (modifyTarget t f) (modifyTarget t f) := fun _ => rfl

theorem erases_ofExcept {answer : Except Fault α} : Erases (ofExcept answer) (ofExcept answer) :=
  fun _ => ensures_ofExcept.2 ⟨fun _ h => h ▸ rfl, fun _ _ => trivial⟩

theorem erases_site {id : SiteId} : Erases (site id) (site id) :=
  fun _ => ensures_site.2 ⟨fun _ hs => run_site hs, fun _ => trivial⟩

theorem erases_target {t : TargetId} : Erases (target t) (target t) :=
  fun _ => ensures_target.2 ⟨fun _ hx => run_target hx, fun _ => trivial⟩

theorem erases_onSite {id : SiteId} {f g : SiteScope → Except Fault α × SiteScope}
    (h : ∀ s a, (f s).1 = .ok a → g s.silent = (.ok a, (f s).2.silent)) :
    Erases (onSite id f) (onSite id g) := by
  refine fun c => ensures_onSite.2 ⟨fun s hs => ⟨fun a ha => ?_, fun _ _ => trivial⟩, fun _ => trivial⟩
  have same : g (c.silent.scope s) = (.ok a, (f (c.scope s)).2.silent) := h _ a ha
  refine Ensures.run_ok (ensures_onSite.2 ⟨fun s' hs' => ?_, fun gone => ?_⟩)
  · obtain rfl := Option.some.inj (hs.symm.trans hs')
    rw [same]
    exact ⟨fun _ hb => ⟨(Except.ok.inj hb).symm, rfl⟩, nofun⟩
  · exact absurd (hs.symm.trans gone) nofun

theorem erases_changeSite {id : SiteId} {f : SiteScope → Except Fault SiteScope}
    (h : ∀ s s', f s = .ok s' → f s.silent = .ok s'.silent) :
    Erases (changeSite id f) (changeSite id f) := by
  refine erases_onSite fun s _ ha => ?_
  cases hs : f s with
  | ok s' => rw [h s s' hs]
  | error e => simp [hs] at ha

theorem Erases.forM {f g : α → Exploration Unit} (h : ∀ a, Erases (f a) (g a)) (as : List α) :
    Erases (as.forM f) (as.forM g) := by
  induction as with
  | nil => exact erases_pure
  | cons a as ih => exact (h a).bind fun _ => ih

theorem Erases.mapM {f g : α → Exploration β} (h : ∀ a, Erases (f a) (g a)) (as : List α) :
    Erases (as.mapM f) (as.mapM g) := by
  induction as with
  | nil => exact erases_pure
  | cons a as ih =>
    rw [List.mapM_cons, List.mapM_cons]
    exact (h a).bind fun _ => ih.bind fun _ => erases_pure

theorem erases_ite {p : Prop} [Decidable p] {x' y' : Exploration α} (h : Erases x y)
    (h' : Erases x' y') : Erases (if p then x else x') (if p then y else y') := by
  split
  · exact h
  · exact h'

/-- A check that is passed has done nothing. -/
theorem erases_check {verify : Bool} {check : Exploration Unit}
    (passed : ∀ c, Ensures check c (fun _ c' => c' = c) fun _ _ => True) :
    Erases (if verify then check else pure ()) (pure ()) := by
  intro c
  split
  · exact (passed c).imp fun _ _ h => h ▸ rfl
  · rfl

end Rules

/-- Entering a body records it and nothing else. -/
theorem erases_enter {stack : CallStack} {symbol : Option SymbolId} {method : MethodId} {depth : Nat} :
    Erases (enter stack symbol method depth) (enter stack symbol method depth) := by
  refine fun c => ensures_enter.2 ⟨fun inner push => ?_, fun _ _ => trivial⟩
  rw [run_enter push]
  exact congrArg (Prod.mk (Except.ok inner)) (congrArg (fun j => { c with journal := j })
    (Journal.silent_record c.journal _).symm)

theorem erases_leave {stack : CallStack} {committed : Bool} :
    Erases (leave stack committed) (leave stack committed) := by
  refine erases_get_bind fun c => ?_
  rw [show c.silent.journal = c.journal.silent from rfl, stack.popRecorded_silent]
  cases stack.popRecorded c.journal committed with
  | error e => exact erases_throw
  | ok left => exact fun _ => rfl

theorem erases_resolveSite {stack : CallStack} {id : SiteId} :
    Erases (resolveSite env stack id) (resolveSite env.silent stack id) := by
  refine erases_onSite fun s live found => ?_
  rw [SiteScope.findTargets_silent, ← SiteScope.silent_resolved]
  rcases s.findTargets_cases env stack with ⟨e, h⟩ | ⟨e, h⟩ | h <;> rw [h] at found ⊢
  · cases found
  · cases found
  · exact congrArg (Prod.mk · _) found

theorem erases_removeTarget {id : SiteId} {t : TargetId} {reason : FailureReason} :
    Erases (removeTarget env id t reason) (removeTarget env.silent id t reason) := by
  refine .bind (erases_changeSite fun s s' hs => ?_) fun _ => erases_check fun c => ?_
  · obtain ⟨live, rfl⟩ := SiteScope.remove_eq_ok_iff.1 hs
    exact SiteScope.remove_eq_ok_iff.2 ⟨live, SiteScope.silent_giveUp ..⟩
  · exact ensures_bind.2 (ensures_site.2 ⟨fun _ _ =>
      ensures_ofExcept.2 ⟨fun _ _ => rfl, fun _ _ => trivial⟩, fun _ => trivial⟩)

theorem erases_pruneCallees (reason : FailureReason) (levels : Nat) (t : TargetId) :
    Erases (pruneCallees reason levels t) (pruneCallees reason levels t) := by
  induction levels generalizing t with
  | zero => exact erases_pure
  | succ levels ih =>
    refine erases_target.bind fun x => .forM (fun callee => ?_) _
    refine erases_site.bind fun s => .bind (.forM ih _) fun _ => ?_
    refine .bind (erases_changeSite fun s s' hs => ?_) fun _ => ?_
    · rw [SiteScope.removeAll_eq] at hs ⊢
      rw [← Except.ok.inj hs, SiteScope.silent_giveUpAll]
    · exact erases_target.bind fun _ => erases_ofExcept.bind fun _ => erases_modifyTarget

theorem erases_abandon {id : SiteId} {t : TargetId} {reason : FailureReason} :
    Erases (abandon env id t reason) (abandon env.silent id t reason) :=
  (erases_pruneCallees reason _ t).bind fun _ => erases_removeTarget

section Body

variable {inner inner' : CallStack → SiteId → TargetId → Exploration Unit}
  (descends : ∀ stack id t, Erases (inner stack id t) (inner' stack id t))
include descends

theorem erases_exploreBody {stack : CallStack} {method : MethodId} {depth : Nat} :
    Erases (exploreBody env inner stack method depth)
      (exploreBody env.silent inner' stack method depth) := by
  refine .mapM (fun call => ?_) _
  refine erases_ofExcept.bind fun stack => erases_get_bind fun c => ?_
  refine erases_modifyRegion.bind fun _ => erases_ofExcept.bind fun stack => ?_
  refine erases_resolveSite.bind fun live => erases_ite ?_ erases_pure
  exact erases_site.bind fun s => .bind (.forM (descends stack _) _) fun _ => erases_pure

end Body

theorem erases_finish {stack : CallStack} {id : SiteId} {t : TargetId} {depth : Nat}
    {found : List SiteId} :
    Erases (finish env stack id t depth found) (finish env.silent stack id t depth found) := by
  refine erases_modifyRegion.bind fun _ => erases_get_bind fun c => erases_get_bind fun c' => ?_
  have same : overflow? env.silent c'.silent.totalSize depth (c.silent.region.fullSize t) =
      overflow? env c'.totalSize depth (c.region.fullSize t) := rfl
  dsimp only
  rw [same]
  split
  · exact erases_leave.bind fun _ => erases_abandon
  · have checked : Erases (if env.config.verifyInvariants then do ofExcept ((← target t).checkCallees t)
        else pure ()) (pure ()) :=
      erases_check fun c => ensures_bind.2 (ensures_target.2 ⟨fun _ _ =>
        ensures_ofExcept.2 ⟨fun _ _ => rfl, fun _ _ => trivial⟩, fun _ => trivial⟩)
    refine erases_leave.bind fun _ => erases_ite ?_ checked
    exact .bind (erases_modify fun _ => rfl) fun _ => checked

theorem erases_exploreTarget (levels : Nat) (stack : CallStack) (id : SiteId) (t : TargetId) :
    Erases (exploreTarget env levels stack id t) (exploreTarget env.silent levels stack id t) := by
  induction levels generalizing stack id t with
  | zero => exact erases_pure
  | succ levels ih =>
    refine erases_site.bind fun s => erases_get_bind fun c => erases_modifyTarget.bind fun _ => ?_
    refine .bind (erases_modify fun _ => rfl) fun _ => erases_target.bind fun x => ?_
    refine erases_ite erases_removeTarget ?_
    refine erases_modifyRegion.bind fun _ => erases_enter.bind fun inner => ?_
    exact (erases_exploreBody ih).bind fun found => erases_finish

theorem erases_explore {method : MethodId} :
    Erases (explore env method) (explore env.silent method) := by
  refine erases_ite (erases_throw) (erases_get_bind fun c => ?_)
  refine erases_enter.bind fun stack => erases_ofExcept.bind fun stack => ?_
  refine (erases_exploreBody (erases_exploreTarget _)).bind fun found => ?_
  exact erases_leave.bind fun _ => .bind (erases_modify fun _ => rfl) fun _ => erases_pure

theorem erases_stackWithin (stack : CallStack) (chain : List TargetId) :
    Erases (stackWithin stack chain) (stackWithin stack chain) := by
  induction chain generalizing stack with
  | nil => exact erases_pure
  | cons t chain ih =>
    exact erases_target.bind fun _ => erases_site.bind fun _ => erases_ofExcept.bind fun _ => ih _

theorem erases_rootMethod {s : CallSite} (chain : List TargetId) :
    Erases (rootMethod s chain) (rootMethod s chain) := by
  cases chain with
  | nil => exact erases_pure
  | cons t chain => exact erases_target.bind fun _ => erases_site.bind fun _ => erases_pure

theorem erases_charge {chain : List TargetId} {id : SiteId} {t : TargetId} :
    Erases (charge env chain id t) (charge env.silent chain id t) :=
  erases_get_bind fun _ => erases_ite erases_abandon
    (erases_ite erases_abandon (erases_modify fun _ => rfl))

theorem erases_revisit {id : SiteId} : Erases (revisit env id) (revisit env.silent id) := by
  refine erases_site.bind fun s => erases_get_bind fun c => ?_
  have same : c.silent.region.enclosing? s = c.region.enclosing? s := rfl
  rw [same]
  split
  · exact erases_pure
  · refine erases_get_bind fun c => (erases_rootMethod _).bind fun root => ?_
    refine erases_ofExcept.bind fun stack => (erases_stackWithin stack _).bind fun stack => ?_
    refine erases_resolveSite.bind fun _ => erases_site.bind fun s => ?_
    refine .bind (.forM (fun t => ?_) _) fun _ => erases_site.bind fun _ => erases_pure
    refine (erases_exploreTarget _ stack id t).bind fun _ => erases_site.bind fun _ => ?_
    exact erases_ite erases_charge erases_pure

theorem erases_markInlined {t : TargetId} : Erases (markInlined t) (markInlined t) :=
  erases_target.bind fun _ => erases_site.bind fun _ =>
    erases_modifyTarget.bind fun _ => erases_modify fun _ => rfl

theorem erases_replay {t : TargetId} {folds : List (Int × Constant)} :
    Erases (replay t folds) (replay t folds) :=
  erases_target.bind fun _ => erases_get_bind fun _ =>
    erases_modifyTarget.bind fun _ => erases_modifyRegion.bind fun _ => erases_pure

/-- What a request is answered. -/
inductive Answer where
  | found (sites : List SiteId)
  | resolved (live : Bool)
  | folded (outcomes : List FoldOutcome)
  | done

/-- Carries a request out and answers it. -/
def answer (env : Environment) : Request → Exploration Answer
  | .explore method => return .found (← explore env method)
  | .revisit id => return .resolved (← revisit env id)
  | .markInlined t => do
    markInlined t
    return .done
  | .replay t folds => return .folded (← replay t folds)
  | .invalidate a => do
    invalidate a
    return .done

/-- The requests are those that sessions are made of. -/
theorem run_perform (env : Environment) (request : Request) (c : Compilation) :
    (perform env request).run c =
      (((answer env request).run c).1.map fun _ => (), ((answer env request).run c).2) := by
  have discarded {α : Type} (x : Exploration α) (f : α → Answer) : (discard x).run c =
      ((((do return f (← x)) : Exploration Answer).run c).1.map fun _ => (),
        (((do return f (← x)) : Exploration Answer).run c).2) := by
    rw [run_bind]
    change (x >>= fun _ => pure ()).run c = _
    rw [run_bind]
    rcases x.run c with ⟨_ | _, _⟩ <;> rfl
  have done (x : Exploration Unit) : x.run c =
      ((((do x; return .done) : Exploration Answer).run c).1.map fun _ => (),
        (((do x; return .done) : Exploration Answer).run c).2) := by
    rw [run_bind]
    rcases x.run c with ⟨_ | _, _⟩ <;> rfl
  cases request with
  | explore method => exact discarded ..
  | revisit id => exact discarded ..
  | markInlined t => exact done ..
  | replay t folds => exact discarded ..
  | invalidate a => exact done ..

theorem erases_answer (request : Request) : Erases (answer env request) (answer env.silent request) := by
  cases request with
  | explore method => exact erases_explore.bind fun _ => erases_pure
  | revisit id => exact erases_revisit.bind fun _ => erases_pure
  | markInlined t => exact erases_markInlined.bind fun _ => erases_pure
  | replay t folds => exact erases_replay.bind fun _ => erases_pure
  | invalidate a => exact erases_modifyRegion.bind fun _ => erases_pure

end Exploration

section Sessions

variable {env : Environment} {p : Program} {config : Configuration} {earlier : List InlinedRecord}
  {c : Compilation}

theorem silent_scope (h : c.journal.silent = c.journal) (s : CallSite) :
    (c.scope s).silent = c.scope s := congrArg (SiteScope.mk s c.region.targets) h

/-- A journal that does not record stays without events, whatever is done. -/
theorem stable_unlogged : Stable env fun c => c.journal.silent = c.journal where
  effect {c c'} h effect := by
    -- what happens to a site is the same in the scope without the log, which is the scope itself
    have onSite {change : SiteScope → SiteScope} {s : CallSite} (c : Compilation)
        (h : c.journal.silent = c.journal) (same : ∀ s, (change s).silent = change s.silent) :
        (change (c.scope s)).journal.silent = (change (c.scope s)).journal :=
      congrArg SiteScope.journal ((same _).trans (congrArg change (silent_scope h s)))
    cases effect with
    | enter | leave => exact (Journal.silent_record ..).trans (by rw [← h]; rfl)
    | call => exact onSite (c.withSite _) h (SiteScope.silent_resolved · env _)
    | again => exact onSite c h (SiteScope.silent_resolved · env _)
    | folds | settle | number | spend | charge => exact h
    | cut _ cut =>
      cases cut with
      | target => exact onSite c h (SiteScope.silent_giveUp · _ _)
      | site => exact onSite c h (SiteScope.silent_giveUpAll · _)
      | callee => exact h
  broken h broke := by cases broke <;> exact h
  adopt _ _ h := h
  mark h _ _ := h
  replay _ h _ := h
  invalidate _ h := h

theorem Visits.events_empty (h : Visits p config earlier c) (untraced : config.traceEvents = false) :
    c.journal.events = #[] := by
  have unlogged : c.journal.silent = c.journal :=
    h.stable (fun _ => stable_unlogged) (by simp [Compilation.start, Journal.silent, untraced])
  rw [← unlogged]
  rfl

open Exploration

/-- Carries requests out under changing advice. Each answer comes with the compilation that it left; a
request that fails does not end the session. -/
def session (p : Program) (config : Configuration) :
    Compilation → List (Advice × Request) → List (Except Fault Answer × Compilation)
  | _, [] => []
  | c, (advice, request) :: rest =>
    let step := (answer ⟨p, config, advice⟩ request).run c
    step :: session p config step.2 rest

theorem Visits.answered (h : Visits p config earlier c) (advice : Advice) (request : Request) :
    Visits p config earlier ((answer ⟨p, config, advice⟩ request).run c).2 :=
  h.step advice request (run_perform ..)

/-- A request for a handle that names nothing, with the fault that it gets. -/
inductive Request.Unknown (p : Program) (r : Region) : Request → Fault → Prop
  | method {m : MethodId} : p.sizeOf? m = none → Unknown p r (.explore m) (.noBody m)
  | site {i : SiteId} : r.sites.get? i = none → Unknown p r (.revisit i) (.noSite i)
  | marked {t : TargetId} : r.targets.get? t = none → Unknown p r (.markInlined t) (.noTarget t)
  | replayed {t : TargetId} {folds : List (Int × Constant)} :
    r.targets.get? t = none → Unknown p r (.replay t folds) (.noTarget t)

theorem Request.Unknown.run {request : Request} {e : Fault} (h : request.Unknown p c.region e)
    (config : Configuration) (advice : Advice) :
    (answer ⟨p, config, advice⟩ request).run c = (.error e, c) := by
  cases h with
  | method missing => exact run_bind_of_error (run_explore_of_none missing)
  | site missing => exact run_bind_of_error (run_revisit_of_none missing)
  | marked missing =>
    exact run_bind_of_error (Ensures.run_error
      (ensures_markInlined.2 ⟨fun x hx => absurd (missing.symm.trans hx) nofun, fun _ => ⟨rfl, rfl⟩⟩))
  | replayed missing =>
    exact run_bind_of_error (Ensures.run_error
      (ensures_replay.2 ⟨fun x hx => absurd (missing.symm.trans hx) nofun, fun _ => ⟨rfl, rfl⟩⟩))

/-- A request failed because a first binding was refused. -/
def isRefusal : Except Fault Answer → Bool
  | .error (.inconsistentInitialCallee ..) => true
  | _ => false

/-- Where no first binding is refused, a request fails for an unknown handle, or does what it does
without checks and log. -/
theorem Visits.unknown_or_silent (h : Visits p config earlier c) {advice : Advice} {request : Request}
    (taken : ¬ isRefusal ((answer ⟨p, config, advice⟩ request).run c).1) :
    (∃ e, request.Unknown p c.region e) ∨
      (answer (Environment.silent ⟨p, config, advice⟩) request).run c.silent =
        (((answer ⟨p, config, advice⟩ request).run c).1,
          ((answer ⟨p, config, advice⟩ request).run c).2.silent) := by
  rcases run : (answer ⟨p, config, advice⟩ request).run c with ⟨e | a, c'⟩
  · refine .inl ⟨e, ?_⟩
    rw [run] at taken
    have failed : (perform ⟨p, config, advice⟩ request).run c = (.error e, c') := by
      rw [run_perform, run]
      rfl
    cases (h.ensures_expected advice request).fail_of_error failed with
    | unknownMethod missing => exact .method missing
    | unknownSite missing => exact .site missing
    | unknownTarget missing => exact .marked missing
    | unknownReplayed missing => exact .replayed missing
    | explored refused | revisited refused =>
      cases refused
      exact absurd rfl taken
  · exact .inr ((erases_answer request c).post_of_ok run)

/-- Two compilations that differ in their logs at most. -/
structure Compilation.Alike (c c' : Compilation) : Prop where
  region : c.region = c'.region
  stats : c.region.stats = c'.region.stats
  previouslyInlined : c.previouslyInlined = c'.previouslyInlined
  roots : c.roots = c'.roots
  compiled : c.compiled = c'.compiled
  totalSize : c.totalSize = c'.totalSize
  nextNumber : c.nextNumber = c'.nextNumber
  counter : ∀ reason, c.journal.counter reason = c'.journal.counter reason
  counterAt : ∀ reason top, c.journal.counterAt reason top = c'.journal.counterAt reason top

theorem Compilation.alike_of_silent {c c' : Compilation} (same : c.silent = c'.silent) : c.Alike c' where
  region := congrArg (·.region) same
  stats := congrArg (·.region.stats) same
  previouslyInlined := congrArg (·.previouslyInlined) same
  roots := congrArg (·.roots) same
  compiled := congrArg (·.compiled) same
  totalSize := congrArg (·.totalSize) same
  nextNumber := congrArg (·.nextNumber) same
  counter reason := congrArg (·.journal.counter reason) same
  counterAt reason top := congrArg (·.journal.counterAt reason top) same

/-- One request, in two sessions that differ in checks and log alone. -/
theorem Visits.answer_same {verify trace : Bool} {c' : Compilation} (h : Visits p config earlier c)
    (h' : Visits p (config.observing verify trace) earlier c') (same : c.silent = c'.silent)
    {advice : Advice} {request : Request} (taken : ¬ isRefusal ((answer ⟨p, config, advice⟩ request).run c).1)
    (taken' : ¬ isRefusal ((answer ⟨p, config.observing verify trace, advice⟩ request).run c').1) :
    let step := (answer ⟨p, config, advice⟩ request).run c
    let step' := (answer ⟨p, config.observing verify trace, advice⟩ request).run c'
    step.1 = step'.1 ∧ step.2.silent = step'.2.silent := by
  have region : c.region = c'.region := congrArg (·.region) same
  rcases h.unknown_or_silent taken with ⟨e, unknown⟩ | silent
  · have unknown' := unknown
    rw [region] at unknown'
    rw [unknown.run config advice, unknown'.run _ advice]
    exact ⟨rfl, same⟩
  · rcases h'.unknown_or_silent taken' with ⟨e, unknown'⟩ | silent'
    · have unknown := unknown'
      rw [← region] at unknown
      rw [unknown.run config advice, unknown'.run _ advice]
      exact ⟨rfl, same⟩
    · rw [same] at silent
      exact Prod.mk.inj (silent.symm.trans silent')

/-- Two sessions that differ in checks and log alone, from anywhere in them. -/
theorem Visits.session_same {verify trace : Bool} {c' : Compilation} (h : Visits p config earlier c)
    (h' : Visits p (config.observing verify trace) earlier c') (same : c.silent = c'.silent)
    {requests : List (Advice × Request)}
    (taken : ∀ step ∈ session p config c requests, ¬ isRefusal step.1)
    (taken' : ∀ step ∈ session p (config.observing verify trace) c' requests, ¬ isRefusal step.1) :
    List.Forall₂ (fun step step' => step.1 = step'.1 ∧ step.2.Alike step'.2)
      (session p config c requests) (session p (config.observing verify trace) c' requests) := by
  induction requests generalizing c c' with
  | nil => exact .nil
  | cons request requests ih =>
    obtain ⟨advice, request⟩ := request
    obtain ⟨taken, rest⟩ := List.forall_mem_cons.1 taken
    obtain ⟨taken', rest'⟩ := List.forall_mem_cons.1 taken'
    obtain ⟨answers, silent⟩ := h.answer_same h' same taken taken'
    exact .cons ⟨answers, Compilation.alike_of_silent silent⟩
      (ih (h.answered advice request) (h'.answered advice request) silent rest rest')

/-- Sessions go through compilations that sessions lead to. -/
theorem Visits.of_mem_session (h : Visits p config earlier c) {requests : List (Advice × Request)}
    {step : Except Fault Answer × Compilation} (hs : step ∈ session p config c requests) :
    Visits p config earlier step.2 := by
  induction requests generalizing c with
  | nil => cases hs
  | cons request requests ih =>
    have first := h.answered request.1 request.2
    rcases List.mem_cons.1 hs with rfl | hs
    · exact first
    · exact ih first hs

/-- **Checks and the log only observe.** Two sessions differ in nothing but whether the bookkeeping is
checked and whether events are kept. If neither fails at a refused first binding, every request has the
same answer in both, and leaves compilations that differ in their logs at most. A log that was not asked
for is empty. -/
theorem session_observed (p : Program) (config : Configuration) (earlier : List InlinedRecord)
    (verify trace : Bool) (requests : List (Advice × Request))
    (taken : ∀ step ∈ session p config (.start config earlier) requests, ¬ isRefusal step.1)
    (taken' : ∀ step ∈ session p (config.observing verify trace)
      (.start (config.observing verify trace) earlier) requests, ¬ isRefusal step.1) :
    List.Forall₂ (fun step step' => step.1 = step'.1 ∧ step.2.Alike step'.2)
      (session p config (.start config earlier) requests)
      (session p (config.observing verify trace) (.start (config.observing verify trace) earlier)
        requests) ∧
    (config.traceEvents = false →
      ∀ step ∈ session p config (.start config earlier) requests, step.2.journal.events = #[]) ∧
    (trace = false → ∀ step ∈ session p (config.observing verify trace)
      (.start (config.observing verify trace) earlier) requests, step.2.journal.events = #[]) :=
  ⟨Visits.start.session_same .start (by rfl) taken taken',
    fun untraced _ hs => (Visits.start.of_mem_session hs).events_empty untraced,
    fun untraced _ hs => (Visits.start.of_mem_session hs).events_empty untraced⟩

/-- Circles are drawn, then squares. -/
def twoShapes : List (Advice × Request) :=
  [(drawing ⟨1⟩, .explore ⟨0⟩), (drawing ⟨2⟩, .revisit ⟨1⟩), (drawing ⟨2⟩, .markInlined ⟨7⟩)]

/-- With checks and without log the shapes are found as they are without checks and with a log. The last
request fails in both sessions. -/
theorem session_observed_shapes :
    let quiet := Configuration.standard.observing true false
    let steps := session shapes .standard (.start .standard []) twoShapes
    let steps' := session shapes quiet (.start quiet []) twoShapes
    steps.map (fun step => (step.1.toBool, step.2.journal.events.size)) =
        [(true, 8), (true, 11), (false, 11)] ∧
      List.Forall₂ (fun step step' => step.1 = step'.1 ∧ step.2.Alike step'.2) steps steps' ∧
      ∀ step ∈ steps', step.2.journal.events = #[] := by
  obtain ⟨same, -, untraced⟩ := session_observed shapes .standard [] true false twoShapes
    (by decide +kernel) (by decide +kernel)
  exact ⟨by decide +kernel, same, untraced rfl⟩

end Sessions

end Inlining
