import Inlining.Proofs.Acceptance
import Inlining.Proofs.Progress

/-!
# Which faults there are

Most faults say that the bookkeeping went wrong: a frame is pushed too high up or popped from an
empty stack, a target or callee is given up twice, counts do not add up. None of them is ever
returned, in no session, not even after requests that failed half way (`faults_expected`). A request
fails because a handle that it is given names nothing. Otherwise it fails only where invariants are
verified, and only at one kind of call: a virtual one of a static method (`Refused`), since in an
accepted program the first binding of every other call is right (`Call.refused`).
-/

namespace Inlining

/-- A call was resolved whose first binding is refused: it is virtual, and the method that it names is
static. -/
inductive Refused (p : Program) (config : Configuration) (c : Compilation) : Fault → Prop
  | mk {i : SiteId} {s : CallSite} {call : CallInstruction} {m : MethodId} :
    config.verifyInvariants = true → c.region.sites.get? i = some s →
    call ∈ p.instructionsOf s.caller → s.toCall = .ofInstruction i s.caller s.depth call →
    call.shape = .virtual → call.declaredMethod = some m → p.kindOf m = .static →
    Refused p config c (.inconsistentInitialCallee i .dispatchedStatic)

/-- The faults with which a request may fail that leads from `c` to `c'`. -/
inductive Fault.Expected (p : Program) (config : Configuration) (c c' : Compilation) :
    Request → Fault → Prop
  | unknownMethod {m : MethodId} : p.sizeOf? m = none → Expected p config c c' (.explore m) (.noBody m)
  | unknownSite {i : SiteId} :
    c.region.sites.get? i = none → Expected p config c c' (.revisit i) (.noSite i)
  | unknownTarget {t : TargetId} :
    c.region.targets.get? t = none → Expected p config c c' (.markInlined t) (.noTarget t)
  | unknownReplayed {t : TargetId} {folds : List (Int × Constant)} :
    c.region.targets.get? t = none → Expected p config c c' (.replay t folds) (.noTarget t)
  | explored {m : MethodId} {e : Fault} :
    Refused p config c' e → Expected p config c c' (.explore m) e
  | revisited {i : SiteId} {e : Fault} :
    Refused p config c' e → Expected p config c c' (.revisit i) e

/-- The only first binding of a call in an accepted program that is refused is one of a virtual call
to a static method. -/
theorem Call.refused {p : Program} {id : SiteId} {caller : MethodId} {depth : Nat}
    {call : CallInstruction} (source : call ∈ p.instructionsOf caller) {e : Fault}
    (refused : (Call.ofInstruction id caller depth call).checkInitialCallee p = .error e) :
    e = .inconsistentInitialCallee id .dispatchedStatic ∧ call.shape = .virtual ∧
      ∃ m, call.declaredMethod = some m ∧ p.kindOf m = .static := by
  have declared := p.declared_of_instruction source
  unfold checkInitialCallee initialCalleeFlaw? at refused
  cases shape : call.shape with
  | direct =>
    obtain ⟨m, hm⟩ := declared.resolve_left (by simp [shape])
    simp [ofInstruction, shape, CallShape.siteKind, isInterface, hm] at refused
  | virtual =>
    obtain ⟨m, hm⟩ := declared.resolve_left (by simp [shape])
    by_cases static : p.kindOf m = .static
    · simp [ofInstruction, shape, CallShape.siteKind, hm, static] at refused
      exact ⟨refused.symm, rfl, m, hm, static⟩
    · simp [ofInstruction, shape, CallShape.siteKind, isInterface, hm, static] at refused
  | interface => simp [ofInstruction, shape, CallShape.siteKind] at refused
  | functionPointer => simp [ofInstruction, shape, CallShape.siteKind, isInterface] at refused

section Strokes

variable {env : Environment} {c c' : Compilation} {e : Fault}

/-- A broken stroke leaves the call whose first binding was refused. -/
theorem Break.refused (h : Break env c e c') : env.config.verifyInvariants = true ∧
    ∃ i k, c'.region.forest.call? i = some k ∧ k.checkInitialCallee env.program = .error e := by
  cases h with
  | @call k _ _ hk _ _ verify refused =>
    have hs := c.get?_withSite (congrArg Call.id hk)
    refine ⟨verify, k.id, k, ?_, refused⟩
    exact (Region.forest_put_site hs (SiteScope.visited _) k.id).1.trans (if_pos rfl)
  | @again id s _ hs verify refused =>
    refine ⟨verify, id, s.toCall, ?_, refused⟩
    exact (Region.forest_put_site hs (SiteScope.visited _) id).1.trans (if_pos rfl)

/-- Strokes fail only where the first binding of a call is refused. -/
theorem Fails.refused (h : Fails env c e c') (sourced : c.region.Sourced env) :
    Refused env.program env.config c' e := by
  obtain ⟨c₁, steps, broke⟩ := h
  have sourced' := broke.siteChange.sourced (steps.sourced sourced)
  obtain ⟨verify, i, k, hk, refused⟩ := broke.refused
  obtain ⟨-, call, source, eq⟩ := sourced' hk
  rw [eq] at refused
  obtain ⟨rfl, shape, m, hm, static⟩ := Call.refused source refused
  obtain ⟨s, hs, rfl⟩ := Region.site_of_call hk
  exact .mk verify hs source eq shape hm static

end Strokes

open Exploration

variable {p : Program} {config : Configuration} {earlier : List InlinedRecord} {c c' : Compilation}

/-- A request ends well, or with a fault that is expected. -/
theorem Visits.ensures_expected (h : Visits p config earlier c) (advice : Advice) (request : Request) :
    Ensures (perform ⟨p, config, advice⟩ request) c (fun _ _ => True)
      fun e c' => Fault.Expected p config c c' request e := by
  have sound : c.region.forest.Sound config.maxDepth := h.sound
  have sourced := h.sourced advice
  cases request with
  | explore method =>
    refine ensures_discard.2 ?_
    by_cases missing : p.sizeOf? method = none
    · exact .of_error (run_explore_of_none missing) (.unknownMethod missing)
    · exact (ensures_exploreStrokes sound missing).mono (fun _ _ _ => trivial)
        fun e c' h => .explored (h.2.refused sourced)
  | revisit id =>
    refine ensures_discard.2 ?_
    cases hs : c.region.sites.get? id with
    | none => exact .of_error (run_revisit_of_none hs) (.unknownSite hs)
    | some s =>
      cases hchain : c.region.enclosing? s with
      | none => exact .of_ok (run_revisit_of_detached hs hchain) trivial
      | some chain =>
        exact (ensures_revisitStrokes sound hs hchain).mono (fun _ _ _ => trivial)
          fun e c' h => .revisited (h.2.1.refused sourced)
  | markInlined t =>
    refine ensures_markInlined.2 ⟨fun x hx => ⟨fun _ _ => trivial, fun gone => ?_⟩, .unknownTarget⟩
    -- the site of a target is there
    obtain ⟨k, hk, -⟩ := Forest.Accounts.sited sound (Region.forest_origin hx)
    simp [Region.forest, gone] at hk
  | replay t folds =>
    exact ensures_discard.2 (ensures_replay.2 ⟨fun _ _ => trivial, .unknownReplayed⟩)
  | invalidate a => trivial

/-- **The only faults.** In every session, and also after requests that failed, a request fails only
because a handle names nothing, or at a call whose first binding is refused. Depths stay within the
limit, and so within 32 bits: one is added to the depth of a site only above the limit and where the site
has targets, which are above it. Nothing leaves a region, so that is so of every depth that was ever
computed. -/
theorem faults_expected (h : Visits p config earlier c) :
    (∀ advice request e c', (perform ⟨p, config, advice⟩ request).run c = (.error e, c') →
      Fault.Expected p config c c' request e) ∧
    (∀ i s, c.region.sites.get? i = some s → s.depth ≤ config.maxDepth ∧ s.depth < UInt32.size) ∧
    ∀ t x, c.region.targets.get? t = some x →
      ∃ s, c.region.sites.get? x.callSite = some s ∧ s.depth + 1 ≤ config.maxDepth ∧
        s.depth + 1 < UInt32.size := by
  refine ⟨fun advice request e c' run => (h.ensures_expected advice request).fail_of_error run,
    fun i s hs => ?_, fun t x hx => ?_⟩
  · have within := (h.sourced .unprofiled (Region.forest_call hs)).1
    exact ⟨within, Nat.lt_of_le_of_lt within config.maxDepth_lt⟩
  · have home : c.region.forest.home? t = some x.callSite := by
      simp [Forest.home?, Region.forest_origin hx]
    obtain ⟨k, hk, within⟩ := h.sound.within home
    obtain ⟨s, hs, rfl⟩ := Region.site_of_call hk
    exact ⟨s, hs, within, Nat.lt_of_le_of_lt within config.maxDepth_lt⟩

/-- `main` makes a virtual call to `exit`, which is static. -/
def crossed : Program where
  classes := [{ id := ⟨0⟩, name := "System" }]
  methods := [
    { id := ⟨0⟩, name := "main", declaringClass := ⟨0⟩, kind := .static, size := .ofNat _ 5,
      calls := [{ index := 1, shape := .virtual, method := some ⟨1⟩ }] },
    { id := ⟨1⟩, name := "exit", declaringClass := ⟨0⟩, kind := .static, size := .ofNat _ 1 }]
  accepted := by decide +kernel

/-- Where invariants are verified. -/
def verified : Configuration := { Configuration.standard with verifyInvariants := true }

/-- `main` was explored up to its call of `exit`. -/
def exitRefused : Compilation :=
  ((perform ⟨crossed, verified, .unprofiled⟩ (.explore ⟨0⟩)).run (.start verified [])).2

/-- The fault at the call of `exit` is the one that is expected, and nothing lies too deep. -/
theorem faults_expected_exit :
    Fault.Expected crossed verified (.start verified []) exitRefused (.explore ⟨0⟩)
        (.inconsistentInitialCallee ⟨0⟩ .dispatchedStatic) ∧
      ∃ s, exitRefused.region.sites.get? ⟨0⟩ = some s ∧ s.depth ≤ verified.maxDepth ∧
        s.depth < UInt32.size := by
  have begun : Visits crossed verified [] (.start verified []) := .start
  have refused : ((perform ⟨crossed, verified, .unprofiled⟩ (.explore ⟨0⟩)).run
      (.start verified [])).1 = .error (.inconsistentInitialCallee ⟨0⟩ .dispatchedStatic) := by
    decide +kernel
  have there : (exitRefused.region.sites.get? ⟨0⟩).isSome := by decide +kernel
  obtain ⟨s, hs⟩ := Option.isSome_iff_exists.1 there
  exact ⟨(faults_expected begun).1 .unprofiled _ _ _ (Prod.ext refused rfl), s, hs,
    (faults_expected (begun.run .unprofiled (.explore ⟨0⟩))).2.1 _ s hs⟩

end Inlining
