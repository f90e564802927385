import Inlining.Proofs.Hierarchy
import Inlining.Resolution

/-!
# What a guarded binding runs

A dispatched call is bound to a method under a guard. The bindings that rest on a run-time
test of the receiver's exact class or of its method are right for every receiver that passes.
Those that rest on the hierarchy alone (`Strategy.notOverridden` and
`Strategy.notOverriddenInSubhierarchy`) were checked in the classes below an anchor
(`Candidate.anchor?`), but a receiver below the anchor may get its method from elsewhere: a
class that implements an interface runs what it inherits from a superclass outside of it.
`runs_bound_iff` says which receivers run the bound method, and
`interface_default_misbound` shows one that does not.
-/

namespace Inlining

/-- A receiver of class `k`, not null, passes the guard of a call to `slot` that is bound to
`bound`. -/
def Guard.Passes (g : Guard) (p : Program) (bound : MethodId) (slot : Int) (k : ClassId) : Prop :=
  match g.test with
  | .subclassTest => ∃ c, g.thisClass = some c ∧ p.isSubclassOf k c = true
  | .vftTest => g.thisClass = some k
  | .methodTest => p.dispatch? k slot = some bound
  | .none | .nullTest | .referenceTest => True

/-- A concrete class that can be the receiver's, by all that the instruction says. -/
structure CallInstruction.CanReceive (i : CallInstruction) (p : Program) (k : ClassId) :
    Prop where
  concrete : (p.class? k).any (·.isConcrete) = true
  declared : ∀ c, i.declaredMethod.bind p.classOf? = some c → p.isSubclassOf k c = true
  receiver : ∀ c, i.receiverClass = some c → p.isSubclassOf k c = true
  fixed : ∀ c, i.facts.bind (·.receiver?) = some ⟨c, .fixed⟩ → k = c
  resolved : ∀ c, i.facts.bind (·.receiver?) = some ⟨c, .resolved⟩ → p.isSubclassOf k c = true

/-- The class below which the binding was found not to be overridden, if it rests on that. -/
def Candidate.anchor? (b : Candidate) (p : Program) : Option ClassId :=
  match b.strategy with
  | .notOverridden => p.classOf? b.method
  | .notOverriddenInSubhierarchy c => some c
  | _ => none

namespace Environment

variable {env : Environment}

/-- What is decided was proposed by some step and got a guard. -/
theorem exists_of_mem_firstBound {reason : FailureReason} {steps : List (List Binding)}
    {b : Candidate} (h : b ∈ (env.firstBound reason steps).1) :
    ∃ step ∈ steps, ∃ x ∈ step, env.bind? x = some b := by
  induction steps generalizing reason with
  | nil => simp [firstBound] at h
  | cons step rest ih =>
    rw [firstBound] at h
    split at h
    · obtain ⟨step', hmem, hx⟩ := ih h
      exact ⟨step', List.mem_cons_of_mem _ hmem, hx⟩
    · exact ⟨step, List.mem_cons_self, List.mem_filterMap.1 h⟩

theorem exists_of_mem_candidates {c : Call} {stack : CallStack} {already : List MethodId}
    {b : Candidate} (h : b ∈ (env.resolve c stack already).candidates) :
    ∃ step ∈ c.steps env, b.toBinding ∈ step ∧ env.guard? b.strategy = some b.guard := by
  unfold resolve at h
  split at h
  · cases h
  · obtain ⟨step, hstep, x, hx, hb⟩ := exists_of_mem_firstBound (List.mem_filter.1 h).1
    simp only [bind?, Option.map_eq_some_iff] at hb
    obtain ⟨guard, hguard, rfl⟩ := hb
    exact ⟨step, hstep, hx, hguard⟩

theorem wantedGuard?_of_guard? {s : Strategy} {g : Guard} (h : env.guard? s = some g) :
    wantedGuard? env.program env.config s = some g := by
  unfold guard? at h
  split at h
  · cases h
  · exact (Option.filter_eq_some_iff.1 h).1

section Passes

variable {g : Guard} {bound : MethodId} {slot : Int} {k : ClassId}

theorem eq_of_passes_profiledReceiver {known : ClassId}
    (h : env.guard? (.profiledReceiver known) = some g) (hp : g.Passes env.program bound slot k) :
    k = known := by
  have hw := wantedGuard?_of_guard? h
  rw [wantedGuard?] at hw
  split at hw
  · cases hw
  · cases hw
    exact (Option.some.inj hp).symm

theorem dispatch?_of_passes_singleImplementer {base : ClassId}
    (h : env.guard? (.singleImplementer base) = some g) (hp : g.Passes env.program bound slot k) :
    env.program.dispatch? k slot = some bound := by
  have hw := wantedGuard?_of_guard? h
  cases hw
  exact hp

theorem dispatch?_of_passes_forcedInline {c? : Option ClassId}
    (h : env.guard? (.forcedInline c?) = some g) (hp : g.Passes env.program bound slot k) :
    env.program.dispatch? k slot = some bound := by
  obtain ⟨c, -, rfl⟩ := Option.map_eq_some_iff.1 (wantedGuard?_of_guard? h)
  exact hp

end Passes

end Environment

namespace Call

variable {c : Call} {env : Environment} {b : Binding} {m : MethodId}

theorem mem_fixedReceiverStep (h : b ∈ c.fixedReceiverStep env) :
    ∃ known, c.receiverFact? env = some ⟨known, .fixed⟩ ∧
      env.program.dispatch? known c.slot = some b.method ∧ b.strategy = .fixedReceiver known := by
  unfold fixedReceiverStep at h
  split at h
  next known hfact =>
    obtain ⟨m, hm, rfl⟩ := List.mem_map.1 h
    exact ⟨known, hfact, Option.mem_toList.1 hm, rfl⟩
  · cases h

theorem mem_notOverriddenStep (h : b ∈ c.notOverriddenStep env) :
    c.boundMethod? env = some b.method ∧ env.program.isOverridden b.method = false ∧
      b.strategy = .notOverridden := by
  unfold notOverriddenStep at h
  split at h
  · obtain ⟨m, hm, rfl⟩ := List.mem_map.1 h
    obtain ⟨hb, ho⟩ := Option.filter_eq_some_iff.1 (Option.mem_toList.1 hm)
    exact ⟨hb, by simpa [Binding.always] using ho, rfl⟩
  · cases h

theorem mem_subhierarchyStep (h : b ∈ c.subhierarchyStep env) :
    ∃ bound, env.program.dispatch? bound c.slot = some b.method ∧
      env.program.isOverriddenBelow b.method bound = false ∧
      b.strategy = .notOverriddenInSubhierarchy bound := by
  unfold subhierarchyStep at h
  split at h
  · obtain ⟨bound, -, h⟩ := List.mem_flatMap.1 h
    obtain ⟨m, hm, rfl⟩ := List.mem_map.1 h
    obtain ⟨hd, ho⟩ := Option.filter_eq_some_iff.1 (Option.mem_toList.1 hm)
    exact ⟨bound, hd, by simpa [Binding.always] using ho, rfl⟩
  · cases h

theorem mem_profiledReceiverStep (h : b ∈ c.profiledReceiverStep env) :
    ∃ known, env.program.dispatch? known c.slot = some b.method ∧
      b.strategy = .profiledReceiver known := by
  unfold profiledReceiverStep at h
  split at h
  · cases h
  · obtain ⟨⟨known, share⟩, -, h⟩ := List.mem_filterMap.1 h
    dsimp only at h
    split at h
    · obtain ⟨m, hm, rfl⟩ := Option.map_eq_some_iff.1 h
      exact ⟨known, hm, rfl⟩
    · cases h

theorem mem_singleImplementerStep (h : b ∈ c.singleImplementerStep env) :
    ∃ base, b.strategy = .singleImplementer base := by
  unfold singleImplementerStep at h
  split at h
  · obtain ⟨base, -, h⟩ := List.mem_flatMap.1 h
    obtain ⟨m, -, rfl⟩ := List.mem_map.1 h
    exact ⟨base, rfl⟩
  · cases h

theorem mem_forcedStep (h : b ∈ c.forcedStep env) : ∃ c?, b.strategy = .forcedInline c? := by
  unfold forcedStep at h
  split at h
  · obtain ⟨m, -, rfl⟩ := List.mem_map.1 h
    exact ⟨_, rfl⟩
  · cases h

/-- A method that a call is bound to before its receiver is looked at is declared for the slot
of the call, if that holds of the method that the instruction names. -/
theorem slot_of_boundMethod?
    (hslot : ∀ m, c.initialCallee = some m → (env.program.method? m).bind (·.slot) = some c.slot)
    (h : c.boundMethod? env = some m) :
    ∃ decl, env.program.method? m = some decl ∧ decl.slot = some c.slot := by
  unfold boundMethod? at h
  cases hi : c.initialCallee with
  | some callee =>
    rw [hi, Option.some_or] at h
    obtain rfl := Option.some.inj h
    exact Option.bind_eq_some_iff.1 (hslot callee hi)
  | none =>
    rw [hi, Option.none_or] at h
    obtain ⟨bound, -, hd⟩ := Option.bind_eq_some_iff.1 h
    obtain ⟨decl, hm, -, hs, -⟩ := env.program.dispatch?_declared hd
    exact ⟨decl, hm, hs⟩

end Call

section Bound

variable {env : Environment} {c : Call} {stack : CallStack} {already : List MethodId}
  {b : Candidate}

/-- A binding of a dispatched call was either checked below an anchor, which runs the bound
method, or its guard lets only receivers pass that do. -/
theorem anchored_or_runs (hkind : c.kind = .indirect)
    (hslot : ∀ m, c.initialCallee = some m → (env.program.method? m).bind (·.slot) = some c.slot)
    (hb : b ∈ (env.resolve c stack already).candidates) :
    (∃ a, b.anchor? env.program = some a ∧ env.program.dispatch? a c.slot = some b.method ∧
        env.program.isRedeclaredBelow b.method c.slot a = false) ∨
      (b.anchor? env.program = none ∧
        ∀ k, (∀ known, c.facts.bind (·.receiver?) = some ⟨known, .fixed⟩ → k = known) →
          b.guard.Passes env.program b.method c.slot k →
          env.program.dispatch? k c.slot = some b.method) := by
  obtain ⟨step, hstep, hbind, hguard⟩ := Environment.exists_of_mem_candidates hb
  simp only [Call.steps, hkind, List.mem_cons, List.not_mem_nil, or_false] at hstep
  rcases hstep with rfl | rfl | rfl | rfl | rfl | rfl
  · obtain ⟨known, hfact, hd, hs⟩ := Call.mem_fixedReceiverStep hbind
    refine .inr ⟨by simp [Candidate.anchor?, hs], fun k hk _ => ?_⟩
    unfold Call.receiverFact? at hfact
    split at hfact
    · rw [hk known hfact]; exact hd
    · cases hfact
  · obtain ⟨hm, ho, hs⟩ := Call.mem_notOverriddenStep hbind
    obtain ⟨decl, hdecl, hdslot⟩ := Call.slot_of_boundMethod? hslot hm
    refine .inl ⟨decl.declaringClass, ?_, env.program.dispatch?_of_not_overridden hdecl hdslot ho⟩
    simp [Candidate.anchor?, hs, Description.classOf?, hdecl]
  · obtain ⟨bound, hd, ho, hs⟩ := Call.mem_subhierarchyStep hbind
    obtain ⟨decl, hdecl, -, hdslot, -⟩ := env.program.dispatch?_declared hd
    exact .inl ⟨bound, by simp [Candidate.anchor?, hs],
      (env.program.isOverriddenBelow_eq_false_iff hdecl hdslot).1 ho⟩
  · obtain ⟨known, hd, hs⟩ := Call.mem_profiledReceiverStep hbind
    refine .inr ⟨by simp [Candidate.anchor?, hs], fun k _ hp => ?_⟩
    rw [Environment.eq_of_passes_profiledReceiver (hs ▸ hguard) hp]
    exact hd
  · obtain ⟨base, hs⟩ := Call.mem_singleImplementerStep hbind
    exact .inr ⟨by simp [Candidate.anchor?, hs], fun k _ hp =>
      Environment.dispatch?_of_passes_singleImplementer (hs ▸ hguard) hp⟩
  · obtain ⟨c?, hs⟩ := Call.mem_forcedStep hbind
    exact .inr ⟨by simp [Candidate.anchor?, hs], fun k _ hp =>
      Environment.dispatch?_of_passes_forcedInline (hs ▸ hguard) hp⟩

end Bound

/-- The class from which a receiver gets method `m` is one that a binding took into account: it
lies at or below the anchor, or declares the bound method. -/
def Candidate.Foresees (b : Candidate) (p : Program) (m : MethodId) : Prop :=
  ∀ a, b.anchor? p = some a → ∃ n, p.classOf? m = some n ∧
    (p.isSubclassOf n a = true ∨ p.classOf? b.method = some n)

/-- **What gets through the guard.** A possible receiver of a dispatched call that passes the
guard of a binding and runs some method runs the bound one if and only if the binding foresees
the class that it gets its method from. It does so whenever the anchor is on the receiver's way
up. -/
theorem runs_bound_iff (env : Environment) (i : CallInstruction) (id : SiteId) (caller : MethodId)
    (depth : Nat) (stack : CallStack) (already : List MethodId) (b : Candidate) (k : ClassId)
    (hshape : i.shape = .virtual ∨ i.shape = .interface)
    (hslot : (i.declaredMethod.bind env.program.method?).bind (·.slot) = some i.slot)
    (hb : b ∈ (env.resolve (.ofInstruction id caller depth i) stack already).candidates)
    (hk : i.CanReceive env.program k)
    (hp : b.guard.Passes env.program b.method i.slot k) :
    (∀ m, env.program.dispatch? k i.slot = some m →
        (m = b.method ↔ b.Foresees env.program m)) ∧
      ((∀ a, b.anchor? env.program = some a → a ∈ env.program.superclassChain k) →
        env.program.dispatch? k i.slot = some b.method) := by
  have hkind : (Call.ofInstruction id caller depth i).kind = .indirect := by
    rcases hshape with h | h <;> simp [Call.ofInstruction, h, CallShape.siteKind]
  have hcallee : ∀ m, (Call.ofInstruction id caller depth i).initialCallee = some m →
      (env.program.method? m).bind (·.slot) = some i.slot := by
    intro m hm
    simp only [Call.ofInstruction] at hm
    split at hm
    · simpa [hm] using hslot
    · cases hm
  rcases anchored_or_runs hkind hcallee hb with ⟨a, ha, hd, hr⟩ | ⟨hnone, hruns⟩
  · constructor
    · intro m hm
      rw [env.program.dispatch?_eq_iff_of_not_redeclared hd hr hm]
      simp [Candidate.Foresees, ha]
    · intro hchain
      exact env.program.dispatch?_eq_of_mem_superclassChain (hchain a ha) hd hr
  · have hd := hruns k hk.fixed hp
    constructor
    · intro m hm
      have : m = b.method := Option.some.inj (hm.symm.trans hd)
      simp [Candidate.Foresees, hnone, this]
    · intro _
      exact hd

/-- Jobs implement an interface with a `run` of its own, but inherit `run` from tasks. -/
def jobs : Program where
  classes := [
    { id := ⟨0⟩, name := "Runnable", isInterface := true },
    { id := ⟨1⟩, name := "Task" },
    { id := ⟨2⟩, name := "Job", superclass := some ⟨1⟩, interfaces := [⟨0⟩] }]
  methods := [
    { id := ⟨0⟩, name := "run", declaringClass := ⟨0⟩, kind := .interface, slot := some 5,
      size := .ofNat _ 10 },
    { id := ⟨1⟩, name := "run", declaringClass := ⟨1⟩, slot := some 5, size := .ofNat _ 20 }]
  accepted := by decide +kernel

/-- Jobs explored with the hierarchy alone, without profiles and single implementations. -/
def jobsEnvironment : Environment where
  program := jobs
  config := { Configuration.standard with
    enableProfiled := false, enableSingleImplementer := false }
  advice := .unprofiled

/-- The virtual call of `run` on a task. -/
def taskCall : CallInstruction :=
  { shape := .virtual, declaredMethod := some ⟨1⟩, receiverClass := some ⟨1⟩, slot := 5 }

/-- The interface call of `run`. -/
def runnableCall : CallInstruction :=
  { shape := .interface, declaredMethod := some ⟨0⟩, receiverClass := some ⟨0⟩, slot := 5 }

/-- The binding of a call to the method of the class that it names, without guard. -/
def unguardedRun (m : MethodId) (c : ClassId) : Candidate :=
  { Binding.always m .notOverridden (some c) with guard := .unguarded }

theorem taskCall_canReceive : taskCall.CanReceive jobs ⟨2⟩ where
  concrete := by decide +kernel
  declared c hc := by
    have : c = ⟨1⟩ := (Option.some.inj (show some ⟨1⟩ = some c from hc)).symm
    subst this; decide +kernel
  receiver c hc := by cases hc; decide +kernel
  fixed c hc := by cases hc
  resolved c hc := by cases hc

theorem runnableCall_canReceive : runnableCall.CanReceive jobs ⟨2⟩ where
  concrete := by decide +kernel
  declared c hc := by
    have : c = ⟨0⟩ := (Option.some.inj (show some ⟨0⟩ = some c from hc)).symm
    subst this; decide +kernel
  receiver c hc := by cases hc; decide +kernel
  fixed c hc := by cases hc
  resolved c hc := by cases hc

/-- A job runs the `run` of tasks that a call on a task is bound to. -/
theorem runs_bound_job :
    unguardedRun ⟨1⟩ ⟨1⟩ ∈ (jobsEnvironment.resolve (.ofInstruction ⟨0⟩ ⟨7⟩ 0 taskCall)
        { maxCallSize := 0 } []).candidates ∧
      taskCall.CanReceive jobs ⟨2⟩ ∧ jobs.dispatch? ⟨2⟩ 5 = some ⟨1⟩ := by
  have hb : unguardedRun ⟨1⟩ ⟨1⟩ ∈ (jobsEnvironment.resolve (.ofInstruction ⟨0⟩ ⟨7⟩ 0 taskCall)
      { maxCallSize := 0 } []).candidates := by decide +kernel
  refine ⟨hb, taskCall_canReceive, ?_⟩
  have h := runs_bound_iff jobsEnvironment taskCall ⟨0⟩ ⟨7⟩ 0 { maxCallSize := 0 } [] _ ⟨2⟩
    (.inl rfl) (by decide +kernel) hb taskCall_canReceive trivial
  apply h.2
  intro a ha
  have : a = ⟨1⟩ := (Option.some.inj (show some ⟨1⟩ = some a from ha)).symm
  subst this; decide +kernel

/-- A job passes the unguarded binding of the interface call to the interface's own `run`, and
runs the `run` of tasks. -/
theorem interface_default_misbound :
    unguardedRun ⟨0⟩ ⟨0⟩ ∈ (jobsEnvironment.resolve (.ofInstruction ⟨0⟩ ⟨7⟩ 0 runnableCall)
        { maxCallSize := 0 } []).candidates ∧
      runnableCall.CanReceive jobs ⟨2⟩ ∧
      (unguardedRun ⟨0⟩ ⟨0⟩).guard.Passes jobs ⟨0⟩ 5 ⟨2⟩ ∧
      jobs.dispatch? ⟨2⟩ 5 = some ⟨1⟩ ∧ (unguardedRun ⟨0⟩ ⟨0⟩).method ≠ ⟨1⟩ :=
  ⟨by decide +kernel, runnableCall_canReceive, trivial, by decide +kernel, by decide⟩

end Inlining
