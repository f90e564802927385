import Inlining.Proofs.Ensures

/-!
# Sessions

A session is a sequence of requests to one compilation. Program, configuration and what
earlier passes inlined are fixed; the advice may be another one at every request. `Visits`
are the compilations that sessions lead to, also through requests that failed, whose changes
stay; `Completes` are those of sessions in which every request succeeded. What holds of all of
them is proved once per request (`Visits.invariant`, `Completes.invariant`).
-/

namespace Inlining

/-- What a session asks of a compilation. -/
inductive Request where
  | explore (method : MethodId)
  | revisit (site : SiteId)
  | markInlined (target : TargetId)
  | replay (target : TargetId) (folds : List (Int × Constant))
  | invalidate (assumption : AssumptionId)

/-- Carries a request out. -/
def Exploration.perform (env : Environment) : Request → Exploration Unit
  | .explore method => discard (explore env method)
  | .revisit site => discard (revisit env site)
  | .markInlined target => markInlined target
  | .replay target folds => discard (replay target folds)
  | .invalidate assumption => invalidate assumption

variable (p : Program) (config : Configuration) (earlier : List InlinedRecord)

/-- The compilations that some session leads to. -/
inductive Visits : Compilation → Prop
  | start : Visits (.start config earlier)
  | step {c c' : Compilation} {answer : Except Fault Unit} (advice : Advice) (request : Request) :
    Visits c → (Exploration.perform ⟨p, config, advice⟩ request).run c = (answer, c') → Visits c'

/-- The compilations that some session without a failed request leads to. -/
inductive Completes : Compilation → Prop
  | start : Completes (.start config earlier)
  | step {c c' : Compilation} (advice : Advice) (request : Request) :
    Completes c → (Exploration.perform ⟨p, config, advice⟩ request).run c = (.ok (), c') →
    Completes c'

variable {p config earlier} {c : Compilation}

theorem Completes.visits (h : Completes p config earlier c) : Visits p config earlier c := by
  induction h with
  | start => exact .start
  | step advice request _ run ih => exact .step advice request ih run

open Exploration

/-- What holds at the start and is maintained by every request holds in all sessions. -/
theorem Visits.invariant {P : Compilation → Prop} (start : P (.start config earlier))
    (step : ∀ advice request, Maintains P (perform ⟨p, config, advice⟩ request))
    (h : Visits p config earlier c) : P c := by
  induction h with
  | start => exact start
  | step advice request _ run ih => exact (step advice request _ ih).of_run run

/-- What holds at the start and after every request that succeeds holds in all sessions without
a failed request. -/
theorem Completes.invariant {P : Compilation → Prop} (start : P (.start config earlier))
    (step : ∀ advice request c, Visits p config earlier c → P c →
      Ensures (perform ⟨p, config, advice⟩ request) c (fun _ => P) fun _ _ => True)
    (h : Completes p config earlier c) : P c := by
  induction h with
  | start => exact start
  | step advice request done run ih => exact (step advice request _ done.visits ih).post_of_ok run

/-- `main` calls `render`, which draws whatever shape it is given. -/
def shapes : Program where
  classes := [
    { id := ⟨0⟩, name := "Shape" },
    { id := ⟨1⟩, name := "Circle", superclass := some ⟨0⟩ },
    { id := ⟨2⟩, name := "Square", superclass := some ⟨0⟩ }]
  methods := [
    { id := ⟨0⟩, name := "main", declaringClass := ⟨0⟩, kind := .static, size := .ofNat _ 5,
      calls := [{ index := 1, shape := .direct, method := some ⟨1⟩ }] },
    { id := ⟨1⟩, name := "render", declaringClass := ⟨0⟩, kind := .static, size := .ofNat _ 10,
      calls := [{ index := 2, shape := .virtual, method := some ⟨2⟩ }] },
    { id := ⟨2⟩, name := "draw", declaringClass := ⟨0⟩, slot := some 5, size := .ofNat _ 1 },
    { id := ⟨3⟩, name := "draw", declaringClass := ⟨1⟩, slot := some 5, size := .ofNat _ 20 },
    { id := ⟨4⟩, name := "draw", declaringClass := ⟨2⟩, slot := some 5, size := .ofNat _ 30 }]
  accepted := by decide +kernel

/-- Only one kind of shape is ever drawn. -/
def drawing (k : ClassId) : Advice where
  profile? m index := if m = ⟨1⟩ ∧ index = 2 then some (.ofCounts [(k, .ofNat _ 100)] []) else none

/-- `main` was explored while circles were drawn. -/
def circlesDrawn : Compilation :=
  ((perform ⟨shapes, .standard, drawing ⟨1⟩⟩ (.explore ⟨0⟩)).run (.start .standard [])).2

/-- The call of `draw`, inside `render`, was resolved again when squares were drawn. -/
def squaresDrawn : Compilation :=
  ((perform ⟨shapes, .standard, drawing ⟨2⟩⟩ (.revisit ⟨1⟩)).run circlesDrawn).2

theorem Visits.run (h : Visits p config earlier c) (advice : Advice) (request : Request) :
    Visits p config earlier ((perform ⟨p, config, advice⟩ request).run c).2 :=
  h.step advice request rfl

/-- A run that is seen to succeed. -/
theorem Exploration.run_of_ok {x : Exploration Unit} (ok : (x.run c).1 matches .ok ()) :
    x.run c = (.ok (), (x.run c).2) := by
  rcases run : x.run c with ⟨_ | _, c'⟩
  · rw [run] at ok
    cases ok
  · rfl

theorem Completes.of_run {advice : Advice} {request : Request} (h : Completes p config earlier c)
    (ok : ((perform ⟨p, config, advice⟩ request).run c).1 matches .ok ()) :
    Completes p config earlier ((perform ⟨p, config, advice⟩ request).run c).2 :=
  h.step advice request (run_of_ok ok)

theorem completes_circlesDrawn : Completes shapes .standard [] circlesDrawn :=
  .of_run .start (by decide +kernel)

theorem completes_squaresDrawn : Completes shapes .standard [] squaresDrawn :=
  completes_circlesDrawn.of_run (by decide +kernel)

end Inlining
