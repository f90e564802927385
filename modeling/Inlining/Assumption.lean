import Inlining.Region.Arena

/-!
# Assumptions

A folded constant may hold only while the program keeps some promise. Each such assumption is
pending until generated code depends on it; it is confirmed then (`confirm_state?`), and invalidated
once the program breaks the promise, in whatever state it was (`invalidate_state?`). Confirming an
invalidated assumption does nothing.
-/

namespace Inlining

/-- Where an assumption is in its life. -/
inductive AssumptionState where
  | pending
  | confirmed
  | invalidated
deriving DecidableEq, Repr

def AssumptionState.name : AssumptionState → String
  | pending => "pending"
  | confirmed => "confirmed"
  | invalidated => "invalidated"

/-- The state after generated code came to depend on the assumption. -/
def AssumptionState.confirm : AssumptionState → AssumptionState
  | pending => confirmed
  | state => state

/-- A promise that a fold depends on. -/
structure Assumption where
  description : String
  state : AssumptionState := .pending
deriving DecidableEq

/-- The assumptions of a compilation. -/
abbrev AssumptionTable := Arena .assumption Assumption

namespace AssumptionTable

/-- Adds a pending assumption. -/
def register (t : AssumptionTable) (description : String) : AssumptionTable :=
  t.alloc { description }

def state? (t : AssumptionTable) (a : AssumptionId) : Option AssumptionState :=
  (t.get? a).map (·.state)

/-- Notes that generated code depends on an assumption. -/
def confirm (t : AssumptionTable) (a : AssumptionId) : AssumptionTable :=
  t.modify a fun x => { x with state := x.state.confirm }

/-- Notes that generated code depends on each of the assumptions. -/
def confirmAll (t : AssumptionTable) (as : List AssumptionId) : AssumptionTable :=
  as.foldl confirm t

/-- Notes that the program broke the promise. -/
def invalidate (t : AssumptionTable) (a : AssumptionId) : AssumptionTable :=
  t.modify a fun x => { x with state := .invalidated }

/-- Adds one pending assumption per description; the answer lists their handles in order. -/
def registerAll (t : AssumptionTable) : List String → List AssumptionId × AssumptionTable
  | [] => ([], t)
  | d :: ds =>
    let (as, t') := registerAll (t.register d) ds
    (t.next :: as, t')

theorem confirm_get? (t : AssumptionTable) (a b : AssumptionId) :
    (t.confirm a).get? b =
      if a = b then (t.get? b).map fun x => { x with state := x.state.confirm } else t.get? b :=
  Arena.get?_modify ..

theorem invalidate_get? (t : AssumptionTable) (a b : AssumptionId) :
    (t.invalidate a).get? b =
      if a = b then (t.get? b).map fun x => { x with state := .invalidated } else t.get? b :=
  Arena.get?_modify ..

theorem confirm_state? (t : AssumptionTable) (a b : AssumptionId) :
    (t.confirm a).state? b = if a = b then (t.state? b).map (·.confirm) else t.state? b := by
  unfold state?
  rw [confirm_get?]
  split
  · cases t.get? b <;> rfl
  · rfl

/-- A broken promise leaves its assumption invalidated, and all others as they are. -/
theorem invalidate_state? (t : AssumptionTable) (a b : AssumptionId) :
    (t.invalidate a).state? b =
      if a = b then (t.state? b).map fun _ => .invalidated else t.state? b := by
  unfold state?
  rw [invalidate_get?]
  split
  · cases t.get? b <;> rfl
  · rfl

theorem confirmAll_state? (t : AssumptionTable) (as : List AssumptionId) (b : AssumptionId) :
    (t.confirmAll as).state? b = if b ∈ as then (t.state? b).map (·.confirm) else t.state? b := by
  have twice (state : AssumptionState) : state.confirm.confirm = state.confirm := by cases state <;> rfl
  induction as generalizing t with
  | nil => rfl
  | cons a as ih =>
    refine (ih (t.confirm a)).trans ?_
    rw [confirm_state?]
    by_cases here : a = b
    · subst here
      cases t.state? a <;> simp [twice]
    · simp [here, Ne.symm here]

end AssumptionTable

end Inlining
