import Inlining.Assumption
import Inlining.Constant

/-!
# Required constants and their replay

While the body of a target is explored, loads are folded to constants that hold under
assumptions. They are kept by bytecode index, in ascending order. When code is generated for
the target, each fold is replayed: it is repeated only if it was recorded with the same value
and none of its assumptions was invalidated, and then all of its assumptions are confirmed. A
fold that cannot be repeated is discarded, so no later replay repeats it.
-/

namespace Inlining

/-- A folded constant and the assumptions that it depends on, in order. -/
structure RequiredConstant where
  value : Constant
  assumptions : List AssumptionId := []
deriving DecidableEq

namespace RequiredConstant

/-- No assumption of the constant was invalidated. -/
def isViable (c : RequiredConstant) (t : AssumptionTable) : Bool :=
  c.assumptions.all fun a => t.state? a != some .invalidated

/-- Every assumption of the constant is confirmed. -/
def isTrustworthy (c : RequiredConstant) (t : AssumptionTable) : Bool :=
  c.assumptions.all fun a => t.state? a == some .confirmed

end RequiredConstant

/-- Required constants by ascending bytecode index. -/
abbrev RequiredConstants := List (Int × RequiredConstant)

namespace RequiredConstants

/-- Records a constant; it replaces one at the same index. -/
def insert (index : Int) (c : RequiredConstant) : RequiredConstants → RequiredConstants
  | [] => [(index, c)]
  | (i, x) :: rest =>
    if index < i then (index, c) :: (i, x) :: rest
    else if index = i then (index, c) :: rest
    else (i, x) :: insert index c rest

def get? (cs : RequiredConstants) (index : Int) : Option RequiredConstant :=
  (cs.find? (·.1 == index)).map (·.2)

/-- Forgets the constant at an index. -/
def erase (cs : RequiredConstants) (index : Int) : RequiredConstants :=
  cs.filter (·.1 != index)

theorem get?_insert (cs : RequiredConstants) (i j : Int) (c : RequiredConstant) :
    (cs.insert i c).get? j = if i = j then some c else cs.get? j := by
  induction cs with
  | nil => by_cases h : i = j <;> simp [insert, get?, h]
  | cons x xs ih =>
    obtain ⟨k, x⟩ := x
    simp only [get?, insert] at ih ⊢
    split
    · grind
    · split <;> grind

theorem get?_erase (cs : RequiredConstants) (i j : Int) :
    (cs.erase i).get? j = if i = j then none else cs.get? j := by
  induction cs with
  | nil => simp [erase, get?]
  | cons x xs ih =>
    obtain ⟨k, x⟩ := x
    simp only [erase, get?, List.filter_cons, List.find?_cons] at ih ⊢
    grind

end RequiredConstants

/-- A fold that code generation performs. -/
structure GeneratedFold where
  index : Int
  value : Constant
  assumptions : List AssumptionId
deriving DecidableEq

/-- Why a load is generated unfolded. -/
inductive UnfoldReason where
  | noRequiredConstant
  | valueDiverged
  | assumptionInvalidated
deriving DecidableEq, Repr

def UnfoldReason.name : UnfoldReason → String
  | noRequiredConstant => "no_required_const"
  | valueDiverged => "value_diverged"
  | assumptionInvalidated => "assumption_invalidated"

/-- The answer to one replayed fold. -/
inductive FoldOutcome where
  | folded (fold : GeneratedFold)
  | unfolded (reason : UnfoldReason)
deriving DecidableEq

/-- The constants of a target together with the assumptions of the compilation. -/
structure Replay where
  constants : RequiredConstants
  assumptions : AssumptionTable

namespace Replay

/-- Replays the fold of the load at an index to an observed value. -/
def foldAt (r : Replay) (index : Int) (observed : Constant) : FoldOutcome × Replay :=
  match r.constants.get? index with
  | none => (.unfolded .noRequiredConstant, r)
  | some c =>
    if !c.isViable r.assumptions then
      (.unfolded .assumptionInvalidated, { r with constants := r.constants.erase index })
    else if c.value ≠ observed then
      (.unfolded .valueDiverged, { r with constants := r.constants.erase index })
    else
      (.folded ⟨index, c.value, c.assumptions⟩,
        { r with assumptions := r.assumptions.confirmAll c.assumptions })

/-- Replays folds one after the other. -/
def foldAll (r : Replay) : List (Int × Constant) → List FoldOutcome × Replay
  | [] => ([], r)
  | (index, observed) :: rest =>
    let (outcome, r) := r.foldAt index observed
    let (outcomes, r) := foldAll r rest
    (outcome :: outcomes, r)

/-- The folds among the outcomes. -/
def generated (outcomes : List FoldOutcome) : List GeneratedFold :=
  outcomes.filterMap fun
    | .folded fold => some fold
    | .unfolded _ => none

end Replay

end Inlining
