import Inlining.CallSite
import Inlining.RequiredConstant

/-!
# Call targets

A target is a method that one call site may be bound to, with the guard of the binding, its
size and weight, the constants that its body was folded to, and the call sites found in its
body: live callees, and deleted ones that were pruned or never had a target.
-/

namespace Inlining

/-- A method that a call site may be bound to. -/
structure CallTarget where
  callSite : SiteId
  symbol : Option SymbolId := none
  method : MethodId
  methodKind : MethodKind := .virtual
  guard : Guard := .unguarded
  receiverClass : Option ClassId := none
  facts : Option ArgumentFacts := none
  originatingBlock : Option BlockId := none
  size : Size := 0
  weight : Size := 0
  /-- the share of the site's calls that are expected to reach the target -/
  frequency : Single
  /-- the weight times the frequency -/
  adjustedWeight : Single := .zero false
  /-- the size of the body with everything inlined into it -/
  fullSize : Size := 0
  alreadyInlined : Bool := false
  failureReason : FailureReason := .inlineableTarget
  /-- the place of the target in the order of exploration -/
  number : Option Nat := none
  constants : RequiredConstants := []
  callees : List SiteId := []
  deletedCallees : List SiteId := []
  calleeCount : Nat := 0
  deletedCalleeCount : Nat := 0
deriving DecidableEq

namespace CallTarget

variable (t : CallTarget)

/-- Sets the size of the body; nothing is inlined into it yet. -/
def setSize (size : Size) : CallTarget :=
  { t with
    size, weight := size, fullSize := size
    adjustedWeight := Binary.ofNat size.val * t.frequency }

/-- Sets the frequency and weighs the target anew. -/
def adjust (frequency : Single) : CallTarget :=
  { t with frequency, adjustedWeight := Binary.ofNat t.weight.val * frequency }

/-- Adds a call site with targets that was found in the body. -/
def addCallee (s : SiteId) : CallTarget :=
  { t with callees := t.callees ++ [s], calleeCount := t.calleeCount + 1 }

/-- Adds a call site without targets that was found in the body. -/
def addDeadCallee (s : SiteId) : CallTarget :=
  { t with deletedCallees := t.deletedCallees ++ [s], deletedCalleeCount := t.deletedCalleeCount + 1 }

/-- Moves a callee to the deleted ones; `id` is the handle of the target. -/
def removeCallee (id : TargetId) (s : SiteId) : Except Fault CallTarget :=
  if t.callees.contains s then
    .ok { t with
      callees := t.callees.erase s
      calleeCount := t.calleeCount - 1
      deletedCallees := t.deletedCallees ++ [s]
      deletedCalleeCount := t.deletedCalleeCount + 1 }
  else .error (.calleeNotLive id s)

/-- Fails unless the counts agree with the callees; `id` is the handle of the target. -/
def checkCallees (id : TargetId) : Except Fault Unit :=
  if t.calleeCount = t.callees.length ∧ t.deletedCalleeCount = t.deletedCallees.length then .ok ()
  else .error (.inconsistentCalleeCount id t.calleeCount t.deletedCalleeCount t.callees.length
    t.deletedCallees.length)

/-- Records a constant that the body was folded to. -/
def addConstant (index : Int) (c : RequiredConstant) : CallTarget :=
  { t with constants := t.constants.insert index c }

/-- Gives the target up. -/
def retire (reason : FailureReason) : CallTarget :=
  { t with failureReason := reason, constants := [] }

end CallTarget

end Inlining
