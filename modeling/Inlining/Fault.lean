import Inlining.Handle

/-!
# Faults

A description that is refused, and the ways in which a step of an exploration can fail. A
call that cannot be inlined is no fault. Each fault names its cause; the wording is one
function of the cause.
-/

namespace Inlining

/-- Who is to blame for data that cannot be interpreted. -/
inductive Blame where
  /-- a handle names nothing -/
  | unknownHandle
  /-- a program is described wrongly -/
  | malformedProgram
  /-- the engine itself failed -/
  | internalError
deriving DecidableEq, Repr

namespace Blame

def label : Blame → String
  | unknownHandle => "unknown handle"
  | malformedProgram => "malformed program"
  | internalError => "internal error"

/-- The message for a failure that is described by `detail`. -/
def message (blame : Blame) (detail : String) : String := blame.label ++ ": " ++ detail

end Blame

/-- Why a description is refused. -/
inductive DescriptionFault where
  | invalidJson
  | classTwice (c : ClassId)
  | unknownClass (c : ClassId)
  | inheritanceCycle (c : ClassId)
  | slotTwice (c : ClassId) (slot : Int)
  | methodTwice (m : MethodId)
  | unknownMethod (m : MethodId)
  | unknownReference (r : MethodRefId)
  | undeclaredCall (m : MethodId) (index : Int)
  | danglingReference (r : MethodRefId) (m : MethodId)
deriving DecidableEq, Repr

namespace DescriptionFault

def blame : DescriptionFault → Blame
  | unknownClass _ | unknownMethod _ | unknownReference _ => .unknownHandle
  | _ => .malformedProgram

def detail : DescriptionFault → String
  | invalidJson => "invalid program JSON"
  | classTwice c => s!"class {c} declared twice"
  | unknownClass c => s!"unknown class {c}"
  | inheritanceCycle c => s!"class {c} inherits from itself"
  | slotTwice c slot => s!"class {c} declares slot {slot} twice"
  | methodTwice m => s!"method {m} declared twice"
  | unknownMethod m => s!"unknown method {m}"
  | unknownReference r => s!"unknown method reference {r}"
  | undeclaredCall m index => s!"call at {m}:{index} has no declared method"
  | danglingReference r m => s!"reference {r} names unknown method {m}"

def message (f : DescriptionFault) : String := f.blame.message f.detail

end DescriptionFault

/-- What can be wrong with the first binding of a call site. -/
inductive InitialCalleeFlaw where
  | directWithoutCallee
  | directThroughInterface
  | dispatchedStatic
  | interfaceBound
  | pointerBound
deriving DecidableEq, Repr

def InitialCalleeFlaw.text : InitialCalleeFlaw → String
  | directWithoutCallee => "direct call without a resolved callee"
  | directThroughInterface => "direct call dispatched through an interface"
  | dispatchedStatic => "static method bound to a dispatched call"
  | interfaceBound => "interface call with an initial binding"
  | pointerBound => "function-pointer call with a declared callee"

/-- Why a step fails. -/
inductive Fault where
  | targetIndexOutOfRange (index count : Nat)
  | removedTargetIndexOutOfRange (index count : Nat)
  | targetNotLive (site : SiteId) (target : TargetId)
  | inconsistentTargetCounts (site : SiteId) (live removed added : Nat)
  | inconsistentCalleeCount (target : TargetId) (counted countedDeleted live deleted : Nat)
  | calleeNotLive (target : TargetId) (site : SiteId)
  | inconsistentInitialCallee (site : SiteId) (flaw : InitialCalleeFlaw)
  | nonIncreasingDepth (method : MethodId) (depth callerDepth : Nat)
  | stackUnderflow
  | noBody (method : MethodId)
  | noTarget (target : TargetId)
  | noSite (site : SiteId)
deriving DecidableEq, Repr

namespace Fault

/-- The message about the first binding of a site. -/
def initialCalleeMessage (site : SiteId) (detail : String) : String :=
  s!"call site {site}: inconsistent initial callee: {detail}"

def message : Fault → String
  | targetIndexOutOfRange index count => s!"indexing a target out of range: {index} >= {count}"
  | removedTargetIndexOutOfRange index count =>
    s!"indexing a removed target out of range: {index} >= {count}"
  | targetNotLive site target => s!"target {target} is not live on call site {site}"
  | inconsistentTargetCounts site live removed added =>
    s!"call site {site}: {live} live + {removed} removed targets != {added} added"
  | inconsistentCalleeCount target counted countedDeleted live deleted =>
    s!"call target {target}: counted {counted} callees / {countedDeleted} deleted, " ++
      s!"found {live} / {deleted}"
  | calleeNotLive target site => s!"call site {site} is not a live callee of target {target}"
  | inconsistentInitialCallee site flaw => initialCalleeMessage site flaw.text
  | nonIncreasingDepth method depth callerDepth =>
    s!"frame for {method} pushed at depth {depth}, caller is at depth {callerDepth}"
  | stackUnderflow => "call stack is empty"
  | noBody method => Blame.unknownHandle.message s!"no body for method {method}"
  | noTarget target => Blame.unknownHandle.message s!"no call target {target}"
  | noSite site => Blame.unknownHandle.message s!"no call site {site}"

end Fault

end Inlining
