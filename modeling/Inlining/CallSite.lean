import Inlining.FailureReason
import Inlining.Program.Basic

/-!
# Call sites

A call site is a call that is considered for inlining. What is known about the call never
changes (`Call`); the site adds how its resolution went: its live targets in the order of
resolution, its removed targets in the order of removal, and why it has none.
-/

namespace Inlining

/-- How a call is resolved. -/
inductive SiteKind where
  | direct
  | indirect
  | functionPointer
deriving DecidableEq, Repr

namespace SiteKind

def all : List SiteKind := [direct, indirect, functionPointer]

def name : SiteKind → String
  | direct => "direct"
  | indirect => "indirect"
  | functionPointer => "function_pointer"

end SiteKind

/-- The way a call of some shape is resolved. -/
def CallShape.siteKind : CallShape → SiteKind
  | direct => .direct
  | virtual | interface => .indirect
  | functionPointer => .functionPointer

/-- What is known about a call that is considered for inlining. -/
structure Call where
  id : SiteId
  kind : SiteKind
  caller : MethodId
  location : TreeLocation := {}
  position : BytecodePosition := {}
  /-- the depth of the frame that the call is made from -/
  depth : Nat := 0
  interfaceMethod : Option MethodId := none
  receiverClass : Option ClassId := none
  slot : Int := -1
  poolIndex : Int := -1
  /-- what the call is bound to before anything is known about its receiver -/
  initialCallee : Option MethodId := none
  initialSymbol : Option SymbolId := none
  forceInline : Bool := false
  backEdge : Bool := false
  callerBlock : Option BlockId := none
  facts : Option ArgumentFacts := none
  allConstants : Bool := false
  methodRef : Option MethodRefId := none
deriving DecidableEq

namespace Call

/-- The call that an instruction in the body of `caller` makes. Only a direct or virtual call
is bound to its declared method at first. -/
def ofInstruction (id : SiteId) (caller : MethodId) (depth : Nat) (i : CallInstruction) : Call where
  id := id
  kind := i.shape.siteKind
  caller := caller
  location := i.location
  position := i.position
  depth := depth
  interfaceMethod := if i.shape = .interface then i.declaredMethod else none
  receiverClass := i.receiverClass
  slot := i.slot
  poolIndex := i.poolIndex
  initialCallee := if i.shape = .direct ∨ i.shape = .virtual then i.declaredMethod else none
  initialSymbol := i.declaredSymbol
  forceInline := i.forceInline
  backEdge := i.backEdge
  callerBlock := some i.block
  facts := i.facts
  allConstants := i.allConstants
  methodRef := if i.shape = .functionPointer then i.methodRef else none

/-- The call is dispatched through an interface. -/
def isInterface (c : Call) : Bool := c.interfaceMethod.isSome

/-- The callee depends on more than the instruction. -/
def isIndirect (c : Call) : Bool := c.kind != .direct

/-- The method that the instruction names. -/
def declared? (c : Call) : Option MethodId := c.interfaceMethod.or c.initialCallee

/-- The class that the call is dispatched on, as far as the instruction tells. -/
def calleeClass? (c : Call) (p : Program) : Option ClassId :=
  c.receiverClass.or (c.declared?.bind p.classOf?)

/-- The call as reports show it. -/
def signature (c : Call) (p : Program) : String :=
  match c.declared?, c.methodRef with
  | some m, _ => p.signatureOf m
  | none, some r => "<" ++ c.kind.name ++ " " ++ r.text ++ ">"
  | none, none => "<" ++ c.kind.name ++ " slot " ++ toString c.slot ++ ">"

/-- What is wrong with the first binding, given how the call is resolved. -/
def initialCalleeFlaw? (c : Call) (p : Program) : Option InitialCalleeFlaw :=
  match c.kind with
  | .direct =>
    if c.initialCallee.isNone then some .directWithoutCallee
    else if c.isInterface then some .directThroughInterface
    else none
  | .indirect =>
    if c.initialCallee.any fun m => p.kindOf m = .static then some .dispatchedStatic
    else if c.isInterface && c.initialCallee.isSome then some .interfaceBound
    else none
  | .functionPointer =>
    if c.isInterface || c.initialCallee.isSome then some .pointerBound else none

/-- Fails if the first binding contradicts how the call is resolved. -/
def checkInitialCallee (c : Call) (p : Program) : Except Fault Unit :=
  match c.initialCalleeFlaw? p with
  | none => .ok ()
  | some flaw => .error (.inconsistentInitialCallee c.id flaw)

end Call

/-- A call with the outcome of its resolution. -/
structure CallSite extends Call where
  visitCount : Nat := 0
  failureReason : FailureReason := .inlineableTarget
  /-- targets that may still be inlined, in the order of resolution -/
  live : List TargetId := []
  /-- targets that were given up, in the order of removal -/
  removed : List TargetId := []
  totalAdded : Nat := 0
deriving DecidableEq

namespace CallSite

/-- A call before its first resolution. -/
def ofCall (c : Call) : CallSite := { c with }

/-- The live target at an index. -/
def liveAt (s : CallSite) (index : Nat) : Except Fault TargetId :=
  match s.live[index]? with
  | some t => .ok t
  | none => .error (.targetIndexOutOfRange index s.live.length)

/-- The removed target at an index. -/
def removedAt (s : CallSite) (index : Nat) : Except Fault TargetId :=
  match s.removed[index]? with
  | some t => .ok t
  | none => .error (.removedTargetIndexOutOfRange index s.removed.length)

/-- Fails unless live and removed targets are as many as were ever added. -/
def checkTargetCounts (s : CallSite) : Except Fault Unit :=
  if s.live.length + s.removed.length = s.totalAdded then .ok ()
  else .error (.inconsistentTargetCounts s.id s.live.length s.removed.length s.totalAdded)

end CallSite

end Inlining
