import Inlining.Region.Basic
import Inlining.SiteScope

/-!
# Exploring calls

An exploration walks the body of a compiled method, resolves every call in it, and explores
the body of each target one level deeper. A body that outgrows the size of one call, or the
budget of the compilation, is pruned with everything below it; its siblings stay as they are.
Resolving a site again (`revisit`) rebuilds the stack of the bodies around it and charges new
targets to those bodies and to the budget.

Bodies are explored on the stack that their own frame was pushed on, so a body leaves the
stack of its caller as it was. The recursion goes down the levels that are left below the
depth limit, where no call is resolved any more.
-/

namespace Inlining

/-- The state of a compilation. -/
structure Compilation where
  region : Region := {}
  journal : Journal
  /-- what earlier passes inlined, and targets that were marked as inlined -/
  previouslyInlined : List InlinedRecord := []
  /-- the call sites found in the bodies of the compiled methods themselves -/
  roots : List SiteId := []
  compiled : List MethodId := []
  /-- the sum of the sizes that were accepted against the budget -/
  totalSize : Size := 0
  /-- the number that the next explored target gets -/
  nextNumber : Nat := 0

/-- A part of an exploration: it may fail, and what it changed before that stays changed. -/
abbrev Exploration := ExceptT Fault (StateM Compilation)

namespace Compilation

/-- A compilation before its first step. -/
def start (config : Configuration) (previouslyInlined : List InlinedRecord) : Compilation where
  journal := { recording := config.traceEvents }
  previouslyInlined := previouslyInlined

/-- The compilation as the scope of one of its sites. -/
def scope (c : Compilation) (site : CallSite) : SiteScope := ⟨site, c.region.targets, c.journal⟩

/-- Takes over what happened in the scope of a site. -/
def update (c : Compilation) (id : SiteId) (s : SiteScope) : Compilation :=
  { c with
    region := { c.region with
      sites := c.region.sites.modify id fun _ => s.site
      targets := s.targets }
    journal := s.journal }

end Compilation

namespace Exploration

/-- Runs something that needs no state. -/
def ofExcept {α : Type} (x : Except Fault α) : Exploration α := ExceptT.mk (pure x)

/-- The call site with a handle. -/
def site (id : SiteId) : Exploration CallSite := do
  match (← get).region.sites.get? id with
  | some s => return s
  | none => throw (.noSite id)

/-- The target with a handle. -/
def target (id : TargetId) : Exploration CallTarget := do
  match (← get).region.targets.get? id with
  | some t => return t
  | none => throw (.noTarget id)

def modifyRegion (f : Region → Region) : Exploration Unit :=
  modify fun c => { c with region := f c.region }

def modifyTarget (id : TargetId) (f : CallTarget → CallTarget) : Exploration Unit :=
  modifyRegion fun r => { r with targets := r.targets.modify id f }

/-- Runs something in the scope of a site. -/
def onSite {α : Type} (id : SiteId) (f : SiteScope → Except Fault α × SiteScope) :
    Exploration α := do
  let s ← site id
  let c ← get
  let (answer, scope) := f (c.scope s)
  set (c.update id scope)
  ofExcept answer

/-- Runs something in the scope of a site that changes nothing if it fails. -/
def changeSite (id : SiteId) (f : SiteScope → Except Fault SiteScope) : Exploration Unit :=
  onSite id fun s =>
    match f s with
    | .ok s => (.ok (), s)
    | .error fault => (.error fault, s)

/-- Enters the body of a method. -/
def enter (stack : CallStack) (symbol : Option SymbolId) (method : MethodId) (depth : Nat) :
    Exploration CallStack := do
  let (stack, journal) ← ofExcept (stack.pushRecorded (← get).journal symbol method depth)
  modify fun c => { c with journal }
  return stack

/-- Leaves the innermost body of a stack, which is committed before if asked for. -/
def leave (stack : CallStack) (committed : Bool) : Exploration Unit := do
  let (_, journal) ← ofExcept (stack.popRecorded (← get).journal committed)
  modify fun c => { c with journal }

variable (env : Environment)

/-- Resolves a site; the answer says whether it has a live target. -/
def resolveSite (stack : CallStack) (id : SiteId) : Exploration Bool :=
  onSite id (·.findTargets env stack)

/-- Gives a live target up. A site that is left without target gets the same reason. -/
def removeTarget (id : SiteId) (t : TargetId) (reason : FailureReason) : Exploration Unit := do
  changeSite id fun s => do
    let s ← s.remove t reason
    return if s.site.live.isEmpty then s.setFailureReason reason else s
  if env.config.verifyInvariants then
    ofExcept (← site id).checkTargetCounts

/-- Gives up everything that was explored below a target, down to the given number of
levels. -/
def pruneCallees (reason : FailureReason) : Nat → TargetId → Exploration Unit
  | 0, _ => pure ()
  | levels + 1, t => do
    (← target t).callees.forM fun callee => do
      (← site callee).live.forM (pruneCallees reason levels)
      changeSite callee fun s => do return (← s.removeAll reason).setFailureReason reason
      let pruned ← ofExcept ((← target t).removeCallee t callee)
      modifyTarget t fun _ => pruned

/-- Gives a target up with everything below it. -/
def abandon (id : SiteId) (t : TargetId) (reason : FailureReason) : Exploration Unit := do
  pruneCallees reason env.config.maxDepth t
  removeTarget env id t reason

/-- Explores every call in a body on the stack whose innermost frame is that of the body;
`inner` explores a target of a call. -/
def exploreBody (inner : CallStack → SiteId → TargetId → Exploration Unit) (stack : CallStack)
    (method : MethodId) (depth : Nat) : Exploration (List SiteId) :=
  (env.program.instructionsOf method).mapM fun instruction => do
    let stack ← ofExcept (stack.moveTo env.program instruction.block)
    let id := (← get).region.sites.next
    modifyRegion fun r =>
      { r with sites := r.sites.alloc (.ofCall (.ofInstruction id method depth instruction)) }
    let stack ← ofExcept (stack.atNode instruction.location.callNode)
    if ← resolveSite env stack id then
      (← site id).live.forM (inner stack id)
    return id

/-- Why a target with everything inlined into it is too large. Only a target of a root site is
charged to the budget here. -/
def overflow? (totalSize : Size) (depth : Nat) (fullSize : Size) : Option FailureReason :=
  if env.config.maxCallSize < fullSize then some .exceedsCallSize
  else if depth = 1 ∧ env.config.maxTotalSize < totalSize + fullSize then some .exceedsBudget
  else none

/-- Explores the body of a target that was just added to a site, within the given number of
levels. -/
def exploreTarget : Nat → CallStack → SiteId → TargetId → Exploration Unit
  | 0, _, _, _ => pure ()
  | levels + 1, stack, id, t => do
    let depth := (← site id).depth + 1
    let number := (← get).nextNumber
    modifyTarget t fun x => { x with number := some number }
    modify fun c => { c with nextNumber := number + 1 }
    let { method, symbol, .. } ← target t
    if !env.program.isInlinable method then
      removeTarget env id t .uninlineable
    else
      modifyRegion (·.recordFolds t (env.program.foldsOf method))
      let inner ← enter stack symbol method depth
      let found ← exploreBody env (exploreTarget levels) inner method depth
      modifyRegion (·.settle t found)
      let fullSize := (← get).region.fullSize t
      match overflow? env (← get).totalSize depth fullSize with
      | some reason =>
        leave inner false
        abandon env id t reason
      | none =>
        leave inner true
        if depth = 1 then
          modify fun c => { c with totalSize := c.totalSize + fullSize }
        if env.config.verifyInvariants then
          ofExcept ((← target t).checkCallees t)

/-- Explores every call that the body of a method reaches; the answer lists the call sites in
the body itself. -/
def explore (method : MethodId) : Exploration (List SiteId) := do
  if (env.program.sizeOf? method).isNone then throw (.noBody method)
  let stack : CallStack :=
    { maxCallSize := env.config.maxCallSize
      previouslyInlined := (← get).previouslyInlined }
  let stack ← enter stack none method 0
  let stack ← ofExcept (stack.cacheBlocks env.program)
  let found ← exploreBody env (exploreTarget env env.config.maxDepth) stack method 0
  leave stack true
  modify fun c => { c with roots := c.roots ++ found, compiled := c.compiled ++ [method] }
  return found

/-- The stack inside the bodies of nested targets, the outermost first. -/
def stackWithin (stack : CallStack) : List TargetId → Exploration CallStack
  | [] => pure stack
  | t :: rest => do
    let { symbol, method, callSite, .. } ← target t
    let depth := (← site callSite).depth + 1
    stackWithin (← ofExcept (stack.push symbol method depth true)) rest

/-- Charges a target that was added to a site inside `chain` to the targets in `chain` and to
the budget, or gives it up if it is too large for one of them. -/
def charge (chain : List TargetId) (id : SiteId) (t : TargetId) : Exploration Unit := do
  let c ← get
  let added := c.region.fullSize t
  if chain.any fun e => env.config.maxCallSize < c.region.fullSize e + added then
    abandon env id t .exceedsCallSize
  else if env.config.maxTotalSize < c.totalSize + added then
    abandon env id t .exceedsBudget
  else
    modify fun c =>
      { c with region := c.region.grow chain added, totalSize := c.totalSize + added }

/-- The method whose body is compiled around a site inside `chain`. -/
def rootMethod (s : CallSite) (chain : List TargetId) : Exploration MethodId :=
  match chain with
  | [] => return s.caller
  | outer :: _ => do return (← site (← target outer).callSite).caller

/-- Resolves a site again inside the bodies that enclose it; new targets are explored and
charged. A site that was dropped from one of these bodies is left alone. The answer says
whether the site has a live target. -/
def revisit (id : SiteId) : Exploration Bool := do
  let s ← site id
  match (← get).region.enclosing? s with
  | none => return false
  | some chain =>
    let stack : CallStack :=
      { maxCallSize := env.config.maxCallSize
        previouslyInlined := (← get).previouslyInlined }
    let stack ← ofExcept (stack.push none (← rootMethod s chain) 0 true)
    let stack ← stackWithin stack chain
    let _ ← resolveSite env stack id
    let added := (← site id).live.filter (!s.live.contains ·)
    added.forM fun t => do
      exploreTarget env (env.config.maxDepth - s.depth) stack id t
      if (← site id).live.contains t && !chain.isEmpty then
        charge env chain id t
    return !(← site id).live.isEmpty

/-- Notes that a target was inlined, so that its method is not taken again at its depth. -/
def markInlined (t : TargetId) : Exploration Unit := do
  let x ← target t
  let depth := (← site x.callSite).depth + 1
  modifyTarget t fun x => { x with alreadyInlined := true }
  modify fun c => { c with previouslyInlined := c.previouslyInlined ++ [⟨x.method, depth⟩] }

/-- Notes that the program broke the promise of an assumption. -/
def invalidate (a : AssumptionId) : Exploration Unit :=
  modifyRegion fun r => { r with assumptions := r.assumptions.invalidate a }

/-- Replays folds of a target. -/
def replay (t : TargetId) (folds : List (Int × Constant)) : Exploration (List FoldOutcome) := do
  let x ← target t
  let (outcomes, after) :=
    Replay.foldAll ⟨x.constants, (← get).region.assumptions⟩ folds
  modifyTarget t fun x => { x with constants := after.constants }
  modifyRegion fun r => { r with assumptions := after.assumptions }
  return outcomes

end Exploration

end Inlining
