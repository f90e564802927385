import Inlining.Fault
import Inlining.Journal
import Inlining.Program.Basic

/-!
# The stack of bodies under exploration

One frame stands for the compiled method and one more for every target whose body is being
explored; depths grow strictly inwards. A frame owns the temporaries and automatics that its
body brought in. Committing a frame hands them to its caller, or to the compiled method;
popping it returns what temporaries it still has to the pool. A frame also knows whether its
current call lies in a loop and whether it always runs, given where the callers stand.
-/

namespace Inlining

/-- One body under exploration. -/
structure Frame where
  symbol : Option SymbolId
  method : MethodId
  depth : Nat
  currentCallNode : Option NodeId := none
  autos : List SymbolId := []
  temps : List SymbolId := []
  blockTemps : List SymbolId := []
  maxCallSize : Size
  inLoop : Bool
  alwaysCalled : Bool
  safeToAddSymbols : Bool
  /-- the loop state of the caller when the frame was pushed -/
  inheritedInLoop : Bool
  /-- the reachability of the caller's call when the frame was pushed -/
  inheritedAlwaysCalled : Bool
  /-- facts about blocks of the body that were looked up -/
  blockCache : List (BlockId × BlockFacts) := []
deriving DecidableEq

namespace Frame

/-- The frame of a body that is called from `caller`, or of the compiled method. -/
def enter (symbol : Option SymbolId) (method : MethodId) (depth : Nat) (safe : Bool)
    (maxCallSize : Size) (caller : Option Frame) : Frame :=
  let inLoop := caller.elim false (·.inLoop)
  let alwaysCalled := caller.elim true (·.alwaysCalled)
  { symbol, method, depth
    maxCallSize := caller.elim maxCallSize (·.maxCallSize)
    inLoop, alwaysCalled
    safeToAddSymbols := safe
    inheritedInLoop := inLoop
    inheritedAlwaysCalled := alwaysCalled }

def cached? (f : Frame) (block : BlockId) : Option BlockFacts :=
  (f.blockCache.find? (·.1 == block)).map (·.2)

/-- Looks up the facts about a block and keeps them. -/
def blockFacts (f : Frame) (p : Program) (block : BlockId) : BlockFacts × Frame :=
  match f.cached? block with
  | some facts => (facts, f)
  | none =>
    let facts := p.blockFacts f.method block
    (facts, { f with blockCache := (block, facts) :: f.blockCache })

/-- The body that the frame stands for. -/
def place (f : Frame) : MethodId × Nat := (f.method, f.depth)

@[simp] theorem place_blockFacts (f : Frame) (p : Program) (block : BlockId) :
    (f.blockFacts p block).2.place = f.place := by
  unfold blockFacts
  split <;> rfl

/-- Moves the frame to a block of its body. -/
def moveTo (f : Frame) (p : Program) (block : BlockId) : Frame :=
  let (facts, f) := f.blockFacts p block
  { f with
    inLoop := f.inheritedInLoop || facts.inLoop
    alwaysCalled := f.inheritedAlwaysCalled && facts.alwaysReached }

@[simp] theorem place_moveTo (f : Frame) (p : Program) (block : BlockId) :
    (f.moveTo p block).place = f.place := f.place_blockFacts p block

/-- Looks up the facts about every block of the body. -/
def cacheBlocks (f : Frame) (p : Program) : Frame :=
  (List.range (p.blockCount f.method)).foldl (fun f i => (f.blockFacts p ⟨i⟩).2) f

@[simp] theorem place_cacheBlocks (f : Frame) (p : Program) : (f.cacheBlocks p).place = f.place := by
  unfold cacheBlocks
  generalize List.range _ = blocks
  induction blocks generalizing f with
  | nil => rfl
  | cons i blocks ih => exact (ih _).trans (f.place_blockFacts p _)

end Frame

/-- A method that an earlier pass inlined, with the depth at which it did. -/
structure InlinedRecord where
  method : MethodId
  depth : Nat
deriving DecidableEq, Repr

/-- The bodies under exploration, the innermost first, and the pools of the compilation. -/
structure CallStack where
  maxCallSize : Size
  previouslyInlined : List InlinedRecord := []
  frames : List Frame := []
  availableTemps : List SymbolId := []
  availableBlockTemps : List SymbolId := []
  committedAutos : List SymbolId := []
deriving DecidableEq

namespace CallStack

variable (s : CallStack)

def current? : Option Frame := s.frames.head?

/-- Pushes a frame deeper than the innermost one. -/
def push (symbol : Option SymbolId) (method : MethodId) (depth : Nat) (safe : Bool) :
    Except Fault CallStack :=
  let pushed :=
    { s with frames := .enter symbol method depth safe s.maxCallSize s.current? :: s.frames }
  match s.current? with
  | none => .ok pushed
  | some caller =>
    if depth ≤ caller.depth then .error (.nonIncreasingDepth method depth caller.depth)
    else .ok pushed

/-- Changes the innermost frame. -/
def modifyCurrent (f : Frame → Frame) : Except Fault CallStack :=
  match s.frames with
  | [] => .error .stackUnderflow
  | frame :: rest => .ok { s with frames := f frame :: rest }

/-- Hands the automatics and temporaries of the innermost frame to its caller, or to the
compiled method. Temporaries of single blocks return to their pool. -/
def commit : Except Fault CallStack :=
  match s.frames with
  | [] => .error .stackUnderflow
  | frame :: rest =>
    let emptied := { frame with autos := [], temps := [], blockTemps := [] }
    let blockTemps := s.availableBlockTemps ++ frame.blockTemps
    match rest with
    | [] => .ok { s with
        frames := [emptied]
        availableBlockTemps := blockTemps
        committedAutos := s.committedAutos ++ frame.autos
        availableTemps := s.availableTemps ++ frame.temps }
    | caller :: outer => .ok { s with
        frames := emptied ::
          { caller with autos := caller.autos ++ frame.autos, temps := caller.temps ++ frame.temps } ::
          outer
        availableBlockTemps := blockTemps }

/-- Pops the innermost frame; its temporaries return to the pools, its automatics stay with
it. -/
def pop : Except Fault (Frame × CallStack) :=
  match s.frames with
  | [] => .error .stackUnderflow
  | frame :: rest => .ok
    ({ frame with temps := [], blockTemps := [] },
      { s with
        frames := rest
        availableTemps := s.availableTemps ++ frame.temps
        availableBlockTemps := s.availableBlockTemps ++ frame.blockTemps })

/-- Pushes a frame and records that. -/
def pushRecorded (j : Journal) (symbol : Option SymbolId) (method : MethodId) (depth : Nat) :
    Except Fault (CallStack × Journal) := do
  let s ← s.push symbol method depth true
  return (s, j.record (.framePushed method depth))

/-- Pops the innermost frame, committed before if asked for, and records that. -/
def popRecorded (j : Journal) (committed : Bool) : Except Fault (CallStack × Journal) := do
  let s ← if committed then s.commit else pure s
  let (frame, s) ← s.pop
  return (s, j.record (.framePopped frame.method frame.depth committed))

/-- The frame of a method at a depth. -/
def frameAt? (method : MethodId) (depth : Nat) : Option Frame :=
  s.frames.find? fun f => f.method == method && f.depth == depth

/-- An earlier pass inlined the method at the depth. -/
def wasPreviouslyInlined (method : MethodId) (depth : Nat) : Bool :=
  s.previouslyInlined.contains ⟨method, depth⟩

/-- The method has a frame at the depth, or an earlier pass inlined it there. -/
def isAnywhere (method : MethodId) (depth : Nat) : Bool :=
  (s.frameAt? method depth).isSome || s.wasPreviouslyInlined method depth

/-- The number of frames of a method. -/
def occurrences (method : MethodId) : Nat := s.frames.countP (·.method == method)

/-- Looks up the facts about a block of the innermost body. -/
def blockFacts (p : Program) (block : BlockId) : Except Fault (BlockFacts × CallStack) :=
  match s.frames with
  | [] => .error .stackUnderflow
  | frame :: rest =>
    let (facts, frame) := frame.blockFacts p block
    .ok (facts, { s with frames := frame :: rest })

/-- Looks up the facts about every block of the innermost body. -/
def cacheBlocks (p : Program) : Except Fault CallStack :=
  s.modifyCurrent (·.cacheBlocks p)

/-- Moves the innermost frame to a block of its body. -/
def moveTo (p : Program) (block : BlockId) : Except Fault CallStack :=
  s.modifyCurrent (·.moveTo p block)

def addAuto (auto : SymbolId) : Except Fault CallStack :=
  s.modifyCurrent fun f => { f with autos := f.autos ++ [auto] }

def addTemp (temp : SymbolId) : Except Fault CallStack :=
  s.modifyCurrent fun f => { f with temps := f.temps ++ [temp] }

def addBlockTemp (temp : SymbolId) : Except Fault CallStack :=
  s.modifyCurrent fun f => { f with blockTemps := f.blockTemps ++ [temp] }

/-- Returns temporaries to the pool. -/
def releaseTemps (temps : List SymbolId) : CallStack :=
  { s with availableTemps := s.availableTemps ++ temps }

/-- Returns temporaries of single blocks to their pool. -/
def releaseBlockTemps (temps : List SymbolId) : CallStack :=
  { s with availableBlockTemps := s.availableBlockTemps ++ temps }

/-- Takes the temporary that was returned last. -/
def takeTemp : Option SymbolId × CallStack :=
  (s.availableTemps.getLast?, { s with availableTemps := s.availableTemps.dropLast })

/-- Changes the size limit of the innermost frame, if there is one. -/
def setMaxCallSize (size : Size) : CallStack :=
  match s.frames with
  | [] => s
  | frame :: rest => { s with frames := { frame with maxCallSize := size } :: rest }

/-- Sets the call node of the innermost frame. -/
def setCallNode (node : NodeId) : Except Fault CallStack :=
  s.modifyCurrent fun f => { f with currentCallNode := some node }

/-- Sets the call node of the innermost frame if there is one to set. -/
def atNode (node? : Option NodeId) : Except Fault CallStack := node?.elim (.ok s) s.setCallNode

/-- Sets the call node of the frame at a height above the outermost one, if there is one. -/
def restoreCallNode (height : Nat) (node : Option NodeId) : CallStack :=
  { s with
    frames := (s.frames.reverse.modify height fun f => { f with currentCallNode := node }).reverse }

/-- The innermost frame is that of a method at a depth. -/
def At (method : MethodId) (depth : Nat) : Prop :=
  ∃ f rest, s.frames = f :: rest ∧ f.place = (method, depth)

variable {s} {s' : CallStack} {method : MethodId} {depth : Nat}

theorem at_push {symbol : Option SymbolId} {safe : Bool}
    (h : s.push symbol method depth safe = .ok s') : s'.At method depth := by
  unfold push at h
  split at h
  · cases h
    exact ⟨_, _, rfl, rfl⟩
  · split at h <;> cases h
    exact ⟨_, _, rfl, rfl⟩

/-- Looking up facts about blocks leaves a frame where it is. -/
theorem At.cacheBlocks {p : Program} (h : s.At method depth) (cached : s.cacheBlocks p = .ok s') :
    s'.At method depth := by
  obtain ⟨f, rest, frames, place⟩ := h
  unfold CallStack.cacheBlocks modifyCurrent at cached
  rw [frames] at cached
  cases cached
  exact ⟨_, rest, rfl, by rw [f.place_cacheBlocks, place]⟩

/-- The innermost frame can be popped, and it is recorded which one that is. -/
theorem At.popRecorded (h : s.At method depth) (j : Journal) (committed : Bool) :
    ∃ s', s.popRecorded j committed = .ok (s', j.record (.framePopped method depth committed)) := by
  obtain ⟨f, rest, frames, place⟩ := h
  cases place
  unfold CallStack.popRecorded commit pop
  rw [frames]
  cases committed with
  | false => exact ⟨_, by rw [if_neg Bool.false_ne_true]; simp only [pure_bind, frames]; rfl⟩
  | true => cases rest <;> exact ⟨_, rfl⟩

end CallStack

end Inlining
