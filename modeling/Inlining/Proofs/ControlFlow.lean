import Inlining.Proofs.Temporaries

/-!
# Where the bodies stand

A frame copies from its caller whether the call lies in a loop and whether it always runs, and puts the
block that it moves to on top. The caller does not move while the frame is there, so the copy stays right,
and what every frame knows is what the blocks of all frames from the outermost one up to it say. To tell
which block that is, every frame that was pushed is known by its `Activation`, and a move concerns the one
that was innermost then (`Activation.lastBlock?`). `Stand` is the invariant, `BodyStep` says what can happen
to it, and `loop_state_folds` reads it off after any operations. Facts about blocks are looked up once and
kept; the same invariant says that they are right.
-/

namespace Inlining

deriving instance DecidableEq for Activation

namespace StackEdit

open Edit

/-- Looks up the facts about a block of the innermost body, and keeps them with the frame. -/
def blockFacts (p : Program) (block : BlockId) : StackEdit BlockFacts := do
  let s ← get
  match s.frames with
  | [] => throw .stackUnderflow
  | frame :: rest =>
    match frame.cached? block with
    | some facts => return facts
    | none => do
      let facts := p.blockFacts frame.method block
      set { s with frames := { frame with blockCache := (block, facts) :: frame.blockCache } :: rest }
      return facts

/-- Looks up the facts about all blocks of the innermost body, one after the other. -/
def cacheBlocks (p : Program) : StackEdit Unit := do
  let s ← get
  match s.frames with
  | [] => throw .stackUnderflow
  | frame :: _ =>
    (List.range (p.blockCount frame.method)).forM fun i => do
      let _ ← blockFacts p ⟨i⟩

/-- Moves the innermost frame to a block of its body. -/
def moveTo (p : Program) (block : BlockId) : StackEdit Unit := do
  let facts ← blockFacts p block
  editFrame fun f => { f with inLoop := f.inheritedInLoop || facts.inLoop }
  editFrame fun f => { f with alwaysCalled := f.inheritedAlwaysCalled && facts.alwaysReached }

section Runs

variable (s : CallStack) (p : Program) (frame : Frame) (rest : List Frame)

theorem run_blockFacts_cons (block : BlockId) :
    (blockFacts p block).run { s with frames := frame :: rest } =
      (.ok (frame.blockFacts p block).1, { s with frames := (frame.blockFacts p block).2 :: rest }) := by
  change (match frame.cached? block with
    | some facts => pure facts
    | none => _ : StackEdit BlockFacts).run _ = _
  unfold Frame.blockFacts
  cases frame.cached? block <;> rfl

theorem run_blockFacts (block : BlockId) :
    (blockFacts p block).run s = outcome s (s.blockFacts p block) := by
  obtain ⟨size, earlier, frames, temps, blockTemps, autos⟩ := s
  cases frames with
  | nil => rfl
  | cons frame rest => exact run_blockFacts_cons ⟨size, earlier, [], temps, blockTemps, autos⟩ p frame rest block

theorem run_lookUps (blocks : List Nat) :
    (blocks.forM fun i => do let _ ← blockFacts p ⟨i⟩ : StackEdit Unit).run { s with frames := frame :: rest } =
      (.ok (), { s with
        frames := blocks.foldl (fun f i => (f.blockFacts p ⟨i⟩).2) frame :: rest }) := by
  induction blocks generalizing frame with
  | nil => rfl
  | cons i blocks ih =>
    change ((blockFacts p ⟨i⟩ >>= fun _ => pure ()) >>= fun _ => blocks.forM _ : StackEdit Unit).run _ = _
    rw [bind_assoc, run_bind_of_ok (run_blockFacts_cons s p frame rest ⟨i⟩)]
    exact ih _

theorem run_cacheBlocks :
    (cacheBlocks p).run s = outcome s ((s.cacheBlocks p).map fun s' => ((), s')) := by
  obtain ⟨size, earlier, frames, temps, blockTemps, autos⟩ := s
  cases frames with
  | nil => rfl
  | cons frame rest => exact run_lookUps ⟨size, earlier, [], temps, blockTemps, autos⟩ p frame rest _

theorem run_moveTo (block : BlockId) :
    (moveTo p block).run s = outcome s ((s.moveTo p block).map fun s' => ((), s')) := by
  obtain ⟨size, earlier, frames, temps, blockTemps, autos⟩ := s
  cases frames with
  | nil => rfl
  | cons frame rest =>
    exact run_bind_of_ok (run_blockFacts_cons ⟨size, earlier, [], temps, blockTemps, autos⟩ p frame rest block)

end Runs

end StackEdit

/-- An operation on the stack, or on the blocks of the innermost body. -/
inductive BodyOperation where
  | onStack (op : StackOperation)
  | blockFacts (block : BlockId)
  | cacheBlocks
  | moveTo (block : BlockId)

/-- Something that happened on the stack, or that the innermost frame moved to a block. -/
inductive BodyEvent where
  | onStack (event : StackEvent)
  | movedTo (block : BlockId)

def BodyEvent.onStack? : BodyEvent → Option StackEvent
  | onStack event => some event
  | movedTo _ => none

namespace BodyOperation

variable (p : Program)

/-- The operation as one step, with what happened. To look up facts is not to move. -/
def apply (s : CallStack) : BodyOperation → Except Fault (List BodyEvent × CallStack)
  | onStack op => (op.apply s).map fun r => ((op.events (.ok r.1)).map .onStack, r.2)
  | blockFacts block => (s.blockFacts p block).map fun r => ([], r.2)
  | cacheBlocks => (s.cacheBlocks p).map fun s' => ([], s')
  | moveTo block => (s.moveTo p block).map fun s' => ([.movedTo block], s')

/-- The operation as it is carried out in place. -/
def edit : BodyOperation → StackEdit (List BodyEvent)
  | onStack op => return (op.events (.ok (← op.edit))).map .onStack
  | blockFacts block => do let _ ← StackEdit.blockFacts p block; return []
  | cacheBlocks => do StackEdit.cacheBlocks p; return []
  | moveTo block => do StackEdit.moveTo p block; return [.movedTo block]

/-- Carried out in place, an operation ends as it does in one step. -/
theorem run_edit (s : CallStack) (op : BodyOperation) :
    (op.edit p).run s = Edit.outcome s (op.apply p s) := by
  cases op with
  | onStack op => exact Edit.run_answer (op.run_edit s) _
  | blockFacts block => exact Edit.run_answer (StackEdit.run_blockFacts s p block) fun _ => []
  | cacheBlocks => exact Edit.run_done (StackEdit.run_cacheBlocks s p) _
  | moveTo block => exact Edit.run_done (StackEdit.run_moveTo s p block) _

end BodyOperation

/-- Carries an operation out in place, and adds what happened to what had happened before. -/
def BodyOperation.carryOut (p : Program) (s : CallStack) (history : List BodyEvent) (op : BodyOperation) :
    CallStack × List BodyEvent :=
  match (op.edit p).run s with
  | (.ok events, s') => (s', events ++ history)
  | (.error _, s') => (s', history)

/-- The stack after operations, and what happened, the latest first. -/
def CallStack.afterBodies (p : Program) (s : CallStack) (ops : List BodyOperation) :
    CallStack × List BodyEvent :=
  ops.foldl (fun now op => op.carryOut p now.1 now.2) (s, [])

/-- The frames that are on the stack, the innermost first. -/
def standing (history : List BodyEvent) : List Activation :=
  opened (history.filterMap (·.onStack?))

/-- The block that a frame moved to last. -/
def Activation.lastBlock? (k : Activation) : List BodyEvent → Option BlockId
  | [] => none
  | .movedTo block :: past => if (standing past).head? = some k then some block else k.lastBlock? past
  | .onStack _ :: past => k.lastBlock? past

/-- Some of the frames stand at a block that is in a loop. -/
def inLoopAmong (p : Program) (history : List BodyEvent) (frames : List Activation) : Bool :=
  frames.any fun k => (k.lastBlock? history).any fun block => (p.blockFacts k.place.1 block).inLoop

/-- All blocks that the frames stand at are always reached. -/
def alwaysReachedAmong (p : Program) (history : List BodyEvent) (frames : List Activation) : Bool :=
  frames.all fun k => (k.lastBlock? history).all fun block => (p.blockFacts k.place.1 block).alwaysReached

section Activations

theorem time_lt_of_mem_opened {history : List StackEvent} {k : Activation} (h : k ∈ opened history) :
    k.time < history.length := by
  induction history with
  | nil => cases h
  | cons event past ih =>
    have earlier (h : k ∈ opened past) : k.time < (event :: past).length :=
      (ih h).trans (Nat.lt_succ_self _)
    cases event with
    | pushed method depth =>
      rcases List.mem_cons.1 h with rfl | h
      · exact Nat.lt_succ_self _
      · exact earlier h
    | popped frame => exact earlier (List.mem_of_mem_tail h)
    | _ => exact earlier h

/-- A frame was pushed later than those outside of it. -/
theorem opened_pairwise (history : List StackEvent) :
    (opened history).Pairwise fun inner outer => outer.time < inner.time := by
  induction history with
  | nil => exact .nil
  | cons event past ih =>
    cases event with
    | pushed method depth => exact List.pairwise_cons.2 ⟨fun k hk => time_lt_of_mem_opened hk, ih⟩
    | popped frame => exact ih.tail
    | _ => exact ih

theorem time_lt_of_mem_standing {history : List BodyEvent} {k : Activation} (h : k ∈ standing history) :
    k.time < (history.filterMap (·.onStack?)).length :=
  time_lt_of_mem_opened h

/-- A frame that is only pushed later has not moved. -/
theorem lastBlock?_eq_none {history : List BodyEvent} {k : Activation}
    (h : (history.filterMap (·.onStack?)).length ≤ k.time) : k.lastBlock? history = none := by
  induction history with
  | nil => rfl
  | cons event past ih =>
    cases event with
    | onStack event => exact ih ((Nat.le_succ _).trans h)
    | movedTo block =>
      have other : (standing past).head? ≠ some k := fun innermost => by
        have := time_lt_of_mem_standing (List.mem_of_mem_head? innermost)
        exact absurd h (Nat.not_le.2 this)
      rw [Activation.lastBlock?, if_neg other]
      exact ih h

/-- When the innermost frame moves, the others stay. -/
theorem lastBlock?_movedTo {history : List BodyEvent} (block : BlockId) {k : Activation}
    {outer : List Activation} (innermost : standing history = k :: outer) :
    k.lastBlock? (.movedTo block :: history) = some block ∧
      ∀ x ∈ outer, x.lastBlock? (.movedTo block :: history) = x.lastBlock? history := by
  have moved (x : Activation) : x.lastBlock? (.movedTo block :: history) =
      if some k = some x then some block else x.lastBlock? history := by
    rw [Activation.lastBlock?, innermost, List.head?_cons]
  refine ⟨(moved k).trans (if_pos rfl), fun x hx => (moved x).trans (if_neg fun same => ?_)⟩
  have later : x.time < k.time := by
    have := opened_pairwise (history.filterMap (·.onStack?))
    change (standing history).Pairwise _ at this
    rw [innermost] at this
    exact List.rel_of_pairwise_cons this hx
  obtain rfl := Option.some.inj same
  exact lt_irrefl _ later

theorem inLoopAmong_cons (p : Program) (history : List BodyEvent) (k : Activation)
    (outer : List Activation) : inLoopAmong p history (k :: outer) =
      ((k.lastBlock? history).any (fun block => (p.blockFacts k.place.1 block).inLoop) ||
        inLoopAmong p history outer) :=
  rfl

theorem alwaysReachedAmong_cons (p : Program) (history : List BodyEvent) (k : Activation)
    (outer : List Activation) : alwaysReachedAmong p history (k :: outer) =
      ((k.lastBlock? history).all (fun block => (p.blockFacts k.place.1 block).alwaysReached) &&
        alwaysReachedAmong p history outer) :=
  rfl

theorem inLoopAmong_congr {p : Program} {history history' : List BodyEvent} {frames : List Activation}
    (same : ∀ k ∈ frames, k.lastBlock? history' = k.lastBlock? history) :
    inLoopAmong p history' frames = inLoopAmong p history frames := by
  unfold inLoopAmong
  rw [Bool.eq_iff_iff, List.any_eq_true, List.any_eq_true]
  refine exists_congr fun k => and_congr_right fun hk => ?_
  rw [same k hk]

theorem alwaysReachedAmong_congr {p : Program} {history history' : List BodyEvent}
    {frames : List Activation} (same : ∀ k ∈ frames, k.lastBlock? history' = k.lastBlock? history) :
    alwaysReachedAmong p history' frames = alwaysReachedAmong p history frames := by
  unfold alwaysReachedAmong
  rw [Bool.eq_iff_iff, List.all_eq_true, List.all_eq_true]
  refine forall_congr' fun k => imp_congr_right fun hk => ?_
  rw [same k hk]

theorem inLoopAmong_iff {p : Program} {history : List BodyEvent} {frames : List Activation} :
    inLoopAmong p history frames = true ↔ ∃ k ∈ frames, ∃ block,
      k.lastBlock? history = some block ∧ (p.blockFacts k.place.1 block).inLoop = true := by
  simp only [inLoopAmong, List.any_eq_true, Option.any_eq_true]

theorem alwaysReachedAmong_iff {p : Program} {history : List BodyEvent} {frames : List Activation} :
    alwaysReachedAmong p history frames = true ↔ ∀ k ∈ frames, ∀ block,
      k.lastBlock? history = some block → (p.blockFacts k.place.1 block).alwaysReached = true := by
  simp only [alwaysReachedAmong, List.all_eq_true, Option.all_eq_true]

end Activations

namespace Frame

variable {p : Program} {f f' : Frame} {block : BlockId}

/-- What a frame knows about blocks is so. -/
def Informed (p : Program) (f : Frame) : Prop :=
  ∀ entry ∈ f.blockCache, entry.2 = p.blockFacts f.method entry.1

/-- The frame but for the temporaries and automatics in it. -/
def bare (f : Frame) : Frame := { f with autos := [], temps := [], blockTemps := [] }

/-- One frame is the other one, with more facts looked up. -/
inductive LooksUp (p : Program) (f : Frame) : Frame → Prop
  | mk (more : List (BlockId × BlockFacts)) :
    (∀ entry ∈ more, entry.2 = p.blockFacts f.method entry.1) →
    LooksUp p f { f with blockCache := more ++ f.blockCache }

theorem LooksUp.refl : LooksUp p f f := .mk [] (List.forall_mem_nil _)

theorem LooksUp.trans {g : Frame} (h : LooksUp p f g) (h' : LooksUp p g f') : LooksUp p f f' := by
  obtain ⟨more, right⟩ := h
  obtain ⟨later, right'⟩ := h'
  have := LooksUp.mk (f := f) (later ++ more) (List.forall_mem_append.2 ⟨right', right⟩)
  rwa [List.append_assoc] at this

theorem LooksUp.informed (h : LooksUp p f f') (informed : f.Informed p) : f'.Informed p := by
  obtain ⟨more, right⟩ := h
  exact List.forall_mem_append.2 ⟨right, informed⟩

theorem looksUp_blockFacts : LooksUp p f (f.blockFacts p block).2 := by
  unfold blockFacts
  split
  · exact .refl
  · exact .mk [(block, p.blockFacts f.method block)] (List.forall_mem_singleton.2 rfl)

theorem looksUp_cacheBlocks : LooksUp p f (f.cacheBlocks p) := by
  unfold cacheBlocks
  generalize List.range _ = blocks
  induction blocks generalizing f with
  | nil => exact .refl
  | cons i blocks ih => exact looksUp_blockFacts.trans ih

/-- Facts that are looked up are right, whether they were kept or not. -/
theorem Informed.blockFacts (informed : f.Informed p) :
    (f.blockFacts p block).1 = p.blockFacts f.method block := by
  unfold Frame.blockFacts
  split
  next facts kept =>
    obtain ⟨⟨b, facts'⟩, found, rfl⟩ := Option.map_eq_some_iff.1 kept
    obtain rfl : b = block := by simpa using List.find?_some found
    exact informed _ (List.mem_of_find?_eq_some found)
  · rfl

end Frame

/-- What can happen to the frames. A frame is pushed on top of its caller, or the innermost one is popped; or
symbols change hands; or the innermost frame looks up facts about its body, or moves to a block of it. -/
inductive BodyStep (p : Program) (s : CallStack) : List BodyEvent → CallStack → Prop
  | push {s' : CallStack} (symbol : Option SymbolId) (method : MethodId) (depth : Nat) (safe : Bool) :
    s'.frames = .enter symbol method depth safe s.maxCallSize s.current? :: s.frames →
    BodyStep p s [.onStack (.pushed method depth)] s'
  | pop {s' : CallStack} {f : Frame} (popped : Frame) :
    s.frames = f :: s'.frames → BodyStep p s [.onStack (.popped popped)] s'
  | handOver {s' : CallStack} (events : List StackEvent) :
    (∀ history, opened (events ++ history) = opened history) →
    s'.frames.map Frame.bare = s.frames.map Frame.bare → BodyStep p s (events.map .onStack) s'
  | lookUp {f f' : Frame} {outer : List Frame} :
    s.frames = f :: outer → f.LooksUp p f' → BodyStep p s [] { s with frames := f' :: outer }
  | moveTo {f : Frame} {outer : List Frame} (block : BlockId) :
    s.frames = f :: outer → BodyStep p s [.movedTo block] { s with frames := f.moveTo p block :: outer }

section Steps

variable {p : Program} {s s' : CallStack}

theorem CallStack.frames_of_push {symbol : Option SymbolId} {method : MethodId} {depth : Nat} {safe : Bool}
    (h : s.push symbol method depth safe = .ok s') :
    s'.frames = .enter symbol method depth safe s.maxCallSize s.current? :: s.frames := by
  unfold push at h
  split at h
  next outermost =>
    cases h
    rw [outermost]
  next caller current =>
    split at h <;> cases h
    rw [current]

/-- An operation on the symbols of the innermost frame leaves all frames but for their symbols. -/
theorem bodyStep_modifyCurrent {f : Frame → Frame} {event : StackEvent}
    (h : s.modifyCurrent f = .ok s') (same : ∀ frame, (f frame).bare = frame.bare)
    (keeps : ∀ history, opened (event :: history) = opened history) :
    BodyStep p s [.onStack event] s' := by
  obtain ⟨frame, outer, frames, rfl⟩ := CallStack.modifyCurrent_eq_ok_iff.1 h
  refine .handOver [event] keeps ?_
  rw [frames]
  exact congrArg (· :: outer.map Frame.bare) (same frame)

theorem bodyStep_onStack {op : StackOperation} {answer : StackAnswer}
    (h : op.apply s = .ok (answer, s')) : BodyStep p s ((op.events (.ok answer)).map .onStack) s' := by
  cases op with
  | push symbol method depth safe =>
    obtain ⟨_, pushed, same⟩ := map_eq_ok_iff.1 h
    cases same
    exact .push symbol method depth safe (CallStack.frames_of_push pushed)
  | pop =>
    obtain ⟨⟨f, _⟩, popped, same⟩ := map_eq_ok_iff.1 h
    cases same
    cases CallStack.step_pop popped with
    | pop frames => exact .pop _ frames
  | commit =>
    obtain ⟨_, committed, same⟩ := map_eq_ok_iff.1 h
    cases same
    refine .handOver [.committed] (fun _ => rfl) ?_
    cases CallStack.step_commit committed with
    | commitOutermost frames => rw [frames]; rfl
    | commitInner frames => rw [frames]; rfl
  | addTemp | addBlockTemp | addAuto =>
    obtain ⟨_, added, same⟩ := map_eq_ok_iff.1 h
    cases same
    exact bodyStep_modifyCurrent added (fun _ => rfl) fun _ => rfl
  | takeTemp =>
    cases h
    cases s.takeTemp.1 with
    | none => exact .handOver [] (fun _ => rfl) rfl
    | some temp => exact .handOver [.tempTaken temp] (fun _ => rfl) rfl

theorem bodyStep_of_apply {op : BodyOperation} {events : List BodyEvent}
    (h : op.apply p s = .ok (events, s')) : BodyStep p s events s' := by
  cases op with
  | onStack op =>
    obtain ⟨⟨answer, _⟩, applied, same⟩ := map_eq_ok_iff.1 h
    cases same
    exact bodyStep_onStack applied
  | blockFacts block =>
    obtain ⟨⟨facts, _⟩, found, same⟩ := map_eq_ok_iff.1 h
    cases same
    unfold CallStack.blockFacts at found
    split at found <;> cases found
    next frames => exact .lookUp frames Frame.looksUp_blockFacts
  | cacheBlocks =>
    obtain ⟨_, found, same⟩ := map_eq_ok_iff.1 h
    cases same
    obtain ⟨frame, outer, frames, rfl⟩ := CallStack.modifyCurrent_eq_ok_iff.1 found
    exact .lookUp frames Frame.looksUp_cacheBlocks
  | moveTo block =>
    obtain ⟨_, moved, same⟩ := map_eq_ok_iff.1 h
    cases same
    obtain ⟨frame, outer, frames, rfl⟩ := CallStack.modifyCurrent_eq_ok_iff.1 moved
    exact .moveTo block frames

end Steps

/-- An operation is a step, or it failed and nothing happened. -/
theorem BodyOperation.carryOut_cases (p : Program) (op : BodyOperation) (s : CallStack)
    (history : List BodyEvent) :
    (∃ events s', BodyStep p s events s' ∧ op.carryOut p s history = (s', events ++ history)) ∨
      op.carryOut p s history = (s, history) := by
  unfold carryOut
  rw [run_edit]
  cases applied : op.apply p s with
  | ok r => exact .inl ⟨r.1, r.2, bodyStep_of_apply applied, rfl⟩
  | error e => exact .inr rfl

/-- A frame stands where its own blocks and those of the frames outside of it say. What it copied from its
caller is what the frames outside of it say. -/
structure Frame.Stands (p : Program) (history : List BodyEvent) (f : Frame) (k : Activation)
    (outer : List Activation) : Prop where
  place : f.place = k.place
  inheritedInLoop : f.inheritedInLoop = inLoopAmong p history outer
  inheritedAlwaysCalled : f.inheritedAlwaysCalled = alwaysReachedAmong p history outer
  inLoop : f.inLoop = inLoopAmong p history (k :: outer)
  alwaysCalled : f.alwaysCalled = alwaysReachedAmong p history (k :: outer)
  informed : f.Informed p

/-- All frames stand where the blocks say. -/
inductive Stand (p : Program) (history : List BodyEvent) : List Frame → List Activation → Prop
  | nil : Stand p history [] []
  | cons {f : Frame} {frames : List Frame} {k : Activation} {outer : List Activation} :
    f.Stands p history k outer → Stand p history frames outer → Stand p history (f :: frames) (k :: outer)

section Stands

variable {p : Program} {history history' : List BodyEvent} {f f' : Frame} {k : Activation}
  {outer : List Activation}

/-- Temporaries and automatics have no part in it. -/
theorem Frame.stands_bare : f.bare.Stands p history k outer ↔ f.Stands p history k outer :=
  ⟨fun h => ⟨h.place, h.inheritedInLoop, h.inheritedAlwaysCalled, h.inLoop, h.alwaysCalled, h.informed⟩,
    fun h => ⟨h.place, h.inheritedInLoop, h.inheritedAlwaysCalled, h.inLoop, h.alwaysCalled, h.informed⟩⟩

theorem Frame.Stands.of_bare (h : f.Stands p history k outer) (same : f'.bare = f.bare) :
    f'.Stands p history k outer := by
  rw [← stands_bare, same]
  exact stands_bare.2 h

/-- It depends only on which blocks the frames moved to last. -/
theorem Frame.Stands.congr (h : f.Stands p history k outer)
    (same : ∀ x ∈ k :: outer, x.lastBlock? history' = x.lastBlock? history) :
    f.Stands p history' k outer := by
  have outside (x : Activation) (hx : x ∈ outer) := same x (List.mem_cons_of_mem _ hx)
  refine ⟨h.place, ?_, ?_, ?_, ?_, h.informed⟩
  · rw [inLoopAmong_congr outside, h.inheritedInLoop]
  · rw [alwaysReachedAmong_congr outside, h.inheritedAlwaysCalled]
  · rw [inLoopAmong_congr same, h.inLoop]
  · rw [alwaysReachedAmong_congr same, h.alwaysCalled]

theorem Frame.Stands.lookUp (h : f.Stands p history k outer) (found : f.LooksUp p f') :
    f'.Stands p history k outer := by
  have informed := found.informed h.informed
  obtain ⟨more, right⟩ := found
  exact ⟨h.place, h.inheritedInLoop, h.inheritedAlwaysCalled, h.inLoop, h.alwaysCalled, informed⟩

/-- A frame that moves forgets where it was, and keeps what it copied from its caller. -/
theorem Frame.Stands.moveTo (h : f.Stands p history k outer) {block : BlockId}
    (innermost : standing history = k :: outer) :
    (f.moveTo p block).Stands p (.movedTo block :: history) k outer := by
  obtain ⟨moved, others⟩ := lastBlock?_movedTo block innermost
  have looked : (f.blockFacts p block).2.Stands p history k outer := h.lookUp looksUp_blockFacts
  have inLoop := looked.inheritedInLoop.trans (inLoopAmong_congr others).symm
  have alwaysReached := looked.inheritedAlwaysCalled.trans (alwaysReachedAmong_congr others).symm
  have facts : (f.blockFacts p block).1 = p.blockFacts k.place.1 block := by
    rw [h.informed.blockFacts, ← h.place]
    rfl
  refine ⟨looked.place, inLoop, alwaysReached, ?_, ?_, looked.informed⟩
  · show ((f.blockFacts p block).2.inheritedInLoop || (f.blockFacts p block).1.inLoop) = _
    rw [inLoopAmong_cons, moved, inLoop, facts, Bool.or_comm]
    rfl
  · show ((f.blockFacts p block).2.inheritedAlwaysCalled && (f.blockFacts p block).1.alwaysReached) = _
    rw [alwaysReachedAmong_cons, moved, alwaysReached, facts, Bool.and_comm]
    rfl

theorem Stand.congr {frames : List Frame} {acts : List Activation} (h : Stand p history frames acts)
    (same : ∀ k ∈ acts, k.lastBlock? history' = k.lastBlock? history) : Stand p history' frames acts := by
  induction h with
  | nil => exact .nil
  | cons first _ ih =>
    obtain ⟨_, outside⟩ := List.forall_mem_cons.1 same
    exact .cons (first.congr same) (ih outside)

theorem Stand.of_bare {frames frames' : List Frame} {acts : List Activation}
    (h : Stand p history frames acts) (same : frames'.map Frame.bare = frames.map Frame.bare) :
    Stand p history frames' acts := by
  induction h generalizing frames' with
  | nil =>
    obtain rfl := List.map_eq_nil_iff.1 same
    exact .nil
  | cons first _ ih =>
    obtain ⟨f', frames', rfl, innermost, outside⟩ := List.map_eq_cons_iff.1 same
    exact .cons (first.of_bare innermost) (ih outside)

/-- A frame that is pushed copies what the innermost one knows, and has not moved yet. -/
theorem Stand.enter {frames : List Frame} {symbol : Option SymbolId} {method : MethodId} {depth : Nat}
    {safe : Bool} {size : Size} (h : Stand p history frames outer) (place : k.place = (method, depth))
    (fresh : k.lastBlock? history = none) :
    Stand p history (.enter symbol method depth safe size frames.head? :: frames) (k :: outer) := by
  have inLoop : frames.head?.elim false (·.inLoop) = inLoopAmong p history outer := by
    cases h with
    | nil => rfl
    | cons caller _ => exact caller.inLoop
  have alwaysCalled : frames.head?.elim true (·.alwaysCalled) = alwaysReachedAmong p history outer := by
    cases h with
    | nil => rfl
    | cons caller _ => exact caller.alwaysCalled
  refine .cons ⟨place.symm, inLoop, alwaysCalled, ?_, ?_, List.forall_mem_nil _⟩ h
  · rw [inLoopAmong_cons, fresh, ← inLoop]
    rfl
  · rw [alwaysReachedAmong_cons, fresh, ← alwaysCalled]
    rfl

/-- What is so of the frame at a place in the stack, and those outside of it. -/
theorem Stand.getElem? {frames : List Frame} {acts : List Activation} (h : Stand p history frames acts)
    {i : Nat} (at_i : frames[i]? = some f) :
    ∃ k outer, acts.drop i = k :: outer ∧ f.Stands p history k outer := by
  induction h generalizing i with
  | nil => cases at_i
  | cons first _ ih =>
    cases i with
    | zero =>
      cases at_i
      exact ⟨_, _, rfl, first⟩
    | succ i => exact ih at_i

theorem Stand.places {frames : List Frame} {acts : List Activation} (h : Stand p history frames acts) :
    frames.map Frame.place = acts.map (·.place) := by
  induction h with
  | nil => rfl
  | cons first _ ih => exact congrArg₂ _ first.place ih

end Stands

section Histories

variable {history : List BodyEvent}

theorem standing_onStack (events : List StackEvent) (history : List BodyEvent) :
    standing (events.map .onStack ++ history) = opened (events ++ history.filterMap (·.onStack?)) := by
  unfold standing
  rw [List.filterMap_append, List.filterMap_map]
  exact congrArg (fun past => opened (past ++ _)) List.filterMap_some

/-- Where the frames moved to does not change when something else happens. -/
theorem lastBlock?_onStack (k : Activation) (events : List StackEvent) (history : List BodyEvent) :
    k.lastBlock? (events.map .onStack ++ history) = k.lastBlock? history := by
  induction events with
  | nil => rfl
  | cons event events ih => exact ih

end Histories

/-- Whatever happens, the frames stand where the blocks say. -/
theorem Stand.step {p : Program} {s s' : CallStack} {events history : List BodyEvent}
    (h : Stand p history s.frames (standing history)) (step : BodyStep p s events s') :
    Stand p (events ++ history) s'.frames (standing (events ++ history)) := by
  cases step with
  | push symbol method depth safe frames =>
    rw [frames]
    refine Stand.enter (h.congr fun _ _ => rfl) rfl ?_
    exact (lastBlock?_onStack _ [_] history).trans (lastBlock?_eq_none (Nat.le_refl _))
  | pop popped frames =>
    rw [frames] at h
    change Stand _ _ _ (standing history).tail
    generalize standing history = acts at h
    cases h with
    | cons _ outer => exact outer.congr fun _ _ => rfl
  | handOver events keeps same =>
    rw [standing_onStack, keeps]
    exact (h.of_bare same).congr fun k _ => lastBlock?_onStack k events history
  | lookUp frames found =>
    rw [frames] at h
    change Stand _ _ _ (standing history)
    generalize standing history = acts at h
    cases h with
    | cons first outer => exact .cons (first.lookUp found) outer
  | moveTo block frames =>
    rw [frames] at h
    change Stand _ _ _ (standing history)
    generalize innermost : standing history = acts at h
    cases h with
    | cons first outer =>
      exact .cons (first.moveTo innermost) (outer.congr (lastBlock?_movedTo block innermost).2)

namespace CallStack

/-- What every step maintains, given what happened until then, is so after any operations. -/
theorem afterBodies_invariant {p : Program} {P : CallStack → List BodyEvent → Prop} {s : CallStack}
    (start : P s [])
    (step : ∀ s history events s', P s history → BodyStep p s events s' → P s' (events ++ history))
    (ops : List BodyOperation) : P (s.afterBodies p ops).1 (s.afterBodies p ops).2 := by
  induction ops using List.reverseRecOn with
  | nil => exact start
  | append_singleton ops op ih =>
    rw [afterBodies, List.foldl_append]
    change P (op.carryOut p (s.afterBodies p ops).1 (s.afterBodies p ops).2).1
      (op.carryOut p (s.afterBodies p ops).1 (s.afterBodies p ops).2).2
    rcases op.carryOut_cases p (s.afterBodies p ops).1 (s.afterBodies p ops).2 with
      ⟨events, s', happened, now⟩ | same
    · rw [now]
      exact step _ _ _ _ ih happened
    · rw [same]
      exact ih

/-- **Loop and reachability state is the fold over the whole stack.** After any operations on a new stack,
those that failed included, the frames are the ones that were pushed and are not popped. A frame is in a
loop just if one of the frames from the outermost one up to it moved last to a block that is in a loop. It is
always called just if all of them that moved did so last to a block that is always reached. What is kept of a
block are the facts about this block of the frame's own method. -/
theorem loop_state_folds (p : Program) (maxCallSize : Size) (previouslyInlined : List InlinedRecord)
    (ops : List BodyOperation) :
    let (s, history) := (new maxCallSize previouslyInlined).afterBodies p ops
    s.frames.map Frame.place = (standing history).map (·.place) ∧
    ∀ i f, s.frames[i]? = some f →
      (f.inLoop = true ↔ ∃ k ∈ (standing history).drop i, ∃ block,
        k.lastBlock? history = some block ∧ (p.blockFacts k.place.1 block).inLoop = true) ∧
      (f.alwaysCalled = true ↔ ∀ k ∈ (standing history).drop i, ∀ block,
        k.lastBlock? history = some block → (p.blockFacts k.place.1 block).alwaysReached = true) ∧
      ∀ entry ∈ f.blockCache, entry.2 = p.blockFacts f.method entry.1 := by
  have stand := afterBodies_invariant (p := p) (s := new maxCallSize previouslyInlined)
    (P := fun s history => Stand p history s.frames (standing history)) .nil
    (fun _ _ _ _ h step => h.step step) ops
  generalize (new maxCallSize previouslyInlined).afterBodies p ops = now at stand
  obtain ⟨s, history⟩ := now
  refine ⟨stand.places, fun i f at_i => ?_⟩
  obtain ⟨k, outer, upTo, stands⟩ := stand.getElem? at_i
  rw [upTo, stands.inLoop, stands.alwaysCalled]
  exact ⟨inLoopAmong_iff, alwaysReachedAmong_iff, stands.informed⟩

/-- A method sorts in a loop, which may not be reached, and compares there. -/
def sorting : Program where
  classes := [{ id := ⟨0⟩, name := "Sorter" }]
  methods := [
    { id := ⟨0⟩, name := "sort", declaringClass := ⟨0⟩, kind := .static
      blocks := [{ alwaysReached := true }, { inLoop := true }] },
    { id := ⟨1⟩, name := "compare", declaringClass := ⟨0⟩, kind := .static
      blocks := [{ alwaysReached := true }] }]
  accepted := by decide +kernel

/-- The comparison is explored from inside the loop. -/
def comparing : List BodyOperation :=
  [.onStack (.push none ⟨0⟩ 0 true), .cacheBlocks, .moveTo ⟨1⟩, .onStack (.push none ⟨1⟩ 1 true), .moveTo ⟨0⟩]

/-- The comparison is in the loop of its caller. Once it is popped, and the caller moves out of the loop,
nothing is left of that. -/
theorem loop_state_folds_sorting :
    let inside := (new 0 []).afterBodies sorting comparing
    let outside := (new 0 []).afterBodies sorting (comparing ++ [.onStack .pop, .moveTo ⟨0⟩])
    (∃ f : Frame, inside.1.frames[0]? = some f ∧ f.method = ⟨1⟩ ∧ f.inLoop = true) ∧
      ∃ f : Frame, outside.1.frames[0]? = some f ∧ f.method = ⟨0⟩ ∧ f.alwaysCalled = true := by
  intro inside outside
  obtain ⟨-, frames⟩ := loop_state_folds sorting 0 [] comparing
  obtain ⟨-, frames'⟩ := loop_state_folds sorting 0 [] (comparing ++ [.onStack .pop, .moveTo ⟨0⟩])
  refine ⟨⟨_, rfl, by decide +kernel, (frames 0 _ rfl).1.2 ?_⟩, _, rfl, by decide +kernel,
    (frames' 0 _ rfl).2.1.2 ?_⟩
  · exact ⟨⟨0, ⟨0⟩, 0⟩, by decide +kernel, ⟨1⟩, by decide +kernel, by decide +kernel⟩
  · have back : ∀ k ∈ standing outside.2, k.lastBlock? outside.2 = some ⟨0⟩ ∧
        (sorting.blockFacts k.place.1 ⟨0⟩).alwaysReached = true := by decide +kernel
    intro k hk block moved
    obtain ⟨moved', reached⟩ := back k hk
    obtain rfl := Option.some.inj (moved.symm.trans moved')
    exact reached

end CallStack

end Inlining
