import Inlining.CallStack
import Inlining.Proofs.Editing

/-!
# No temporary is lost

Temporaries and automatics that a body brings in move with its frame: a commit hands them to the caller, or
to the compiled method, and a pop returns temporaries to their pools. The operations are given as they are
carried out in place too (`StackOperation.run_edit`). `CallStack.Step` says what can happen on the stack;
what every step maintains holds after any operations (`CallStack.after_invariant`). One such law counts the
temporaries (`Balanced`). The other one (`Attributed`) tells of every automatic when it was added, and how
it came to where it is: `Addition.Comes` follows it from frame to frame by the commits that handed it up.
`symbols_conserved` puts them together.
-/

namespace Inlining

/-- An edit of the stack of bodies. -/
abbrev StackEdit := Edit CallStack

namespace StackEdit

open Edit

/-- Takes the innermost frame off the stack. -/
def takeFrame : StackEdit Frame := do
  let s ← get
  match s.frames with
  | [] => throw .stackUnderflow
  | frame :: rest => do
    set { s with frames := rest }
    return frame

def putFrame (frame : Frame) : StackEdit Unit :=
  modify fun s => { s with frames := frame :: s.frames }

/-- Changes the innermost frame, if there is one. -/
def editFrame (f : Frame → Frame) : StackEdit Unit := do
  let s ← get
  match s.frames with
  | [] => throw .stackUnderflow
  | frame :: rest => set { s with frames := f frame :: rest }

def push (symbol : Option SymbolId) (method : MethodId) (depth : Nat) (safe : Bool) :
    StackEdit Unit := do
  let s ← get
  if let some caller := s.current? then
    if depth ≤ caller.depth then
      throw (.nonIncreasingDepth method depth caller.depth)
  putFrame (.enter symbol method depth safe s.maxCallSize s.current?)

/-- The frame is off the stack while its caller gets what it hands over. -/
def commit : StackEdit Unit := do
  let frame ← takeFrame
  modify (·.releaseBlockTemps frame.blockTemps)
  let s ← get
  match s.frames with
  | [] => do
    modify fun s => { s with committedAutos := s.committedAutos ++ frame.autos }
    modify (·.releaseTemps frame.temps)
  | _ :: _ => do
    editFrame fun caller => { caller with autos := caller.autos ++ frame.autos }
    editFrame fun caller => { caller with temps := caller.temps ++ frame.temps }
  putFrame { frame with autos := [], temps := [], blockTemps := [] }

def pop : StackEdit Frame := do
  let frame ← takeFrame
  modify (·.releaseTemps frame.temps)
  modify (·.releaseBlockTemps frame.blockTemps)
  return { frame with temps := [], blockTemps := [] }

def addAuto (auto : SymbolId) : StackEdit Unit :=
  editFrame fun f => { f with autos := f.autos ++ [auto] }

def addTemp (temp : SymbolId) : StackEdit Unit :=
  editFrame fun f => { f with temps := f.temps ++ [temp] }

def addBlockTemp (temp : SymbolId) : StackEdit Unit :=
  editFrame fun f => { f with blockTemps := f.blockTemps ++ [temp] }

def takeTemp : StackEdit (Option SymbolId) := do
  let s ← get
  set s.takeTemp.2
  return s.takeTemp.1

section Runs

variable (s : CallStack)

theorem run_editFrame (f : Frame → Frame) :
    (editFrame f).run s = outcome s ((s.modifyCurrent f).map fun s' => ((), s')) := by
  unfold editFrame CallStack.modifyCurrent
  change (match s.frames with
    | [] => throw _
    | frame :: rest => _ : StackEdit Unit).run s = _
  cases s.frames <;> rfl

theorem run_push (symbol : Option SymbolId) (method : MethodId) (depth : Nat) (safe : Bool) :
    (push symbol method depth safe).run s =
      outcome s ((s.push symbol method depth safe).map fun s' => ((), s')) := by
  obtain ⟨size, earlier, frames, temps, blockTemps, autos⟩ := s
  cases frames with
  | nil => rfl
  | cons caller rest =>
    change (if depth ≤ caller.depth then _ else _ : StackEdit Unit).run _ =
      outcome _ ((if depth ≤ caller.depth then _ else _ : Except Fault CallStack).map _)
    split <;> rfl

theorem run_commit : commit.run s = outcome s (s.commit.map fun s' => ((), s')) := by
  obtain ⟨size, earlier, frames, temps, blockTemps, autos⟩ := s
  match frames with
  | [] | [_] | _ :: _ :: _ => rfl

theorem run_pop : pop.run s = outcome s s.pop := by
  obtain ⟨size, earlier, frames, temps, blockTemps, autos⟩ := s
  cases frames <;> rfl

theorem run_takeTemp : takeTemp.run s = outcome s (.ok s.takeTemp) := rfl

end Runs

end StackEdit

/-- An operation on the stack of bodies. -/
inductive StackOperation where
  | push (symbol : Option SymbolId) (method : MethodId) (depth : Nat) (safe : Bool)
  | pop
  | commit
  | addTemp (temp : SymbolId)
  | addBlockTemp (temp : SymbolId)
  | addAuto (auto : SymbolId)
  | takeTemp

/-- What an operation answers. -/
inductive StackAnswer where
  | done
  | popped (frame : Frame)
  | taken (temp? : Option SymbolId)

/-- Something that happened on the stack. -/
inductive StackEvent where
  | pushed (method : MethodId) (depth : Nat)
  | popped (frame : Frame)
  | committed
  | tempAdded (temp : SymbolId)
  | blockTempAdded (temp : SymbolId)
  | autoAdded (auto : SymbolId)
  | tempTaken (temp : SymbolId)

namespace StackOperation

/-- The operation as one step. -/
def apply (s : CallStack) : StackOperation → Except Fault (StackAnswer × CallStack)
  | push symbol method depth safe => (s.push symbol method depth safe).map fun s' => (.done, s')
  | pop => s.pop.map fun r => (.popped r.1, r.2)
  | commit => s.commit.map fun s' => (.done, s')
  | addTemp temp => (s.addTemp temp).map fun s' => (.done, s')
  | addBlockTemp temp => (s.addBlockTemp temp).map fun s' => (.done, s')
  | addAuto auto => (s.addAuto auto).map fun s' => (.done, s')
  | takeTemp => .ok (.taken s.takeTemp.1, s.takeTemp.2)

/-- The operation as it is carried out in place. -/
def edit : StackOperation → StackEdit StackAnswer
  | push symbol method depth safe => do StackEdit.push symbol method depth safe; return .done
  | pop => return .popped (← StackEdit.pop)
  | commit => do StackEdit.commit; return .done
  | addTemp temp => do StackEdit.addTemp temp; return .done
  | addBlockTemp temp => do StackEdit.addBlockTemp temp; return .done
  | addAuto auto => do StackEdit.addAuto auto; return .done
  | takeTemp => return .taken (← StackEdit.takeTemp)

/-- Carried out in place, an operation ends as it does in one step. Where it fails, nothing was edited. -/
theorem run_edit (s : CallStack) (op : StackOperation) : op.edit.run s = Edit.outcome s (op.apply s) := by
  cases op with
  | push => exact Edit.run_done (StackEdit.run_push ..) _
  | pop => exact Edit.run_answer (StackEdit.run_pop s) _
  | commit => exact Edit.run_done (StackEdit.run_commit s) _
  | addTemp | addBlockTemp | addAuto => exact Edit.run_done (StackEdit.run_editFrame s _) _
  | takeTemp => exact Edit.run_answer (StackEdit.run_takeTemp s) _

/-- What happened, given the answer. Nothing did where the operation failed, or found no temporary. -/
def events : StackOperation → Except Fault StackAnswer → List StackEvent
  | push _ method depth _, .ok _ => [.pushed method depth]
  | pop, .ok (.popped frame) => [.popped frame]
  | commit, .ok _ => [.committed]
  | addTemp temp, .ok _ => [.tempAdded temp]
  | addBlockTemp temp, .ok _ => [.blockTempAdded temp]
  | addAuto auto, .ok _ => [.autoAdded auto]
  | takeTemp, .ok (.taken (some temp)) => [.tempTaken temp]
  | _, _ => []

end StackOperation

namespace CallStack

variable {s s' : CallStack}

/-- What happens on the stack, and what it does to the frames and the pools. -/
inductive Step (s : CallStack) : StackEvent → CallStack → Prop
  | push {f : Frame} :
    f.autos = [] → f.temps = [] → f.blockTemps = [] →
    (∀ caller ∈ s.frames.head?, caller.depth < f.depth) →
    Step s (.pushed f.method f.depth) { s with frames := f :: s.frames }
  | pop {f : Frame} {outer : List Frame} :
    s.frames = f :: outer →
    Step s (.popped { f with temps := [], blockTemps := [] }) { s with
      frames := outer
      availableTemps := s.availableTemps ++ f.temps
      availableBlockTemps := s.availableBlockTemps ++ f.blockTemps }
  | commitOutermost {f : Frame} :
    s.frames = [f] →
    Step s .committed { s with
      frames := [{ f with autos := [], temps := [], blockTemps := [] }]
      committedAutos := s.committedAutos ++ f.autos
      availableTemps := s.availableTemps ++ f.temps
      availableBlockTemps := s.availableBlockTemps ++ f.blockTemps }
  | commitInner {f caller : Frame} {outer : List Frame} :
    s.frames = f :: caller :: outer →
    Step s .committed { s with
      frames := { f with autos := [], temps := [], blockTemps := [] } ::
        { caller with autos := caller.autos ++ f.autos, temps := caller.temps ++ f.temps } :: outer
      availableBlockTemps := s.availableBlockTemps ++ f.blockTemps }
  | addTemp {f : Frame} {outer : List Frame} (temp : SymbolId) :
    s.frames = f :: outer →
    Step s (.tempAdded temp) { s with frames := { f with temps := f.temps ++ [temp] } :: outer }
  | addBlockTemp {f : Frame} {outer : List Frame} (temp : SymbolId) :
    s.frames = f :: outer →
    Step s (.blockTempAdded temp)
      { s with frames := { f with blockTemps := f.blockTemps ++ [temp] } :: outer }
  | addAuto {f : Frame} {outer : List Frame} (auto : SymbolId) :
    s.frames = f :: outer →
    Step s (.autoAdded auto) { s with frames := { f with autos := f.autos ++ [auto] } :: outer }
  | takeTemp {temps : List SymbolId} {temp : SymbolId} :
    s.availableTemps = temps ++ [temp] →
    Step s (.tempTaken temp) { s with availableTemps := temps }

theorem modifyCurrent_eq_ok_iff {f : Frame → Frame} : s.modifyCurrent f = .ok s' ↔
    ∃ frame outer, s.frames = frame :: outer ∧ s' = { s with frames := f frame :: outer } := by
  unfold modifyCurrent
  cases s.frames with
  | nil => simp
  | cons frame outer => simp [eq_comm]

theorem step_push {symbol : Option SymbolId} {method : MethodId} {depth : Nat} {safe : Bool}
    (h : s.push symbol method depth safe = .ok s') : s.Step (.pushed method depth) s' := by
  let f : Frame := .enter symbol method depth safe s.maxCallSize s.current?
  have pushed (deeper : ∀ caller ∈ s.frames.head?, caller.depth < depth) :
      s.Step (.pushed f.method f.depth) { s with frames := f :: s.frames } :=
    .push rfl rfl rfl deeper
  unfold push at h
  split at h
  next outermost =>
    cases h
    exact pushed fun caller hc => absurd (outermost.symm.trans hc) nofun
  next caller current =>
    split at h
    · cases h
    next deeper =>
      cases h
      refine pushed fun caller' hc => ?_
      obtain rfl := Option.some.inj (current.symm.trans hc)
      exact Nat.not_le.1 deeper

theorem step_pop {f : Frame} (h : s.pop = .ok (f, s')) : s.Step (.popped f) s' := by
  unfold pop at h
  split at h
  · cases h
  next frames =>
    cases h
    exact .pop frames

theorem step_commit (h : s.commit = .ok s') : s.Step .committed s' := by
  unfold commit at h
  split at h
  · cases h
  next frames =>
    split at h <;> cases h
    · exact .commitOutermost frames
    · exact .commitInner frames

theorem step_takeTemp {temp : SymbolId} (h : s.takeTemp.1 = some temp) :
    s.Step (.tempTaken temp) s.takeTemp.2 := by
  have last := List.dropLast_append_getLast? temp h
  exact .takeTemp last.symm

end CallStack

namespace StackOperation

variable {s : CallStack} {op : StackOperation}

/-- An operation that fails leaves no trace. -/
theorem step_of_apply {α : Type} {result : Except Fault α} {f : α → StackAnswer × CallStack}
    (same : op.apply s = result.map f)
    (step : ∀ a, result = .ok a → ∃ event, op.events (.ok (f a).1) = [event] ∧ s.Step event (f a).2) :
    (∃ event, op.events (op.edit.run s).1 = [event] ∧ s.Step event (op.edit.run s).2) ∨
      op.events (op.edit.run s).1 = [] ∧ (op.edit.run s).2 = s := by
  rw [run_edit, same]
  cases h : result with
  | ok a => exact .inl (step a h)
  | error e => exact .inr ⟨by cases op <;> rfl, rfl⟩

/-- An operation is a step, or nothing happened. -/
theorem step_edit (s : CallStack) (op : StackOperation) :
    (∃ event, op.events (op.edit.run s).1 = [event] ∧ s.Step event (op.edit.run s).2) ∨
      op.events (op.edit.run s).1 = [] ∧ (op.edit.run s).2 = s := by
  cases op with
  | push => exact step_of_apply rfl fun _ h => ⟨_, rfl, CallStack.step_push h⟩
  | pop => exact step_of_apply rfl fun _ h => ⟨_, rfl, CallStack.step_pop h⟩
  | commit => exact step_of_apply rfl fun _ h => ⟨_, rfl, CallStack.step_commit h⟩
  | addTemp temp =>
    refine step_of_apply rfl fun s' h => ⟨_, rfl, ?_⟩
    obtain ⟨frame, outer, frames, rfl⟩ := CallStack.modifyCurrent_eq_ok_iff.1 h
    exact .addTemp temp frames
  | addBlockTemp temp =>
    refine step_of_apply rfl fun s' h => ⟨_, rfl, ?_⟩
    obtain ⟨frame, outer, frames, rfl⟩ := CallStack.modifyCurrent_eq_ok_iff.1 h
    exact .addBlockTemp temp frames
  | addAuto auto =>
    refine step_of_apply rfl fun s' h => ⟨_, rfl, ?_⟩
    obtain ⟨frame, outer, frames, rfl⟩ := CallStack.modifyCurrent_eq_ok_iff.1 h
    exact .addAuto auto frames
  | takeTemp =>
    rw [run_edit]
    change (∃ event, events takeTemp (.ok (.taken s.takeTemp.1)) = _ ∧ s.Step event s.takeTemp.2) ∨
      events takeTemp (.ok (.taken s.takeTemp.1)) = _ ∧ s.takeTemp.2 = s
    cases h : s.takeTemp.1 with
    | some temp => exact .inl ⟨_, rfl, CallStack.step_takeTemp h⟩
    | none =>
      have empty : s.availableTemps = [] := List.getLast?_eq_none_iff.1 h
      have same : s.availableTemps.dropLast = s.availableTemps := by rw [empty, List.dropLast_nil]
      exact .inr ⟨rfl, congrArg (fun temps => { s with availableTemps := temps }) same⟩

end StackOperation

/-- The stack after operations, and what happened on it, the latest first. -/
def CallStack.after (s : CallStack) (ops : List StackOperation) : CallStack × List StackEvent :=
  ops.foldl (fun (s, history) op =>
    let (answer, s') := op.edit.run s
    (s', op.events answer ++ history)) (s, [])

/-- What a step from any stack to the next maintains, given what happened until then, is so after any
operations. -/
theorem CallStack.after_invariant {P : CallStack → List StackEvent → Prop} {s : CallStack}
    (start : P s []) (step : ∀ s history event s', P s history → s.Step event s' → P s' (event :: history))
    (ops : List StackOperation) : P (s.after ops).1 (s.after ops).2 := by
  induction ops using List.reverseRecOn with
  | nil => exact start
  | append_singleton ops op ih =>
    rw [after, List.foldl_append]
    change P (op.edit.run (s.after ops).1).2
      (op.events (op.edit.run (s.after ops).1).1 ++ (s.after ops).2)
    rcases op.step_edit (s.after ops).1 with ⟨event, happened, step'⟩ | ⟨nothing, same⟩
    · rw [happened]
      exact step _ _ _ _ ih step'
    · rw [nothing, same]
      exact ih

namespace StackEvent

def temp? : StackEvent → Option SymbolId
  | tempAdded temp => some temp
  | _ => none

def taken? : StackEvent → Option SymbolId
  | tempTaken temp => some temp
  | _ => none

def blockTemp? : StackEvent → Option SymbolId
  | blockTempAdded temp => some temp
  | _ => none

def auto? : StackEvent → Option SymbolId
  | autoAdded auto => some auto
  | _ => none

def frame? : StackEvent → Option Frame
  | popped frame => some frame
  | _ => none

end StackEvent

namespace CallStack

variable {s s' : CallStack} {history : List StackEvent} {event : StackEvent}

/-- Every temporary that was added is where it belongs, once, and depths grow inwards. -/
structure Balanced (s : CallStack) (history : List StackEvent) : Prop where
  temps : (history.filterMap (·.temp?)).Perm
    (s.frames.flatMap (·.temps) ++ s.availableTemps ++ history.filterMap (·.taken?))
  blockTemps : (history.filterMap (·.blockTemp?)).Perm
    (s.frames.flatMap (·.blockTemps) ++ s.availableBlockTemps)
  depths : (s.frames.map (·.depth)).Pairwise (· > ·)

theorem Balanced.step (h : s.Balanced history) (step : s.Step event s') :
    s'.Balanced (event :: history) where
  temps := by
    refine List.perm_iff_count.2 fun t => ?_
    have before := h.temps.count_eq t
    cases step with
    | push _ none => simpa [StackEvent.temp?, StackEvent.taken?, none] using before
    | takeTemp available =>
      rw [available] at before
      simp [StackEvent.temp?, StackEvent.taken?, List.count_cons] at before ⊢
      omega
    | pop frames | commitOutermost frames | commitInner frames | addTemp _ frames
    | addBlockTemp _ frames | addAuto _ frames =>
      rw [frames] at before
      simp [StackEvent.temp?, StackEvent.taken?, List.count_cons] at before ⊢
      omega
  blockTemps := by
    refine List.perm_iff_count.2 fun t => ?_
    have before := h.blockTemps.count_eq t
    cases step with
    | push _ _ none => simpa [StackEvent.blockTemp?, none] using before
    | takeTemp => simpa [StackEvent.blockTemp?] using before
    | pop frames | commitOutermost frames | commitInner frames | addTemp _ frames
    | addBlockTemp _ frames | addAuto _ frames =>
      rw [frames] at before
      simp [StackEvent.blockTemp?, List.count_cons] at before ⊢
      omega
  depths := by
    have before := h.depths
    cases step with
    | push _ _ _ deeper =>
      refine List.pairwise_cons.2 ⟨?_, before⟩
      cases frames : s.frames with
      | nil => nofun
      | cons caller outer =>
        rw [frames] at deeper before
        have callers := deeper caller rfl
        refine List.forall_mem_cons.2 ⟨callers, fun depth hd => ?_⟩
        exact (List.rel_of_pairwise_cons before hd).trans callers
    | pop frames =>
      rw [frames] at before
      exact (List.pairwise_cons.1 before).2
    | takeTemp => exact before
    | commitOutermost frames | commitInner frames | addTemp _ frames | addBlockTemp _ frames
    | addAuto _ frames =>
      rw [frames] at before
      exact before

end CallStack

/-- A frame that was pushed, told apart from others by when that was. -/
structure Activation where
  time : Nat
  place : MethodId × Nat

/-- An automatic that was added, with what had happened until then. -/
structure Addition where
  auto : SymbolId
  past : List StackEvent

/-- The frames that were pushed and are not popped, the innermost first. -/
def opened : List StackEvent → List Activation
  | [] => []
  | .pushed method depth :: past => ⟨past.length, (method, depth)⟩ :: opened past
  | .popped _ :: past => (opened past).tail
  | _ :: past => opened past

/-- The automatics that were added. -/
def additions : List StackEvent → List Addition
  | [] => []
  | .autoAdded auto :: past => ⟨auto, past⟩ :: additions past
  | _ :: past => additions past

namespace Addition

/-- The event of the addition and all before it. -/
def upto (x : Addition) : List StackEvent := .autoAdded x.auto :: x.past

/-- An automatic that was added has come, by the event that `since` ends with, to the innermost of some
frames, or to the compiled method if there are none: to begin with that is where it was added, and then
each of these frames was committed in turn, when it was the innermost one that was not yet popped, after
it had got the automatic. -/
inductive Comes (x : Addition) : List StackEvent → List Activation → Prop
  | added : Comes x x.upto (opened x.past)
  | handed {since now : List StackEvent} {k : Activation} {outer : List Activation} :
    Comes x since (k :: outer) → since <:+ now → opened now = k :: outer →
    Comes x (.committed :: now) outer

/-- The automatic has come to the innermost of some frames. -/
def At (x : Addition) (history : List StackEvent) (frames : List Activation) : Prop :=
  ∃ since, since <:+ history ∧ x.Comes since frames

variable {x : Addition} {history : List StackEvent} {event : StackEvent} {k : Activation}
  {outer frames : List Activation}

theorem At.later (h : x.At history frames) : x.At (event :: history) frames := by
  obtain ⟨since, earlier, comes⟩ := h
  exact ⟨since, earlier.trans (List.suffix_cons ..), comes⟩

theorem At.handed (h : x.At history (k :: outer)) (innermost : opened history = k :: outer) :
    x.At (.committed :: history) outer := by
  obtain ⟨since, earlier, comes⟩ := h
  exact ⟨_, List.suffix_rfl, comes.handed earlier innermost⟩

end Addition

/-- Each of the frames holds the automatics of some additions, which came to it. -/
inductive Held (history : List StackEvent) : List Frame → List Activation → List Addition → Prop
  | nil : Held history [] [] []
  | cons {f : Frame} {frames : List Frame} {k : Activation} {outer : List Activation}
    {mine theirs : List Addition} :
    f.place = k.place → mine.map (·.auto) = f.autos → (∀ x ∈ mine, x.At history (k :: outer)) →
    Held history frames outer theirs → Held history (f :: frames) (k :: outer) (mine ++ theirs)

section Held

variable {history : List StackEvent} {event : StackEvent} {f : Frame} {frames : List Frame}
  {acts : List Activation} {held : List Addition}

theorem Held.later (h : Held history frames acts held) : Held (event :: history) frames acts held := by
  induction h with
  | nil => exact .nil
  | cons place autos came _ ih => exact .cons place autos (fun x hx => (came x hx).later) ih

/-- A frame without automatics. -/
theorem Held.bare {k : Activation} (place : f.place = k.place) (none : f.autos = [])
    (h : Held history frames acts held) : Held history (f :: frames) (k :: acts) held :=
  show Held _ _ _ ([] ++ held) from .cons place none.symm nofun h

theorem Held.of_cons (h : Held history (f :: frames) acts held) :
    ∃ k outer mine theirs, acts = k :: outer ∧ held = mine ++ theirs ∧ f.place = k.place ∧
      mine.map (·.auto) = f.autos ∧ (∀ x ∈ mine, x.At history (k :: outer)) ∧
      Held history frames outer theirs := by
  cases h with
  | cons place autos came rest => exact ⟨_, _, _, _, rfl, rfl, place, autos, came, rest⟩

theorem Held.places (h : Held history frames acts held) :
    frames.map Frame.place = acts.map (·.place) := by
  induction h with
  | nil => rfl
  | cons place _ _ _ ih => rw [List.map_cons, List.map_cons, place, ih]

theorem Held.autos (h : Held history frames acts held) :
    held.map (·.auto) = frames.flatMap (·.autos) := by
  induction h with
  | nil => rfl
  | cons _ autos _ _ ih => rw [List.map_append, List.flatMap_cons, autos, ih]

end Held

/-- Every automatic that was added is held by a frame, was handed to the compiled method, or is lost with
a frame that was popped. -/
structure Attributed (s : CallStack) (history : List StackEvent) (held handed lost : List Addition) :
    Prop where
  frames : Held history s.frames (opened history) held
  committed : handed.map (·.auto) = s.committedAutos
  came : ∀ x ∈ handed, x.At history []
  popped : lost.map (·.auto) = (history.filterMap (·.frame?)).flatMap (·.autos)
  all : (held ++ handed ++ lost).Perm (additions history)

namespace Attributed

variable {s s' : CallStack} {history : List StackEvent} {event : StackEvent}
  {held handed lost : List Addition}

/-- A step that moves no automatic. -/
theorem keep (h : Attributed s history held handed lost)
    (frames : Held (event :: history) s'.frames (opened (event :: history)) held)
    (committed : s'.committedAutos = s.committedAutos) (frame : event.frame? = none)
    (added : additions (event :: history) = additions history) :
    Attributed s' (event :: history) held handed lost where
  frames := frames
  committed := h.committed.trans committed.symm
  came x hx := (h.came x hx).later
  popped := by rw [List.filterMap_cons_none frame, h.popped]
  all := by rw [added]; exact h.all

/-- What the innermost frame holds, and what its callers hold. -/
theorem innermost {f : Frame} {outer : List Frame} (h : Attributed s history held handed lost)
    (frames : s.frames = f :: outer) :
    ∃ k acts mine theirs, opened history = k :: acts ∧ held = mine ++ theirs ∧ f.place = k.place ∧
      mine.map (·.auto) = f.autos ∧ (∀ x ∈ mine, x.At history (k :: acts)) ∧
      Held history outer acts theirs :=
  (frames ▸ h.frames).of_cons

/-- A step that changes the innermost frame, but not its automatics. -/
theorem keepInnermost {f f' : Frame} {outer : List Frame} (h : Attributed s history held handed lost)
    (frames : s.frames = f :: outer) (place : f'.place = f.place) (autos : f'.autos = f.autos) :
    Held (event :: history) (f' :: outer) (opened history) held := by
  obtain ⟨k, acts, mine, theirs, acts_eq, rfl, place', autos', came, rest⟩ := h.innermost frames
  rw [acts_eq]
  exact .cons (place.trans place') (autos'.trans autos.symm) (fun x hx => (came x hx).later) rest.later

theorem step (h : Attributed s history held handed lost) (step : s.Step event s') :
    ∃ held handed lost, Attributed s' (event :: history) held handed lost := by
  cases step with
  | push none _ _ _ =>
    refine ⟨held, handed, lost, h.keep ?_ rfl rfl rfl⟩
    exact .bare rfl none h.frames.later
  | pop frames =>
    obtain ⟨k, acts, mine, theirs, inner, rfl, -, autos, -, rest⟩ := h.innermost frames
    refine ⟨theirs, handed, mine ++ lost, ?_, h.committed, fun x hx => (h.came x hx).later, ?_, ?_⟩
    · change Held _ _ (opened history).tail _
      rw [inner]
      exact rest.later
    · rw [List.map_append, autos, h.popped]
      rfl
    · refine List.Perm.trans ?_ h.all
      simp only [List.append_assoc]
      exact (List.perm_append_comm_assoc handed mine lost).append_left theirs |>.trans
        (List.perm_append_comm_assoc theirs mine _)
  | commitOutermost frames =>
    obtain ⟨k, acts, mine, theirs, inner, rfl, place, autos, came, rest⟩ := h.innermost frames
    cases rest
    refine ⟨[], handed ++ mine, lost, ?_, ?_, fun x hx => ?_, h.popped, ?_⟩
    · change Held _ _ (opened history) _
      rw [inner]
      exact .bare place rfl .nil
    · rw [List.map_append, h.committed, autos]
    · rcases List.mem_append.1 hx with hx | hx
      · exact (h.came x hx).later
      · exact (came x hx).handed inner
    · refine List.Perm.trans ?_ h.all
      rw [List.append_nil, List.nil_append]
      exact List.perm_append_comm.append_right _
  | commitInner frames =>
    obtain ⟨k, acts, mine, theirs, inner, rfl, place, autos, came, rest⟩ := h.innermost frames
    obtain ⟨k', acts', mine', theirs', rfl, rfl, place', autos', came', rest⟩ := rest.of_cons
    refine ⟨(mine' ++ mine) ++ theirs', handed, lost, ?_, h.committed, fun x hx => (h.came x hx).later,
      h.popped, ?_⟩
    · change Held _ _ (opened history) _
      rw [inner]
      refine .bare place rfl (.cons place' (by rw [List.map_append, autos', autos]) (fun x hx => ?_) rest.later)
      rcases List.mem_append.1 hx with hx | hx
      · exact (came' x hx).later
      · exact (came x hx).handed inner
    · refine List.Perm.trans ?_ h.all
      simp only [← List.append_assoc]
      exact ((List.perm_append_comm.append_right theirs').append_right handed).append_right lost
  | addTemp _ frames => exact ⟨held, handed, lost, h.keep (h.keepInnermost frames rfl rfl) rfl rfl rfl⟩
  | addBlockTemp _ frames =>
    exact ⟨held, handed, lost, h.keep (h.keepInnermost frames rfl rfl) rfl rfl rfl⟩
  | addAuto auto frames =>
    obtain ⟨k, acts, mine, theirs, inner, rfl, place, autos, came, rest⟩ := h.innermost frames
    let x : Addition := ⟨auto, history⟩
    refine ⟨(mine ++ [x]) ++ theirs, handed, lost, ?_, h.committed, fun y hy => (h.came y hy).later,
      h.popped, ?_⟩
    · change Held _ _ (opened history) _
      rw [inner]
      refine .cons place (by rw [List.map_append, autos]; rfl) (fun y hy => ?_) rest.later
      rcases List.mem_append.1 hy with hy | hy
      · exact (came y hy).later
      · obtain rfl := List.mem_singleton.1 hy
        exact ⟨_, List.suffix_rfl, inner ▸ .added⟩
    · refine List.Perm.trans ?_ (h.all.cons x)
      simp only [List.append_assoc, List.singleton_append]
      exact List.perm_middle
  | takeTemp => exact ⟨held, handed, lost, h.keep h.frames.later rfl rfl rfl⟩

end Attributed

section Additions

variable {history : List StackEvent}

theorem map_auto_additions (history : List StackEvent) :
    (additions history).map (·.auto) = history.filterMap (·.auto?) := by
  induction history with
  | nil => rfl
  | cons event history ih => cases event <;> simp [additions, StackEvent.auto?, ih]

theorem suffix_of_mem_additions {x : Addition} (h : x ∈ additions history) : x.upto <:+ history := by
  induction history with
  | nil => cases h
  | cons event history ih =>
    cases event with
    | autoAdded auto =>
      rcases List.mem_cons.1 h with rfl | h
      · exact List.suffix_rfl
      · exact (ih h).trans (List.suffix_cons ..)
    | _ => exact (ih h).trans (List.suffix_cons ..)

/-- Each of the additions is another one. -/
theorem nodup_additions (history : List StackEvent) : (additions history).Nodup := by
  induction history with
  | nil => exact .nil
  | cons event history ih =>
    cases event with
    | autoAdded auto =>
      refine List.nodup_cons.2 ⟨fun h => ?_, ih⟩
      have := (suffix_of_mem_additions h).length_le
      simp [Addition.upto] at this
    | _ => exact ih

end Additions

namespace CallStack

/-- A stack without frames. -/
def new (maxCallSize : Size) (previouslyInlined : List InlinedRecord) : CallStack :=
  { maxCallSize, previouslyInlined }

/-- **No temporary is lost on the stack, or doubled.** After any operations on a new stack, those that
failed included: the temporaries that were added are held by frames, or available, or taken; those of
single blocks are held by frames or available; the automatics are held by frames, or committed, or with a
frame that was popped. A committed automatic was handed up by every frame from the one that it was added
in to the outermost, each of which was committed once it had got it, and before it was popped. Depths grow
inwards. An operation that fails in place has changed nothing. -/
theorem symbols_conserved (maxCallSize : Size) (previouslyInlined : List InlinedRecord)
    (ops : List StackOperation) :
    let (s, history) := (new maxCallSize previouslyInlined).after ops
    (history.filterMap (·.temp?)).Perm
      (s.frames.flatMap (·.temps) ++ s.availableTemps ++ history.filterMap (·.taken?)) ∧
    (history.filterMap (·.blockTemp?)).Perm
      (s.frames.flatMap (·.blockTemps) ++ s.availableBlockTemps) ∧
    (history.filterMap (·.auto?)).Perm
      (s.frames.flatMap (·.autos) ++ s.committedAutos ++
        (history.filterMap (·.frame?)).flatMap (·.autos)) ∧
    (∃ sources : List Addition, sources.Nodup ∧ sources.map (·.auto) = s.committedAutos ∧
      ∀ x ∈ sources, x.upto <:+ history ∧ x.At history []) ∧
    s.frames.map Frame.place = (opened history).map (·.place) ∧
    (s.frames.map (·.depth)).Pairwise (· > ·) ∧
    ∀ op : StackOperation, op.edit.run s = Edit.outcome s (op.apply s) ∧
      ∀ e s', op.edit.run s = (.error e, s') → s' = s ∧ op.events (.error e) = [] := by
  have balanced := after_invariant (s := new maxCallSize previouslyInlined) (P := Balanced)
    ⟨.nil, .nil, .nil⟩ (fun _ _ _ _ h step => h.step step) ops
  have attributed := after_invariant (s := new maxCallSize previouslyInlined)
    (P := fun s history => ∃ held handed lost, Attributed s history held handed lost)
    ⟨[], [], [], .nil, rfl, nofun, rfl, .nil⟩
    (fun _ _ _ _ ⟨_, _, _, h⟩ step => h.step step) ops
  generalize (new maxCallSize previouslyInlined).after ops = result at balanced attributed
  obtain ⟨s, history⟩ := result
  obtain ⟨held, handed, lost, h⟩ := attributed
  refine ⟨balanced.temps, balanced.blockTemps, ?_, ⟨handed, ?_, h.committed, fun x hx => ⟨?_, h.came x hx⟩⟩,
    h.frames.places, balanced.depths, fun op => ⟨op.run_edit s, fun e s' run => ⟨?_, ?_⟩⟩⟩
  · have autos := h.all.map (·.auto)
    rw [List.map_append, List.map_append, h.frames.autos, h.committed, h.popped,
      map_auto_additions] at autos
    exact autos.symm
  · have distinct := h.all.nodup_iff.2 (nodup_additions history)
    exact (List.nodup_append'.1 (List.nodup_append'.1 distinct).1).2.1
  · exact suffix_of_mem_additions (h.all.mem_iff.1 (List.mem_append_left _ (List.mem_append_right _ hx)))
  · exact Edit.eq_of_outcome_eq_error ((op.run_edit s).symm.trans run)
  · cases op <;> rfl

/-- A body is explored inside another one. The inner one is committed, gets one more automatic, and is
popped; then the outer one is committed. -/
def nestedBodies : List StackOperation :=
  [.takeTemp, .push none ⟨0⟩ 0 true, .addTemp ⟨1⟩, .push none ⟨1⟩ 1 true, .addTemp ⟨2⟩, .addAuto ⟨3⟩,
    .addBlockTemp ⟨4⟩, .push none ⟨2⟩ 1 true, .commit, .addAuto ⟨5⟩, .pop, .commit, .takeTemp]

/-- The automatic that the inner body got before it was committed is the one that was handed all the way
up. -/
theorem symbols_conserved_nested :
    let result := (new 0 []).after nestedBodies
    result.1.committedAutos = [⟨3⟩] ∧ result.1.availableTemps = [⟨1⟩] ∧
      result.1.availableBlockTemps = [⟨4⟩] ∧ (result.2.filterMap (·.auto?)) = [⟨5⟩, ⟨3⟩] ∧
      result.2.filterMap (·.taken?) = [⟨2⟩] ∧
      ∃ sources : List Addition, sources.map (·.auto) = [⟨3⟩] ∧
        ∀ x ∈ sources, x.upto <:+ result.2 ∧ x.At result.2 [] := by
  obtain ⟨-, -, -, ⟨sources, -, committed, handed⟩, -⟩ := symbols_conserved 0 [] nestedBodies
  exact ⟨by decide +kernel, by decide +kernel, by decide +kernel, by decide +kernel, by decide +kernel,
    sources, committed, handed⟩

end CallStack

end Inlining
