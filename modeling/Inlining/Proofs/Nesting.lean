import Inlining.Proofs.Ledger

/-!
# Bodies in bodies

An exploration enters and leaves bodies. `openAfter` keeps the bodies that are open, the innermost first
and each with its depth, as events tell of them; it gets stuck where a body is left that is not the
innermost one. `Nested` says of a piece of a journal that it leaves open what was open before, and never
opens more than the limits allow. Such pieces may be put one after the other (`Nested.append`) and inside
a body that is entered and left (`Nested.body`).

What limits the bodies is that no method is open more than a number of times. So there are never more of
them than there are methods to open, times that number, however deep the configuration lets them lie
(`Limits.of_often`).
-/

namespace Inlining

/-- Some methods as open bodies, the innermost first: the depth of a body is the number of bodies
around it. -/
def placed : List MethodId → List (MethodId × Nat)
  | [] => []
  | m :: methods => (m, methods.length) :: placed methods

theorem depth_lt_of_mem_placed {methods : List MethodId} {body : MethodId × Nat}
    (h : body ∈ placed methods) : body.2 < methods.length := by
  induction methods with
  | nil => cases h
  | cons m methods ih =>
    rcases List.mem_cons.1 h with rfl | h
    · exact Nat.lt_succ_self _
    · exact (ih h).trans (Nat.lt_succ_self _)

/-- The bodies that are open after an event. Only the innermost one can be left. -/
def Event.follow (bodies : List (MethodId × Nat)) : Event → Option (List (MethodId × Nat))
  | .framePushed m depth => some ((m, depth) :: bodies)
  | .framePopped m depth _ => if bodies.head? = some (m, depth) then some bodies.tail else none
  | .targetAdded .. | .targetTagged .. | .targetRemoved .. | .siteFailed .. => some bodies

/-- The bodies that are open after some events. -/
def openAfter (bodies : List (MethodId × Nat)) (events : List Event) :
    Option (List (MethodId × Nat)) := events.foldlM Event.follow bodies

theorem openAfter_append (bodies : List (MethodId × Nat)) (events events' : List Event) :
    openAfter bodies (events ++ events') = (openAfter bodies events).bind (openAfter · events') :=
  List.foldlM_append ..

theorem openAfter_cons (bodies : List (MethodId × Nat)) (e : Event) (events : List Event) :
    openAfter bodies (e :: events) = (e.follow bodies).bind (openAfter · events) := rfl

theorem Event.follow_of_site {e : Event} (h : e.site? ≠ none) (bodies : List (MethodId × Nat)) :
    e.follow bodies = some bodies := by
  cases e with
  | framePushed | framePopped => exact absurd rfl h
  | _ => rfl

section Limits

variable (p : Program) (config : Configuration)

/-- The greatest depth of a body: what the depth limit allows, and no more than there are methods, each as
often as it may be open. -/
def maxNesting : Nat := min config.maxDepth (max 1 config.maxRecursiveOccurrences * p.methods.length)

/-- The bodies of some methods may be open at the same time. That there are few of them, and none too
deep, follows from the rest. -/
structure Limits (methods : List MethodId) : Prop where
  declared : ∀ m ∈ methods, p.method? m ≠ none
  often : ∀ m, methods.count m ≤ max 1 config.maxRecursiveOccurrences
  shallow : methods.length ≤ config.maxDepth + 1
  few : methods.length ≤ max 1 config.maxRecursiveOccurrences * p.methods.length
  nesting : ∀ body ∈ placed methods, body.2 ≤ maxNesting p config

variable {p config} {methods : List MethodId} {m : MethodId}

theorem mem_ids_of_declared (h : p.method? m ≠ none) : m ∈ p.methods.map (·.id) := by
  obtain ⟨decl, hd⟩ := Option.ne_none_iff_exists'.1 h
  have same := List.find?_some hd
  exact List.mem_map.2 ⟨decl, List.mem_of_find?_eq_some hd, by simpa using same⟩

/-- If no method is open too often, there are not too many bodies. -/
theorem Limits.of_often (declared : ∀ m ∈ methods, p.method? m ≠ none)
    (often : ∀ m, methods.count m ≤ max 1 config.maxRecursiveOccurrences)
    (shallow : methods.length ≤ config.maxDepth + 1) : Limits p config methods := by
  have among : methods.toFinset ⊆ (p.methods.map (·.id)).toFinset := by
    intro m hm
    rw [List.mem_toFinset] at hm ⊢
    exact mem_ids_of_declared (declared m hm)
  have card : methods.toFinset.card ≤ p.methods.length :=
    (Finset.card_le_card among).trans ((List.toFinset_card_le _).trans_eq (List.length_map _))
  have few := calc methods.length
    _ = ∑ m ∈ methods.toFinset, methods.count m := (List.sum_toFinset_count_eq_length _).symm
    _ ≤ methods.toFinset.card * max 1 config.maxRecursiveOccurrences :=
      Finset.sum_le_card_nsmul _ _ _ fun m _ => often m
    _ ≤ p.methods.length * max 1 config.maxRecursiveOccurrences := Nat.mul_le_mul_right _ card
    _ = max 1 config.maxRecursiveOccurrences * p.methods.length := Nat.mul_comm ..
  refine ⟨declared, often, shallow, few, fun body hb => ?_⟩
  have outer := depth_lt_of_mem_placed hb
  exact le_min (by omega) (by omega)

theorem limits_nil : Limits p config [] := .of_often nofun (by simp) (by simp)

/-- A method whose body is not open too often may be entered. -/
theorem Limits.cons (h : Limits p config methods) (declared : p.method? m ≠ none)
    (shallow : methods.length ≤ config.maxDepth)
    (often : methods.count m < max 1 config.maxRecursiveOccurrences) :
    Limits p config (m :: methods) := by
  refine .of_often (by simpa using ⟨declared, h.declared⟩) (fun m' => ?_) (Nat.succ_le_succ shallow)
  rw [List.count_cons]
  split
  next same =>
    obtain rfl : m = m' := by simpa using same
    exact often
  next => exact h.often m'

variable (p config)

/-- Events inside open bodies that leave them open in the end, and that at no time open more than the
limits allow: after any first part of the events there are some more bodies, `inner`. -/
def Nested (outer : List MethodId) (events : List Event) : Prop :=
  openAfter (placed outer) events = some (placed outer) ∧
    ∀ first, first <+: events → ∃ inner, openAfter (placed outer) first = some (placed (inner ++ outer)) ∧
      Limits p config (inner ++ outer)

variable {p config} {events events' : List Event}

/-- Events about sites open nothing. -/
theorem Limits.nested (h : Limits p config methods) (quiet : ∀ e ∈ events, e.site? ≠ none) :
    Nested p config methods events := by
  have still {first : List Event} (about : ∀ e ∈ first, e.site? ≠ none) :
      openAfter (placed methods) first = some (placed methods) := by
    induction first with
    | nil => rfl
    | cons e first ih =>
      rw [openAfter_cons, Event.follow_of_site (about e (List.mem_cons_self ..)), Option.bind_some]
      exact ih fun e he => about e (List.mem_cons_of_mem _ he)
  exact ⟨still quiet, fun first begins =>
    ⟨[], still fun e he => quiet e (begins.subset he), h⟩⟩

theorem Nested.append (h : Nested p config methods events) (h' : Nested p config methods events') :
    Nested p config methods (events ++ events') := by
  obtain ⟨closed, each⟩ := h
  obtain ⟨closed', each'⟩ := h'
  have after (rest : List Event) :
      openAfter (placed methods) (events ++ rest) = openAfter (placed methods) rest := by
    rw [openAfter_append, closed, Option.bind_some]
  refine ⟨by rw [after, closed'], fun first begins => ?_⟩
  rcases List.prefix_or_prefix_of_prefix begins (List.prefix_append ..) with within | ⟨rest, rfl⟩
  · exact each first within
  · rw [after]
    exact each' rest ((List.prefix_append_right_inj events).1 begins)

/-- A body that is entered and left, with what happens inside. -/
theorem Nested.body (inside : Nested p config (m :: methods) events)
    (around : Limits p config methods) (committed : Bool) :
    Nested p config methods
      (.framePushed m methods.length :: events ++ [.framePopped m methods.length committed]) := by
  obtain ⟨closed, each⟩ := inside
  have entered (rest : List Event) : openAfter (placed methods)
      (.framePushed m methods.length :: rest) = openAfter (placed (m :: methods)) rest := rfl
  have left : openAfter (placed methods)
      (.framePushed m methods.length :: events ++ [.framePopped m methods.length committed]) =
        some (placed methods) := by
    rw [List.cons_append, entered, openAfter_append, closed]
    simp [openAfter, Event.follow, placed]
  refine ⟨left, fun first begins => ?_⟩
  rcases List.prefix_concat_iff.1 begins with rfl | begins
  · exact ⟨[], left, around⟩
  cases first with
  | nil => exact ⟨[], rfl, around⟩
  | cons e first =>
    obtain ⟨rfl, within⟩ := List.cons_prefix_cons.1 begins
    obtain ⟨inner, opened, limits'⟩ := each first within
    exact ⟨inner ++ [m], by simpa using (entered first).trans opened, by simpa using limits'⟩

end Limits

end Inlining
