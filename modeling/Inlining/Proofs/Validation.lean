import Inlining.Proofs.Superclasses

/-!
# Which descriptions are programs

A description is well-formed if what it names is declared, nothing is declared twice, and no class inherits
from itself (`Description.WellFormed`). The check looks for what is wrong, one thing after the other, and
stops at the first. It may come to classes, bodies and references in any order (`Description.Order`), and
which fault it finds depends on that; that it finds one does not, and the fault is there
(`Description.Exhibits`). `accepted_iff_wellFormed` puts both together.
-/

namespace Inlining

section Except

variable {ε α β : Type}

theorem unit_bind_eq_error {x : Except ε Unit} {f : Unit → Except ε β} {e : ε} :
    x >>= f = .error e ↔ x = .error e ∨ x = .ok () ∧ f () = .error e := by
  cases x with
  | error e' =>
    constructor
    · intro h
      cases h
      exact .inl rfl
    · rintro (h | ⟨h, -⟩) <;> cases h
      rfl
  | ok _ =>
    constructor
    · intro h
      exact .inr ⟨rfl, h⟩
    · rintro (h | ⟨-, h⟩)
      · cases h
      · exact h

/-- A loop that fails does so at one of its elements. -/
theorem exists_of_forM_eq_error {xs : List α} {f : α → Except ε Unit} {e : ε}
    (h : xs.forM f = .error e) : ∃ x ∈ xs, f x = .error e := by
  induction xs with
  | nil => cases h
  | cons x xs ih =>
    change (f x >>= fun _ => xs.forM f) = .error e at h
    rcases unit_bind_eq_error.1 h with here | ⟨-, later⟩
    · exact ⟨x, List.mem_cons_self, here⟩
    · obtain ⟨y, hy, fails⟩ := ih later
      exact ⟨y, List.mem_cons_of_mem _ hy, fails⟩

/-- A demand is refused, with the fault that it names, if what it asks for is not so. -/
theorem demand_eq_error {condition : Bool} {P : Prop} {fault e : ε} (means : condition = true ↔ P) :
    demand condition fault = .error e ↔ ¬ P ∧ fault = e := by
  rw [← means]
  cases condition <;> simp [demand]

end Except

namespace Description

section WellFormed

variable (d : Description)

def DeclaresClass (c : ClassId) : Prop := ∃ decl ∈ d.classes, decl.id = c

def DeclaresMethod (m : MethodId) : Prop := ∃ decl ∈ d.methods, decl.id = m

def DeclaresReference (r : MethodRefId) : Prop := ∃ entry ∈ d.references, entry.id = r

/-- The last entry for a method reference is for the method. -/
def LastEntry (r : MethodRefId) (m : MethodId) : Prop :=
  ∃ earlier later, d.references = earlier ++ ⟨r, m⟩ :: later ∧ ∀ entry ∈ later, entry.id ≠ r

/-- The classes with the slots that they declare a method for, once for each such method. -/
def slotTable : List (ClassId × Int) :=
  d.methods.filterMap fun m => m.slot.map fun slot => (m.declaringClass, slot)

/-- What a call names is declared, and a call that is not by method reference names a method. -/
structure Understands (call : CallDecl) : Prop where
  method : ∀ m, call.method = some m → d.DeclaresMethod m
  receiverClass : ∀ c, call.receiverClass = some c → d.DeclaresClass c
  methodRef : ∀ r, call.methodRef = some r → d.DeclaresReference r
  bound : call.shape = .functionPointer ∨ call.method.isSome = true

/-- Whatever is named is declared, nothing is declared twice, and the way up from a class never returns. -/
structure WellFormed : Prop where
  classes_distinct : (d.classes.map (·.id)).Nodup
  parents_declared : ∀ c ∈ d.classes, ∀ parent ∈ c.parents, d.DeclaresClass parent
  acyclic : ∀ c, ¬ Relation.TransGen (Inherits d.classes) c c
  methods_distinct : (d.methods.map (·.id)).Nodup
  methods_placed : ∀ m ∈ d.methods, d.DeclaresClass m.declaringClass
  slots_distinct : d.slotTable.Nodup
  calls : ∀ m ∈ d.methods, ∀ call ∈ m.calls, d.Understands call
  references : ∀ r m, d.LastEntry r m → d.DeclaresMethod m

/-- The description has the fault. -/
def Exhibits : DescriptionFault → Prop
  | .invalidJson => False
  | .classTwice c => (d.classes.map (·.id)).Duplicate c
  | .unknownClass c => ¬ d.DeclaresClass c ∧
    ((∃ decl ∈ d.classes, c ∈ decl.parents) ∨ (∃ m ∈ d.methods, m.declaringClass = c) ∨
      ∃ m ∈ d.methods, ∃ call ∈ m.calls, call.receiverClass = some c)
  | .inheritanceCycle c => d.DeclaresClass c ∧
    ∃ x, Relation.ReflTransGen (Inherits d.classes) c x ∧ Relation.TransGen (Inherits d.classes) x x
  | .slotTwice c slot => d.slotTable.Duplicate (c, slot)
  | .methodTwice m => (d.methods.map (·.id)).Duplicate m
  | .unknownMethod m => ¬ d.DeclaresMethod m ∧
    ∃ caller ∈ d.methods, ∃ call ∈ caller.calls, call.method = some m
  | .unknownReference r => ¬ d.DeclaresReference r ∧
    ∃ caller ∈ d.methods, ∃ call ∈ caller.calls, call.methodRef = some r
  | .undeclaredCall m index => ∃ caller ∈ d.methods, caller.id = m ∧ ∃ call ∈ caller.calls,
    call.index = index ∧ call.shape ≠ .functionPointer ∧ call.method = none
  | .danglingReference r m => d.LastEntry r m ∧ ¬ d.DeclaresMethod m

end WellFormed

/-- The order in which the check comes to classes, to the bodies of methods, and to method references. -/
structure Order (d : Description) where
  classes : List ClassDecl
  methods : List MethodDecl
  references : List MethodRefId
  classes_perm : classes.Perm d.classes
  methods_perm : methods.Perm d.methods
  mem_references : ∀ r, r ∈ references ↔ d.DeclaresReference r

/-- The order of the description. -/
def Order.declared (d : Description) : d.Order where
  classes := d.classes
  methods := d.methods
  references := d.references.map (·.id)
  classes_perm := .refl _
  methods_perm := .refl _
  mem_references _ := List.mem_map

/-- Finds a fault of a description, in an order. -/
def checkIn (d : Description) (order : d.Order) : Except DescriptionFault Unit := do
  checkDistinct [] d.classes
  order.classes.forM d.checkClass
  d.checkMethods [] d.methods
  order.methods.forM fun m => m.calls.forM (d.checkCall m.id)
  order.references.forM d.checkReference

variable {d : Description} {fault : DescriptionFault} {order : d.Order}

theorem check_eq (d : Description) : d.check = d.checkIn (.declared d) := by
  unfold check checkIn Order.declared
  simp only [List.forM_eq_forM, List.forM_map]

theorem class?_isSome_iff {c : ClassId} : (d.class? c).isSome = true ↔ d.DeclaresClass c := by
  simp [class?, DeclaresClass, List.find?_isSome]

theorem method?_isSome_iff {m : MethodId} : (d.method? m).isSome = true ↔ d.DeclaresMethod m := by
  simp [method?, DeclaresMethod, List.find?_isSome]

theorem any_reference_iff {r : MethodRefId} :
    d.references.any (·.id == r) = true ↔ d.DeclaresReference r := by
  simp [DeclaresReference]

theorem methodBehind?_eq_some_iff {r : MethodRefId} {m : MethodId} :
    d.methodBehind? r = some m ↔ d.LastEntry r m := by
  unfold methodBehind? LastEntry
  rw [List.findRev?_eq_find?_reverse, Option.map_eq_some_iff]
  constructor
  · rintro ⟨entry, found, rfl⟩
    obtain ⟨names, later, earlier, split, others⟩ := List.find?_eq_some_iff_append.1 found
    obtain rfl : entry.id = r := by simpa using names
    refine ⟨earlier.reverse, later.reverse, ?_, ?_⟩
    · have := congrArg List.reverse split
      simpa using this
    · intro other ho
      have := others other (List.mem_reverse.1 ho)
      simpa using this
  · rintro ⟨earlier, later, split, others⟩
    refine ⟨⟨r, m⟩, ?_, rfl⟩
    apply List.find?_eq_some_iff_append.2
    refine ⟨by simp, later.reverse, earlier.reverse, by simp [split], ?_⟩
    intro other ho
    have := others other (List.mem_reverse.1 ho)
    simpa using this

theorem LastEntry.declares {r : MethodRefId} {m : MethodId} (h : d.LastEntry r m) :
    d.DeclaresReference r := by
  obtain ⟨earlier, later, split, -⟩ := h
  exact ⟨⟨r, m⟩, by rw [split]; exact List.mem_append_right _ List.mem_cons_self, rfl⟩

section Accepts

theorem checkDistinct_eq_ok_iff {earlier : List ClassId} {classes : List ClassDecl} :
    checkDistinct earlier classes = .ok () ↔
      (∀ c ∈ classes, c.id ∉ earlier) ∧ (classes.map (·.id)).Nodup := by
  induction classes generalizing earlier with
  | nil => simp [checkDistinct]
  | cons c rest ih =>
    simp only [checkDistinct, unit_bind_eq_ok, demand_eq_ok, ih, List.map_cons, List.nodup_cons]
    grind

theorem checkCall_eq_ok_iff {caller : MethodId} {call : CallDecl} :
    d.checkCall caller call = .ok () ↔ d.Understands call := by
  simp only [checkCall, unit_bind_eq_ok, forM_eq_ok, demand_eq_ok, Option.mem_toList,
    class?_isSome_iff, method?_isSome_iff, any_reference_iff, Bool.or_eq_true, beq_iff_eq]
  constructor
  · rintro ⟨method, receiver, reference, bound⟩
    exact ⟨method, receiver, reference, bound⟩
  · rintro ⟨method, receiver, reference, bound⟩
    exact ⟨method, receiver, reference, bound⟩

theorem checkReference_eq_ok_iff {r : MethodRefId} :
    d.checkReference r = .ok () ↔ ∀ m, d.LastEntry r m → d.DeclaresMethod m := by
  simp only [checkReference, forM_eq_ok, demand_eq_ok, Option.mem_toList, methodBehind?_eq_some_iff,
    method?_isSome_iff]

/-- No two methods clash just in case no handle and no slot of a class is given twice. -/
theorem pairwise_clashes_iff :
    (d.methods.Pairwise fun e m => ¬ e.Clashes m) ↔
      (d.methods.map (·.id)).Nodup ∧ d.slotTable.Nodup := by
  unfold slotTable List.Nodup
  rw [List.pairwise_map, List.pairwise_filterMap, ← List.pairwise_and_iff]
  apply List.Pairwise.iff
  intro e m
  simp only [MethodDecl.Clashes, not_or, Option.map_eq_some_iff]
  cases he : e.slot <;> cases hm : m.slot <;> grind

theorem checkIn_eq_ok_iff : d.checkIn order = .ok () ↔ d.WellFormed := by
  simp only [checkIn, unit_bind_eq_ok, forM_eq_ok, order.classes_perm.mem_iff, order.methods_perm.mem_iff,
    order.mem_references, checkDistinct_eq_ok_iff, checkClass_eq_ok_iff, checkMethods_eq_ok_iff,
    checkCall_eq_ok_iff, checkReference_eq_ok_iff, class?_isSome_iff, pairwise_clashes_iff]
  constructor
  · rintro ⟨⟨-, classes⟩, ways, ⟨placed, -, methods, slots⟩, calls, references⟩
    exact {
      classes_distinct := classes
      parents_declared := fun c hc => (ways c hc).1
      acyclic := superclassChain_nodup_iff.1 fun c hc => (ways c hc).2
      methods_distinct := methods
      methods_placed := placed
      slots_distinct := slots
      calls := calls
      references := fun r m last => references r last.declares m last }
  · intro h
    have ways := superclassChain_nodup_iff.2 h.acyclic
    have first {α : Type} {P : α → Prop} : ∀ e ∈ ([] : List α), P e := List.forall_mem_nil P
    exact ⟨⟨fun _ _ => List.not_mem_nil, h.classes_distinct⟩,
      fun c hc => ⟨h.parents_declared c hc, ways c hc⟩,
      ⟨h.methods_placed, fun _ _ => first, h.methods_distinct, h.slots_distinct⟩, h.calls,
      fun r _ m last => h.references r m last⟩

end Accepts

section Rejects

theorem duplicate_of_mem {α : Type} {x : α} {earlier later : List α} (h : x ∈ earlier) :
    (earlier ++ x :: later).Duplicate x := by
  apply List.duplicate_iff_sublist.2
  exact (List.singleton_sublist.2 h).append (List.singleton_sublist.2 List.mem_cons_self)

theorem exhibits_of_checkDistinct {earlier : List ClassId} {classes : List ClassDecl}
    (all : earlier.reverse ++ classes.map (·.id) = d.classes.map (·.id))
    (h : checkDistinct earlier classes = .error fault) : d.Exhibits fault := by
  induction classes generalizing earlier with
  | nil => cases h
  | cons c rest ih =>
    have fresh : (!earlier.contains c.id) = true ↔ c.id ∉ earlier := by simp
    rw [checkDistinct, unit_bind_eq_error, demand_eq_error fresh, not_not] at h
    rcases h with ⟨again, rfl⟩ | ⟨-, later⟩
    · show (d.classes.map (·.id)).Duplicate c.id
      rw [← all]
      exact duplicate_of_mem (List.mem_reverse.2 again)
    · refine ih ?_ later
      rw [← all, List.reverse_cons, List.append_assoc]
      rfl

theorem exhibits_of_checkClass {c : ClassDecl} (hc : c ∈ d.classes) (h : d.checkClass c = .error fault) :
    d.Exhibits fault := by
  rw [checkClass, unit_bind_eq_error, demand_eq_error decide_eq_true_iff] at h
  rcases h with parents | ⟨-, returns, rfl⟩
  · obtain ⟨parent, hp, refused⟩ := exists_of_forM_eq_error parents
    obtain ⟨missing, rfl⟩ := (demand_eq_error class?_isSome_iff).1 refused
    exact ⟨missing, .inl ⟨c, hc, hp⟩⟩
  · exact ⟨⟨c, hc, rfl⟩, exists_cycle_of_chainFrom returns⟩

/-- What can be wrong with the next method, if not with a later one. -/
theorem checkMethods_cons_eq_error {earlier rest : List MethodDecl} {m : MethodDecl}
    (h : d.checkMethods earlier (m :: rest) = .error fault) :
    (¬ d.DeclaresClass m.declaringClass ∧ fault = .unknownClass m.declaringClass) ∨
    (∃ slot, m.slot = some slot ∧ (∃ e ∈ earlier, e.declaringClass = m.declaringClass ∧ e.slot = some slot) ∧
      fault = .slotTwice m.declaringClass slot) ∨
    ((∃ e ∈ earlier, e.id = m.id) ∧ fault = .methodTwice m.id) ∨
    d.checkMethods (m :: earlier) rest = .error fault := by
  have handle : (!earlier.any (·.id == m.id)) = true ↔ ¬ ∃ e ∈ earlier, e.id = m.id := by simp
  -- what is left to check once the slot is settled
  have remaining (h : (demand (!earlier.any (·.id == m.id)) (.methodTwice m.id) >>= fun _ =>
      d.checkMethods (m :: earlier) rest) = .error fault) :
      ((∃ e ∈ earlier, e.id = m.id) ∧ fault = .methodTwice m.id) ∨
        d.checkMethods (m :: earlier) rest = .error fault := by
    rw [unit_bind_eq_error, demand_eq_error handle, not_not] at h
    rcases h with ⟨again, rfl⟩ | ⟨-, later⟩
    · exact .inl ⟨again, rfl⟩
    · exact .inr later
  rw [checkMethods, unit_bind_eq_error, demand_eq_error class?_isSome_iff] at h
  rcases h with ⟨missing, rfl⟩ | ⟨-, h⟩
  · exact .inl ⟨missing, rfl⟩
  · cases hs : m.slot with
    | none =>
      simp only [hs] at h
      exact .inr (.inr (remaining h))
    | some slot =>
      have place : (!earlier.any fun e => e.declaringClass == m.declaringClass && e.slot == some slot) = true ↔
          ¬ ∃ e ∈ earlier, e.declaringClass = m.declaringClass ∧ e.slot = some slot := by simp
      simp only [hs] at h
      rw [unit_bind_eq_error, demand_eq_error place, not_not] at h
      rcases h with ⟨again, rfl⟩ | ⟨-, h⟩
      · exact .inr (.inl ⟨slot, rfl, again, rfl⟩)
      · exact .inr (.inr (remaining h))

theorem exhibits_of_checkMethods {earlier methods : List MethodDecl}
    (all : earlier.reverse ++ methods = d.methods)
    (h : d.checkMethods earlier methods = .error fault) : d.Exhibits fault := by
  induction methods generalizing earlier with
  | nil => cases h
  | cons m rest ih =>
    have here : m ∈ d.methods := all ▸ List.mem_append_right _ List.mem_cons_self
    rcases checkMethods_cons_eq_error h with
      ⟨missing, rfl⟩ | ⟨slot, hs, ⟨e, he, hc, hes⟩, rfl⟩ | ⟨⟨e, he, hid⟩, rfl⟩ | later
    · exact ⟨missing, .inr (.inl ⟨m, here, rfl⟩)⟩
    · show d.slotTable.Duplicate (m.declaringClass, slot)
      unfold slotTable
      rw [← all, List.filterMap_append, List.filterMap_cons_some (by rw [hs]; rfl)]
      refine duplicate_of_mem (List.mem_filterMap.2 ⟨e, List.mem_reverse.2 he, ?_⟩)
      rw [hes, hc]
      rfl
    · show (d.methods.map (·.id)).Duplicate m.id
      rw [← all, List.map_append, List.map_cons]
      exact duplicate_of_mem (List.mem_map.2 ⟨e, List.mem_reverse.2 he, hid⟩)
    · refine ih ?_ later
      rw [← all, List.reverse_cons, List.append_assoc]
      rfl

theorem exhibits_of_checkCall {caller : MethodDecl} {call : CallDecl} (hm : caller ∈ d.methods)
    (hc : call ∈ caller.calls) (h : d.checkCall caller.id call = .error fault) : d.Exhibits fault := by
  simp only [checkCall, unit_bind_eq_error] at h
  rcases h with method | ⟨-, receiver | ⟨-, reference | ⟨-, unbound⟩⟩⟩
  · obtain ⟨m, names, refused⟩ := exists_of_forM_eq_error method
    obtain ⟨missing, rfl⟩ := (demand_eq_error method?_isSome_iff).1 refused
    exact ⟨missing, caller, hm, call, hc, Option.mem_toList.1 names⟩
  · obtain ⟨c, names, refused⟩ := exists_of_forM_eq_error receiver
    obtain ⟨missing, rfl⟩ := (demand_eq_error class?_isSome_iff).1 refused
    exact ⟨missing, .inr (.inr ⟨caller, hm, call, hc, Option.mem_toList.1 names⟩)⟩
  · obtain ⟨r, names, refused⟩ := exists_of_forM_eq_error reference
    obtain ⟨missing, rfl⟩ := (demand_eq_error any_reference_iff).1 refused
    exact ⟨missing, caller, hm, call, hc, Option.mem_toList.1 names⟩
  · have bound : (call.shape == .functionPointer || call.method.isSome) = true ↔
        call.shape = .functionPointer ∨ call.method ≠ none := by
      rw [Bool.or_eq_true, beq_iff_eq, Option.isSome_iff_ne_none]
    obtain ⟨neither, rfl⟩ := (demand_eq_error bound).1 unbound
    rw [not_or, not_not] at neither
    exact ⟨caller, hm, rfl, call, hc, rfl, neither.1, neither.2⟩

theorem exhibits_of_checkReference {r : MethodRefId} (h : d.checkReference r = .error fault) :
    d.Exhibits fault := by
  obtain ⟨m, behind, refused⟩ := exists_of_forM_eq_error h
  obtain ⟨missing, rfl⟩ := (demand_eq_error method?_isSome_iff).1 refused
  exact ⟨methodBehind?_eq_some_iff.1 (Option.mem_toList.1 behind), missing⟩

/-- The fault that the check finds is there. -/
theorem exhibits_of_checkIn (h : d.checkIn order = .error fault) : d.Exhibits fault := by
  simp only [checkIn, unit_bind_eq_error] at h
  rcases h with classes | ⟨-, ways | ⟨-, methods | ⟨-, bodies | ⟨-, references⟩⟩⟩⟩
  · exact exhibits_of_checkDistinct rfl classes
  · obtain ⟨c, hc, fails⟩ := exists_of_forM_eq_error ways
    exact exhibits_of_checkClass (order.classes_perm.mem_iff.1 hc) fails
  · exact exhibits_of_checkMethods rfl methods
  · obtain ⟨caller, hm, body⟩ := exists_of_forM_eq_error bodies
    obtain ⟨call, hc, fails⟩ := exists_of_forM_eq_error body
    exact exhibits_of_checkCall (order.methods_perm.mem_iff.1 hm) hc fails
  · obtain ⟨r, -, fails⟩ := exists_of_forM_eq_error references
    exact exhibits_of_checkReference fails

end Rejects

section Faults

/-- A fault that a description has is a handle that names nothing, or a program described wrongly. -/
theorem blame_of_exhibits (h : d.Exhibits fault) :
    fault ≠ .invalidJson ∧ (fault.blame = .unknownHandle ∨ fault.blame = .malformedProgram) := by
  cases fault with
  | invalidJson => exact h.elim
  | unknownClass | unknownMethod | unknownReference => exact ⟨nofun, .inl rfl⟩
  | _ => exact ⟨nofun, .inr rfl⟩

theorem WellFormed.not_exhibits (wf : d.WellFormed) : ¬ d.Exhibits fault := by
  intro h
  cases fault with
  | invalidJson => exact h
  | classTwice c => exact h.not_nodup wf.classes_distinct
  | unknownClass c =>
    obtain ⟨missing, ⟨decl, hd, hp⟩ | ⟨m, hm, rfl⟩ | ⟨m, hm, call, hc, names⟩⟩ := h
    · exact missing (wf.parents_declared decl hd c hp)
    · exact missing (wf.methods_placed m hm)
    · exact missing ((wf.calls m hm call hc).receiverClass c names)
  | inheritanceCycle c =>
    obtain ⟨-, x, -, cycle⟩ := h
    exact wf.acyclic x cycle
  | slotTwice c slot => exact h.not_nodup wf.slots_distinct
  | methodTwice m => exact h.not_nodup wf.methods_distinct
  | unknownMethod m =>
    obtain ⟨missing, caller, hm, call, hc, names⟩ := h
    exact missing ((wf.calls caller hm call hc).method m names)
  | unknownReference r =>
    obtain ⟨missing, caller, hm, call, hc, names⟩ := h
    exact missing ((wf.calls caller hm call hc).methodRef r names)
  | undeclaredCall m index =>
    obtain ⟨caller, hm, -, call, hc, -, shape, none⟩ := h
    rcases (wf.calls caller hm call hc).bound with pointer | declared
    · exact shape pointer
    · rw [none] at declared
      cases declared
  | danglingReference r m => exact h.2 (wf.references r m h.1)

theorem exists_fault (h : ¬ d.WellFormed) (order : d.Order) : ∃ fault, d.checkIn order = .error fault := by
  cases check : d.checkIn order with
  | ok _ => exact absurd (checkIn_eq_ok_iff.1 check) h
  | error fault => exact ⟨fault, rfl⟩

end Faults

end Description

namespace Program

variable {d : Description}

theorem ofDescription_of_ok (h : d.check = .ok ()) : ofDescription d = .ok ⟨d, h⟩ := by
  unfold ofDescription
  split
  · rfl
  next fails => rw [h] at fails; cases fails

theorem ofDescription_of_error {fault : DescriptionFault} (h : d.check = .error fault) :
    ofDescription d = .error fault := by
  unfold ofDescription
  split
  next passes => rw [h] at passes; cases passes
  next fails => exact congrArg _ (Except.error.inj (fails.symm.trans h))

end Program

/-- **Exactly the well-formed descriptions are programs.** The check accepts those, and makes of each a
program that is described by it. Every other one has a fault, and is refused for a fault that it has: a
handle that names nothing, or a program described wrongly. So it is in whatever order the check comes to
classes, bodies and references; the order decides only which fault it finds. -/
theorem Description.accepted_iff_wellFormed (d : Description) :
    ((∃ p, Program.ofDescription d = .ok p ∧ p.toDescription = d) ↔ d.WellFormed) ∧
    (∀ fault, Program.ofDescription d = .error fault ↔ d.checkIn (.declared d) = .error fault) ∧
    (d.WellFormed ↔ ∀ fault, ¬ d.Exhibits fault) ∧
    ∀ order : d.Order,
      (d.checkIn order = .ok () ↔ d.WellFormed) ∧
      (¬ d.WellFormed → ∃ fault, d.checkIn order = .error fault ∧ d.Exhibits fault ∧
        fault ≠ .invalidJson ∧ (fault.blame = .unknownHandle ∨ fault.blame = .malformedProgram)) := by
  refine ⟨?_, ?_, ?_, fun order => ⟨checkIn_eq_ok_iff, ?_⟩⟩
  · have passes_iff : d.check = .ok () ↔ d.WellFormed := by
      rw [check_eq]
      exact checkIn_eq_ok_iff
    rw [← passes_iff]
    constructor
    · rintro ⟨p, -, rfl⟩
      exact p.accepted
    · intro passes
      exact ⟨⟨d, passes⟩, Program.ofDescription_of_ok passes, rfl⟩
  · intro fault
    rw [← check_eq]
    cases check : d.check with
    | ok _ =>
      rw [Program.ofDescription_of_ok check]
      exact iff_of_false nofun nofun
    | error other =>
      rw [Program.ofDescription_of_error check]
      simp only [Except.error.injEq]
  · constructor
    · intro wf fault
      exact wf.not_exhibits
    · intro faultless
      by_contra ill
      obtain ⟨fault, fails⟩ := exists_fault ill (.declared d)
      exact faultless fault (exhibits_of_checkIn fails)
  · intro ill
    obtain ⟨fault, fails⟩ := exists_fault ill order
    have present := exhibits_of_checkIn fails
    exact ⟨fault, fails, present, blame_of_exhibits present⟩

/-- Two classes that inherit from each other, and one with an interface that nobody declared. -/
def tangled : Description where
  classes := [
    { id := ⟨0⟩, name := "Hen", superclass := some ⟨1⟩ },
    { id := ⟨1⟩, name := "Egg", superclass := some ⟨0⟩ },
    { id := ⟨2⟩, name := "Basket", interfaces := [⟨9⟩] }]

/-- The last class first. -/
def tangledBackwards : tangled.Order where
  classes := tangled.classes.reverse
  methods := []
  references := []
  classes_perm := List.reverse_perm _
  methods_perm := .refl _
  mem_references := by simp [Description.DeclaresReference, tangled]

/-- The check finds the cycle, or the missing interface, as it comes to them. -/
theorem accepted_iff_wellFormed_tangled :
    ¬ tangled.WellFormed ∧
      Program.ofDescription tangled = .error (.inheritanceCycle ⟨0⟩) ∧
      tangled.checkIn tangledBackwards = .error (.unknownClass ⟨9⟩) ∧
      tangled.Exhibits (.unknownClass ⟨9⟩) := by
  obtain ⟨-, refused, -, orders⟩ := Description.accepted_iff_wellFormed tangled
  have backwards : tangled.checkIn tangledBackwards = .error (.unknownClass ⟨9⟩) := by decide +kernel
  have ill : ¬ tangled.WellFormed := by
    rw [← (orders tangledBackwards).1, backwards]
    nofun
  obtain ⟨fault, fails, present, -⟩ := (orders tangledBackwards).2 ill
  obtain rfl := Except.error.inj (fails.symm.trans backwards)
  exact ⟨ill, (refused _).2 (by decide +kernel), backwards, present⟩

end Inlining
