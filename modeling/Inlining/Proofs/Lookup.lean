import Inlining.Proofs.Validation

/-!
# The look-up of methods

Dispatch as a loop that goes up from class to class until one of them declares a method for the slot. It
keeps nothing but the class that it has come to, so it would go round a cycle of superclass links for good.
An accepted description has none (`Program.acyclic`), and there the loop follows the way up
(`MethodLookup.within_eq`, `MethodLookup.asked_prefix`). Which method is nearest is said by links alone
(`Description.IsNearest`): whoever else declares one for the slot is further up. `lookup_finds_nearest`
puts this together.
-/

namespace Inlining

open Description

/-- A class is described as having the superclass, by any of its declarations. -/
def NamesSuperclass (classes : List ClassDecl) (c parent : ClassId) : Prop :=
  ∃ decl ∈ classes, decl.id = c ∧ decl.superclass = some parent

namespace MethodLookup

/-- One turn of the look-up for a slot: the answer, or the class to go on with. It is over if there is no
class to ask, or if the class declares a method for the slot; a method without body answers nothing. -/
def turn (d : Description) (slot : Int) : Option ClassId → Option ClassId ⊕ Option MethodId
  | none => .inr none
  | some c =>
    match d.slotMethod? c slot with
    | some m => .inr (if (d.method? m.id).any (·.isAbstract) then none else some m.id)
    | none => .inl ((d.class? c).bind (·.superclass))

/-- What a look-up answers within a number of turns, if it is over by then. -/
def within (d : Description) (slot : Int) : Nat → Option ClassId → Option (Option MethodId)
  | 0, _ => none
  | turns + 1, cursor =>
    match turn d slot cursor with
    | .inl next => within d slot turns next
    | .inr answer => some answer

/-- The classes that a look-up asks in a number of turns, one after the other. -/
def asked (d : Description) (slot : Int) : Nat → Option ClassId → List ClassId
  | 0, _ => []
  | turns + 1, cursor =>
    cursor.toList ++
      match turn d slot cursor with
      | .inl next => asked d slot turns next
      | .inr _ => []

end MethodLookup

namespace Description

/-- A method that is declared for the slot at or above `c`, where whoever else declares one at or above `c`
is at or above its class. -/
structure IsNearest (d : Description) (c : ClassId) (slot : Int) (decl : MethodDecl) : Prop where
  declared : decl ∈ d.methods
  forSlot : decl.slot = some slot
  above : Relation.ReflTransGen (Inherits d.classes) c decl.declaringClass
  nearest : ∀ other ∈ d.methods, other.slot = some slot →
    Relation.ReflTransGen (Inherits d.classes) c other.declaringClass →
    Relation.ReflTransGen (Inherits d.classes) decl.declaringClass other.declaringClass

theorem length_chainFrom_le (classes : List ClassDecl) (c : ClassId) :
    (chainFrom classes c).length ≤ classes.length + 1 := by
  induction classes, c using chainFrom_induction with
  | top classes c top => simp [chainFrom_of_top top]
  | up classes c parent link ih =>
    obtain ⟨decl, hd, -⟩ := id link
    have := length_without_lt hd
    rw [chainFrom_of_inherits link, List.length_cons]
    omega

/-- Where every class is declared once, the link that it names is the link that it has. -/
theorem inherits_of_names {classes : List ClassDecl} {c parent : ClassId}
    (distinct : (classes.map (·.id)).Nodup) (h : NamesSuperclass classes c parent) :
    Inherits classes c parent := by
  obtain ⟨decl, hd, rfl, hs⟩ := h
  obtain ⟨first, found⟩ := Option.isSome_iff_exists.1
    (List.find?_isSome.2 ⟨decl, hd, by simp⟩ : (classes.find? (·.id == decl.id)).isSome)
  have same : first.id = decl.id := by simpa using List.find?_some found
  have first_eq : first = decl :=
    List.inj_on_of_nodup_map distinct (List.mem_of_find?_eq_some found) hd same
  exact ⟨decl, first_eq ▸ found, hs⟩

/-- A description in which a class reaches itself by the superclasses that are named is ill-formed. -/
theorem not_wellFormed_of_cycle {d : Description} {c : ClassId}
    (cycle : Relation.TransGen (NamesSuperclass d.classes) c c) : ¬ d.WellFormed := by
  intro wf
  exact wf.acyclic c (Relation.TransGen.mono (fun _ _ => inherits_of_names wf.classes_distinct) _ _ cycle)

end Description

namespace Program

variable (p : Program) {c parent : ClassId} {slot : Int} {decl : MethodDecl}

theorem toDescription_of_ofDescription {d : Description} (h : ofDescription d = .ok p) :
    p.toDescription = d := by
  unfold ofDescription at h
  split at h
  · cases h
    rfl
  · cases h

theorem wellFormed : p.WellFormed := by
  have passes : p.checkIn (.declared p.toDescription) = .ok () := by
    rw [← check_eq]
    exact p.accepted
  exact checkIn_eq_ok_iff.1 passes

/-- No class of a program is above itself. -/
theorem acyclic (c : ClassId) : ¬ Relation.TransGen (Inherits p.classes) c c := p.wellFormed.acyclic c

theorem nodup_superclassChain (c : ClassId) : (p.superclassChain c).Nodup := by
  cases hd : p.class? c with
  | none => simp [superclassChain_of_undeclared hd]
  | some decl => exact p.superclassChain_nodup hd

theorem method?_of_slotMethod? {m : MethodDecl} (h : p.slotMethod? c slot = some m) :
    p.method? m.id = some m :=
  p.method?_eq_some_iff.2 ⟨(p.slotMethod?_eq_some_iff.1 h).1, rfl⟩

theorem superclassChain_of_inherits (link : Inherits p.classes c parent) :
    p.superclassChain c = c :: p.superclassChain parent := by
  have up : (p.class? c).bind (·.superclass) = some parent := inherits_iff.1 link
  rw [p.superclassChain_eq, up, Option.elim_some]

theorem superclassChain_of_top (top : ∀ parent, ¬ Inherits p.classes c parent) :
    p.superclassChain c = [c] :=
  chainFrom_of_top top

/-- Induction on the way up of a program: every class comes after its superclass. -/
theorem superclass_induction {P : ClassId → Prop}
    (top : ∀ c, (∀ parent, ¬ Inherits p.classes c parent) → P c)
    (up : ∀ c parent, Inherits p.classes c parent → P parent → P c) (c : ClassId) : P c := by
  induction hn : (p.superclassChain c).length using Nat.strong_induction_on generalizing c with
  | _ n ih =>
    by_cases link : ∃ parent, Inherits p.classes c parent
    · obtain ⟨parent, link⟩ := link
      have shorter : (p.superclassChain parent).length < n := by
        rw [← hn, p.superclassChain_of_inherits link]
        exact Nat.lt_succ_self _
      exact up c parent link (ih _ shorter parent rfl)
    · exact top c (not_exists.1 link)

/-- The first method on the way up is the class's own, or else the first on the way up from its superclass. -/
theorem firstOnWayUp_eq (c : ClassId) (slot : Int) :
    (p.superclassChain c).findSome? (p.slotMethod? · slot) =
      (p.slotMethod? c slot).or (((p.class? c).bind (·.superclass)).bind fun parent =>
        (p.superclassChain parent).findSome? (p.slotMethod? · slot)) := by
  rw [superclassChain_eq, List.findSome?_cons]
  cases p.slotMethod? c slot with
  | some m => rfl
  | none => cases (p.class? c).bind (·.superclass) <;> rfl

/-- A class that declares a method for the slot runs that, and any other class runs what its superclass
runs. -/
theorem dispatch?_eq (c : ClassId) (slot : Int) :
    p.dispatch? c slot =
      match p.slotMethod? c slot with
      | some m => if m.isAbstract then none else some m.id
      | none => ((p.class? c).bind (·.superclass)).bind (p.dispatch? · slot) := by
  unfold dispatch?
  rw [firstOnWayUp_eq]
  cases p.slotMethod? c slot with
  | some m => rfl
  | none => cases (p.class? c).bind (·.superclass) <;> rfl

/-- Links reach just what the way up meets. -/
theorem inherits_iff_mem_superclassChain {a : ClassId} :
    Relation.ReflTransGen (Inherits p.classes) c a ↔ a ∈ p.superclassChain c := by
  constructor
  · exact mem_superclassChain_of_inherits fun decl _ => p.nodup_superclassChain decl.id
  · exact inherits_of_mem_chainFrom

/-- The method that a class declares for the slot is nearest to it, and else what is nearest to its
superclass. -/
theorem isNearest_iff :
    p.IsNearest c slot decl ↔
      p.slotMethod? c slot = some decl ∨
        p.slotMethod? c slot = none ∧
          ∃ parent, Inherits p.classes c parent ∧ p.IsNearest parent slot decl := by
  constructor
  · rintro ⟨declared, forSlot, above, nearest⟩
    rcases Relation.ReflTransGen.cases_head above with rfl | ⟨parent, link, rest⟩
    · exact .inl (p.slotMethod?_eq_some_iff.2 ⟨declared, rfl, forSlot⟩)
    · -- a method of the class itself would be nearer, and its class above itself
      have own : p.slotMethod? c slot = none := by
        by_contra some_own
        obtain ⟨other, ho⟩ := Option.ne_none_iff_exists'.1 some_own
        obtain ⟨hmem, rfl, hs⟩ := p.slotMethod?_eq_some_iff.1 ho
        have back := nearest other hmem hs .refl
        exact p.acyclic _ (Relation.TransGen.head' link (rest.trans back))
      refine .inr ⟨own, parent, link, declared, forSlot, rest, fun other ho hs way => ?_⟩
      exact nearest other ho hs (.head link way)
  · rintro (own | ⟨own, parent, link, declared, forSlot, above, nearest⟩)
    · obtain ⟨declared, rfl, forSlot⟩ := p.slotMethod?_eq_some_iff.1 own
      exact ⟨declared, forSlot, .refl, fun _ _ _ way => way⟩
    · refine ⟨declared, forSlot, .head link above, fun other ho hs way => ?_⟩
      rcases Relation.ReflTransGen.cases_head way with rfl | ⟨parent', link', rest⟩
      · rw [p.slotMethod?_eq_some_iff.2 ⟨ho, rfl, hs⟩] at own
        cases own
      · have same : parent' = parent :=
          Option.some.inj ((inherits_iff.1 link').symm.trans (inherits_iff.1 link))
        exact nearest other ho hs (same ▸ rest)

/-- What the way up meets first is nearest. -/
theorem firstOnWayUp_eq_some_iff :
    (p.superclassChain c).findSome? (p.slotMethod? · slot) = some decl ↔ p.IsNearest c slot decl := by
  induction c using p.superclass_induction with
  | top c top =>
    rw [isNearest_iff, p.superclassChain_of_top top]
    simp [top]
  | up c parent link ih =>
    have up : (p.class? c).bind (·.superclass) = some parent := inherits_iff.1 link
    have only (other : ClassId) : Inherits p.classes c other ↔ other = parent := by
      rw [inherits_iff]
      exact ⟨fun h => Option.some.inj (h.symm.trans up), fun h => h ▸ up⟩
    rw [isNearest_iff, firstOnWayUp_eq, up, Option.bind_some]
    simp only [only, exists_eq_left]
    rw [← ih]
    cases p.slotMethod? c slot <;> simp

theorem dispatch?_eq_some_iff_nearest {m : MethodId} :
    p.dispatch? c slot = some m ↔
      ∃ decl, p.IsNearest c slot decl ∧ decl.isAbstract = false ∧ decl.id = m := by
  rw [dispatch?_eq_some_iff]
  simp only [firstOnWayUp_eq_some_iff]

/-- The way up meets no method for the slot if no class at or above it declares one. -/
theorem firstOnWayUp_eq_none_iff :
    (p.superclassChain c).findSome? (p.slotMethod? · slot) = none ↔
      ∀ decl ∈ p.methods, decl.slot = some slot →
        ¬ Relation.ReflTransGen (Inherits p.classes) c decl.declaringClass := by
  rw [List.findSome?_eq_none_iff]
  constructor
  · intro none decl hd hs way
    have := none _ (p.inherits_iff_mem_superclassChain.1 way)
    rw [p.slotMethod?_eq_some_iff.2 ⟨hd, rfl, hs⟩] at this
    cases this
  · intro none x hx
    by_contra some_own
    obtain ⟨decl, hd⟩ := Option.ne_none_iff_exists'.1 some_own
    obtain ⟨hmem, rfl, hs⟩ := p.slotMethod?_eq_some_iff.1 hd
    exact none decl hmem hs (p.inherits_iff_mem_superclassChain.2 hx)

/-- A class runs nothing if the nearest method has no body, or if no method is declared at or above it. -/
theorem dispatch?_eq_none_iff_nearest :
    p.dispatch? c slot = none ↔
      (∃ decl, p.IsNearest c slot decl ∧ decl.isAbstract = true) ∨
        ∀ decl ∈ p.methods, decl.slot = some slot →
          ¬ Relation.ReflTransGen (Inherits p.classes) c decl.declaringClass := by
  rw [← firstOnWayUp_eq_none_iff]
  simp only [← firstOnWayUp_eq_some_iff]
  unfold dispatch?
  cases (p.superclassChain c).findSome? (p.slotMethod? · slot) <;> simp

end Program

namespace MethodLookup

variable {p : Program} {c : ClassId} {slot : Int} {turns : Nat}

/-- A turn at a class answers what the class runs, or goes on because the class declares nothing. -/
theorem turn_cases (p : Program) (c : ClassId) (slot : Int) :
    turn p.toDescription slot (some c) = .inr (p.dispatch? c slot) ∨
      p.slotMethod? c slot = none ∧
        turn p.toDescription slot (some c) = .inl ((p.class? c).bind (·.superclass)) := by
  cases hm : p.slotMethod? c slot with
  | some m =>
    left
    rw [p.dispatch?_eq, hm]
    simp [turn, hm, p.method?_of_slotMethod? hm]
  | none => exact .inr ⟨rfl, by simp [turn, hm]⟩

/-- The look-up is over once it had more turns than there are classes on the way up, and answers what the
class runs. -/
theorem within_eq (h : (p.superclassChain c).length < turns) :
    within p.toDescription slot turns (some c) = some (p.dispatch? c slot) := by
  induction turns generalizing c with
  | zero => omega
  | succ turns ih =>
    unfold within
    rcases turn_cases p c slot with ends | ⟨own, goesOn⟩
    · rw [ends]
    · rw [goesOn, p.dispatch?_eq, own]
      rw [p.superclassChain_eq] at h
      cases hp : (p.class? c).bind (·.superclass) with
      | none =>
        obtain ⟨more, rfl⟩ : ∃ more, turns = more + 1 := ⟨turns - 1, by simp [hp] at h; omega⟩
        rfl
      | some parent =>
        simp only [hp, Option.elim_some, List.length_cons] at h
        exact ih (by omega)

theorem asked_none (turns : Nat) : asked p.toDescription slot turns none = [] := by
  cases turns <;> rfl

/-- Whom the look-up asks, it meets on the way up, in that order. -/
theorem asked_prefix (turns : Nat) (c : ClassId) :
    asked p.toDescription slot turns (some c) <+: p.superclassChain c := by
  induction turns generalizing c with
  | zero => exact List.nil_prefix
  | succ turns ih =>
    unfold asked
    rw [p.superclassChain_eq]
    apply List.cons_prefix_cons.2
    refine ⟨rfl, ?_⟩
    rcases turn_cases p c slot with ends | ⟨-, goesOn⟩
    · simp [ends]
    · rw [goesOn]
      cases (p.class? c).bind (·.superclass) with
      | none => simp [asked_none]
      | some parent => exact ih parent

end MethodLookup

/-- **A look-up ends at the nearest declaration.** A description in which some class is above itself, by
any superclass that is named for it, is refused, in whatever order it is checked. In a program the look-up
of a method for a slot is over after at most two turns more than there are classes, from every class,
declared or not. It asks no class twice, however long it goes on, and answers what the class runs. That is
the method nearest to the class, unless it has no body; nothing is run if it has none, or if no class on the
way up declares a method for the slot. -/
theorem Description.lookup_finds_nearest (d : Description) :
    ((∃ c, Relation.TransGen (NamesSuperclass d.classes) c c) →
      (∃ fault, Program.ofDescription d = .error fault) ∧
        ∀ order : d.Order, ∃ fault, d.checkIn order = .error fault) ∧
    ∀ p, Program.ofDescription d = .ok p → ∀ (c : ClassId) (slot : Int),
      MethodLookup.within d slot (d.classes.length + 2) (some c) = some (p.dispatch? c slot) ∧
      (∀ turns, (MethodLookup.asked d slot turns (some c)).Nodup) ∧
      (∀ m, p.dispatch? c slot = some m ↔
        ∃ decl, d.IsNearest c slot decl ∧ decl.isAbstract = false ∧ decl.id = m) ∧
      (p.dispatch? c slot = none ↔
        (∃ decl, d.IsNearest c slot decl ∧ decl.isAbstract = true) ∨
          ∀ decl ∈ d.methods, decl.slot = some slot →
            ¬ Relation.ReflTransGen (Inherits d.classes) c decl.declaringClass) := by
  constructor
  · rintro ⟨c, cycle⟩
    have ill : ¬ d.WellFormed := not_wellFormed_of_cycle cycle
    obtain ⟨fault, fails⟩ := exists_fault ill (.declared d)
    rw [← check_eq] at fails
    exact ⟨⟨fault, Program.ofDescription_of_error fails⟩, exists_fault ill⟩
  · intro p made c slot
    obtain rfl : p.toDescription = d := p.toDescription_of_ofDescription made
    have enough : (p.superclassChain c).length < p.classes.length + 2 :=
      Nat.lt_succ_of_le (length_chainFrom_le p.classes c)
    refine ⟨MethodLookup.within_eq enough, fun turns => ?_, fun m => p.dispatch?_eq_some_iff_nearest,
      p.dispatch?_eq_none_iff_nearest⟩
    exact (p.nodup_superclassChain c).sublist (MethodLookup.asked_prefix turns c).sublist

/-- Lists redeclare the length of collections without a body, and array lists give it one. Array lists are a
collection again by an interface, which is no superclass. -/
def collections : Program where
  classes := [
    { id := ⟨0⟩, name := "Collection" },
    { id := ⟨1⟩, name := "List", superclass := some ⟨0⟩, isAbstract := true },
    { id := ⟨2⟩, name := "ArrayList", superclass := some ⟨1⟩, interfaces := [⟨0⟩] },
    { id := ⟨3⟩, name := "NameList", superclass := some ⟨2⟩ },
    { id := ⟨4⟩, name := "LinkedList", superclass := some ⟨1⟩ }]
  methods := [
    { id := ⟨0⟩, name := "length", declaringClass := ⟨0⟩, slot := some 7, size := .ofNat _ 3 },
    { id := ⟨1⟩, name := "length", declaringClass := ⟨1⟩, slot := some 7, isAbstract := true },
    { id := ⟨2⟩, name := "length", declaringClass := ⟨2⟩, slot := some 7, size := .ofNat _ 5 }]
  accepted := by decide +kernel

/-- Three classes that go round. -/
def roundabout : Description where
  classes := [
    { id := ⟨0⟩, name := "North", superclass := some ⟨1⟩ },
    { id := ⟨1⟩, name := "East", superclass := some ⟨2⟩ },
    { id := ⟨2⟩, name := "West", superclass := some ⟨0⟩ }]

/-- A list of names has the length of array lists. A linked list comes to the one without body first, and
has none. The roundabout is refused. -/
theorem lookup_finds_nearest_collections :
    (∃ decl, collections.IsNearest ⟨3⟩ 7 decl ∧ decl.isAbstract = false ∧ decl.id = ⟨2⟩) ∧
      MethodLookup.within collections.toDescription 7 7 (some ⟨4⟩) = some none ∧
      (∃ decl, collections.IsNearest ⟨4⟩ 7 decl ∧ decl.isAbstract = true) ∧
      (MethodLookup.asked collections.toDescription 7 100 (some ⟨4⟩)).Nodup ∧
      ∃ fault, Program.ofDescription roundabout = .error fault := by
  have made : Program.ofDescription collections.toDescription = .ok collections :=
    Program.ofDescription_of_ok collections.accepted
  obtain ⟨-, accepted⟩ := Description.lookup_finds_nearest collections.toDescription
  obtain ⟨-, -, runs, -⟩ := accepted collections made ⟨3⟩ 7
  obtain ⟨ends, nodup, -, nothing⟩ := accepted collections made ⟨4⟩ 7
  have names : collections.dispatch? ⟨3⟩ 7 = some ⟨2⟩ := by decide +kernel
  have linked : collections.dispatch? ⟨4⟩ 7 = none := by decide +kernel
  have link : Inherits collections.classes ⟨4⟩ ⟨1⟩ := inherits_iff.2 (by decide +kernel)
  have cycle : Relation.TransGen (NamesSuperclass roundabout.classes) ⟨0⟩ ⟨0⟩ := by
    have north : NamesSuperclass roundabout.classes ⟨0⟩ ⟨1⟩ := ⟨_, .head _, rfl, rfl⟩
    have east : NamesSuperclass roundabout.classes ⟨1⟩ ⟨2⟩ := ⟨_, .tail _ (.head _), rfl, rfl⟩
    have west : NamesSuperclass roundabout.classes ⟨2⟩ ⟨0⟩ :=
      ⟨_, .tail _ (.tail _ (.head _)), rfl, rfl⟩
    exact .head north (.head east (.single west))
  refine ⟨(runs ⟨2⟩).1 names, ends.trans (congrArg some linked), ?_, nodup 100,
    ((Description.lookup_finds_nearest roundabout).1 ⟨⟨0⟩, cycle⟩).1⟩
  apply (nothing.1 linked).resolve_right
  intro nobody
  exact nobody _ (.tail _ (.head _)) rfl (.single link)

end Inlining
