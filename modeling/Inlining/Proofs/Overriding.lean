import Inlining.Proofs.Hierarchy

/-!
# Overriding and dispatch

What the questions about overriding have to do with what receivers run. A class runs what it declares
itself (`dispatch?_declaringClass`), so whoever redeclares a slot runs something else, or nothing if the
redeclaration has no body. Dispatch follows superclass links and overriding all links. They agree on the
classes that have the class in question on their way up; `overriding_agrees` says how.
-/

namespace Inlining

/-- A list of one thing, however often it comes. -/
theorem eraseDups_eq_singleton {α : Type} [DecidableEq α] {list : List α} {a : α}
    (mem : ∀ x, x ∈ list ↔ x = a) : list.eraseDups = [a] := by
  cases list with
  | nil => exact absurd ((mem a).2 rfl) List.not_mem_nil
  | cons first rest =>
    obtain rfl : first = a := (mem first).1 List.mem_cons_self
    have none_other : rest.filter (fun x => !x == first) = [] := by
      apply List.filter_eq_nil_iff.2
      intro x hx
      simp [(mem x).1 (List.mem_cons_of_mem _ hx)]
    rw [List.eraseDups_cons, none_other, List.eraseDups_nil]

namespace Program

open Description

variable (p : Program) {m : MethodId} {decl other : MethodDecl} {slot : Int} {c k : ClassId}

theorem class?_declaringClass (h : decl ∈ p.methods) : (p.class? decl.declaringClass).isSome :=
  (checkMethods_eq_ok_iff.1 p.parts_accepted.2.2).1 decl h

theorem dispatch?_declaringClass_ne (h : other ∈ p.methods) (hs : other.slot = some slot)
    (hne : other.id ≠ m) : p.dispatch? other.declaringClass slot ≠ some m := by
  rw [p.dispatch?_declaringClass h hs]
  intro runs
  split at runs
  · cases runs
  · exact hne (Option.some.inj runs)

/-- What is not overridden below a class is not overridden below any class that inherits from it. -/
theorem isOverriddenBelow_of_mem_superclassChain (hm : p.method? m = some decl)
    (hs : decl.slot = some slot) (h : p.isOverriddenBelow m c = false) (hc : c ∈ p.superclassChain k) :
    p.isOverriddenBelow m k = false := by
  obtain ⟨runs, kept⟩ := (p.isOverriddenBelow_eq_false_iff hm hs).1 h
  have runs' : p.dispatch? k slot = some m := p.dispatch?_eq_of_mem_superclassChain hc runs kept
  refine (p.isOverriddenBelow_eq_false_iff hm hs).2 ⟨runs', ?_⟩
  apply p.isRedeclaredBelow_eq_false_iff.2
  intro other ho hos hok
  have hoc : p.isSubclassOf other.declaringClass c = true :=
    isSubclassOf_trans hok (p.isSubclassOf_of_mem_superclassChain hc)
  exact .inl (p.id_eq_of_not_redeclared runs kept ho hos hoc)

/-- If a method is overridden below a class, then that class or a declared one below it does not run
it. -/
theorem exists_dispatch?_ne (hm : p.method? m = some decl) (hs : decl.slot = some slot)
    (h : p.isOverriddenBelow m c = true) :
    ∃ k, (k = c ∨ (p.class? k).isSome) ∧ p.isSubclassOf k c = true ∧ p.dispatch? k slot ≠ some m := by
  rw [p.isOverriddenBelow_eq hm hs, Bool.or_eq_true, bne_iff_ne] at h
  rcases h with differs | redeclared
  · exact ⟨c, .inl rfl, isSubclassOf_refl c, differs⟩
  · simp only [isRedeclaredBelow, List.any_eq_true, Bool.and_eq_true, beq_iff_eq, bne_iff_ne]
      at redeclared
    obtain ⟨other, ho, ⟨⟨hos, hne⟩, -⟩, below⟩ := redeclared
    exact ⟨other.declaringClass, .inr (p.class?_declaringClass ho), below,
      p.dispatch?_declaringClass_ne ho hos hne⟩

/-- If the concrete classes at or below a class all run one method, that is the single implementation. -/
theorem singleImplementer?_of_forall {witness : ClassDecl} (hw : witness ∈ p.classes)
    (concrete : witness.isConcrete = true) (below : p.isSubclassOf witness.id c = true)
    (all : ∀ k ∈ p.classes, k.isConcrete = true → p.isSubclassOf k.id c = true →
      p.dispatch? k.id slot = some m) :
    p.singleImplementer? c slot = some m := by
  have mem (x : MethodId) : x ∈ p.implementations c slot ↔ x = m := by
    simp only [implementations, List.mem_filterMap, List.mem_filter, Bool.and_eq_true]
    constructor
    · rintro ⟨k, ⟨hk, hkc, hkb⟩, runs⟩
      exact Option.some.inj (runs.symm.trans (all k hk hkc hkb))
    · rintro rfl
      exact ⟨witness, ⟨hw, concrete, below⟩, all witness hw concrete below⟩
  unfold singleImplementer?
  rw [eraseDups_eq_singleton mem]

/-- **The questions about overriding agree with dispatch.** Of a method with a slot: it is overridden just
in case it is overridden below the class that declares it. If it is not overridden below a class, then
every class that inherits from that one runs it, and it is not overridden below those either; and if
concrete classes lie at or below the class and all of them inherit from it, the method is their single
implementation. If it is overridden below a class, some class at or below that one does not run it. -/
theorem overriding_agrees (p : Program) {m : MethodId} {decl : MethodDecl} {slot : Int}
    (hm : p.method? m = some decl) (hs : decl.slot = some slot) (c : ClassId) :
    p.isOverridden m = p.isOverriddenBelow m decl.declaringClass ∧
    (p.isOverriddenBelow m c = false → ∀ k, c ∈ p.superclassChain k →
      p.dispatch? k slot = some m ∧ p.isOverriddenBelow m k = false) ∧
    (p.isOverriddenBelow m c = true →
      ∃ k, (k = c ∨ (p.class? k).isSome) ∧ p.isSubclassOf k c = true ∧ p.dispatch? k slot ≠ some m) ∧
    (p.isOverriddenBelow m c = false →
      (∃ k ∈ p.classes, k.isConcrete = true ∧ p.isSubclassOf k.id c = true) →
      (∀ k ∈ p.classes, k.isConcrete = true → p.isSubclassOf k.id c = true → c ∈ p.superclassChain k.id) →
      p.singleImplementer? c slot = some m) := by
  have inherited (kept : p.isOverriddenBelow m c = false) (k : ClassId) (hk : c ∈ p.superclassChain k) :
      p.dispatch? k slot = some m ∧ p.isOverriddenBelow m k = false := by
    have below := p.isOverriddenBelow_of_mem_superclassChain hm hs kept hk
    exact ⟨((p.isOverriddenBelow_eq_false_iff hm hs).1 below).1, below⟩
  refine ⟨p.isOverridden_eq_isOverriddenBelow hm hs, inherited, p.exists_dispatch?_ne hm hs, ?_⟩
  rintro kept ⟨witness, hw, concrete, below⟩ onWay
  refine p.singleImplementer?_of_forall hw concrete below fun k hk hkc hkb => ?_
  exact (inherited kept k.id (onWay k hk hkc hkb)).1

/-- Readers and closeables extend each other. Files read by a method that buffered files inherit, and
sockets declare it once more, without body. -/
def readers : Program where
  classes := [
    { id := ⟨0⟩, name := "Reader", interfaces := [⟨1⟩], isInterface := true },
    { id := ⟨1⟩, name := "Closeable", interfaces := [⟨0⟩], isInterface := true },
    { id := ⟨2⟩, name := "File", interfaces := [⟨0⟩] },
    { id := ⟨3⟩, name := "BufferedFile", superclass := some ⟨2⟩, interfaces := [⟨1⟩] },
    { id := ⟨4⟩, name := "Stream", isAbstract := true },
    { id := ⟨5⟩, name := "Socket", superclass := some ⟨4⟩, interfaces := [⟨0⟩] }]
  methods := [
    { id := ⟨0⟩, name := "read", declaringClass := ⟨2⟩, slot := some 3, size := .ofNat _ 12 },
    { id := ⟨1⟩, name := "read", declaringClass := ⟨4⟩, slot := some 3, size := .ofNat _ 8 },
    { id := ⟨2⟩, name := "read", declaringClass := ⟨5⟩, slot := some 3, isAbstract := true }]
  accepted := by decide +kernel

/-- Files are read by one method; streams are not, for a socket has nothing to run. -/
theorem overriding_agrees_readers :
    readers.dispatch? ⟨3⟩ 3 = some ⟨0⟩ ∧ readers.singleImplementer? ⟨2⟩ 3 = some ⟨0⟩ ∧
      readers.isOverridden ⟨1⟩ = true ∧
      ∃ k, readers.isSubclassOf k ⟨4⟩ = true ∧ readers.dispatch? k 3 ≠ some ⟨1⟩ := by
  have file : readers.method? ⟨0⟩ = some
      { id := ⟨0⟩, name := "read", declaringClass := ⟨2⟩, slot := some 3, size := .ofNat _ 12 } := by
    decide +kernel
  have stream : readers.method? ⟨1⟩ = some
      { id := ⟨1⟩, name := "read", declaringClass := ⟨4⟩, slot := some 3, size := .ofNat _ 8 } := by
    decide +kernel
  obtain ⟨-, inherited, -, single⟩ := overriding_agrees readers file rfl ⟨2⟩
  obtain ⟨overridden, -, differs, -⟩ := overriding_agrees readers stream rfl ⟨4⟩
  have kept : readers.isOverriddenBelow ⟨0⟩ ⟨2⟩ = false := by decide +kernel
  have redeclared : readers.isOverriddenBelow ⟨1⟩ ⟨4⟩ = true := by decide +kernel
  obtain ⟨k, -, below, other⟩ := differs redeclared
  exact ⟨(inherited kept ⟨3⟩ (by decide +kernel)).1,
    single kept (by decide +kernel) (by decide +kernel), overridden.trans redeclared, k, below, other⟩

end Program

end Inlining
