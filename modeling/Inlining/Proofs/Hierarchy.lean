import Inlining.Proofs.Acceptance

/-!
# Reachability and dispatch in the class hierarchy

The subclass test is reachability along superclass and interface links
(`isSubclassOf_iff_reaches`); the links may form cycles. Dispatch follows superclass links
only: `superclassChain_eq` unfolds the way up by one class, and `dispatch?_eq_some_iff` says
which class a receiver gets its method from. A class on the way up from another lies above it
(`isSubclassOf_of_mem_superclassChain`), but not the other way round.
-/

namespace Inlining.Description

/-- `c` names `parent` as its superclass or as one of its interfaces. -/
def Link (classes : List ClassDecl) (c parent : ClassId) : Prop :=
  ∃ decl, classes.find? (·.id == c) = some decl ∧ parent ∈ decl.parents

/-- `ancestor` is `c` or can be reached from it by links. -/
def Reaches (classes : List ClassDecl) : ClassId → ClassId → Prop :=
  Relation.ReflTransGen (Link classes)

section Reachability

variable {classes : List ClassDecl} {c a x : ClassId}

theorem find?_without (h : x ≠ c) :
    (without classes c).find? (·.id == x) = classes.find? (·.id == x) := by
  unfold without
  rw [List.find?_filter]
  congr 1
  grind

theorem find?_without_self : (without classes c).find? (·.id == c) = none := by
  simp [without, List.find?_eq_none]

theorem Link.of_without (h : Link (without classes c) x a) : Link classes x a := by
  obtain ⟨decl, hd, ha⟩ := h
  by_cases hx : x = c
  · rw [hx, find?_without_self] at hd; cases hd
  · exact ⟨decl, find?_without hx ▸ hd, ha⟩

/-- A way that may pass `c` either avoids it or goes on from one of its parents without
passing it again. -/
theorem Reaches.avoid {decl : ClassDecl} (hd : classes.find? (·.id == c) = some decl)
    (ha : a ≠ c) (h : Reaches classes x a) :
    (x ≠ c ∧ Reaches (without classes c) x a) ∨
      ∃ parent ∈ decl.parents, Reaches (without classes c) parent a := by
  induction h using Relation.ReflTransGen.head_induction_on with
  | refl => exact .inl ⟨ha, .refl⟩
  | @head x y step _ ih =>
    rcases ih with ⟨hy, ih⟩ | ih
    · obtain ⟨other, ho, hmem⟩ := step
      by_cases hx : x = c
      · subst hx
        rw [hd] at ho
        cases ho
        exact .inr ⟨y, hmem, ih⟩
      · exact .inl ⟨hx, .head ⟨other, (find?_without hx).trans ho, hmem⟩ ih⟩
    · exact .inr ih

theorem Reaches.of_without (h : Reaches (without classes c) x a) : Reaches classes x a :=
  Relation.ReflTransGen.mono (fun _ _ => Link.of_without) _ _ h

/-- The search finds what the pending classes reach through unvisited ones. A class that is
visited is replaced by its parents; whoever needed it can start from one of these. -/
theorem leadsTo_iff (unvisited : List ClassDecl) (pending : List ClassId) :
    leadsTo a unvisited pending = true ↔ ∃ c ∈ pending, Reaches unvisited c a := by
  fun_induction leadsTo a unvisited pending with
  | case1 => simp
  | case2 unvisited pending => exact ⟨fun _ => ⟨a, by simp, .refl⟩, fun _ => rfl⟩
  | case3 unvisited c pending hne hnone ih =>
    rw [ih]
    constructor
    · rintro ⟨x, hx, h⟩
      exact ⟨x, List.mem_cons_of_mem _ hx, h⟩
    · rintro ⟨x, hx, h⟩
      rcases List.mem_cons.1 hx with rfl | hx
      · rcases Relation.ReflTransGen.cases_head h with rfl | ⟨y, ⟨decl, hd, _⟩, _⟩
        · exact absurd rfl hne
        · rw [hnone] at hd; cases hd
      · exact ⟨x, hx, h⟩
  | case4 unvisited c pending hne decl hd ih =>
    have hid : decl.id = c := by simpa using List.find?_some hd
    rw [ih, hid]
    constructor
    · rintro ⟨x, hx, h⟩
      rcases List.mem_append.1 hx with hx | hx
      · exact ⟨c, by simp, .head ⟨decl, hd, hx⟩ h.of_without⟩
      · exact ⟨x, List.mem_cons_of_mem _ hx, h.of_without⟩
    · rintro ⟨x, hx, h⟩
      rcases h.avoid hd (Ne.symm hne) with ⟨hxc, h⟩ | ⟨parent, hp, h⟩
      · exact ⟨x, List.mem_append_right _ ((List.mem_cons.1 hx).resolve_left hxc), h⟩
      · exact ⟨parent, List.mem_append_left _ hp, h⟩

end Reachability

variable {d : Description}

/-- The subclass test is reachability, whatever cycles the links form. -/
theorem isSubclassOf_iff_reaches {c a : ClassId} :
    d.isSubclassOf c a = true ↔ Reaches d.classes c a := by
  rw [isSubclassOf, leadsTo_iff]
  simp

theorem isSubclassOf_refl (c : ClassId) : d.isSubclassOf c c = true :=
  isSubclassOf_iff_reaches.2 .refl

theorem isSubclassOf_trans {a b c : ClassId} (hab : d.isSubclassOf a b = true)
    (hbc : d.isSubclassOf b c = true) : d.isSubclassOf a c = true :=
  isSubclassOf_iff_reaches.2
    ((isSubclassOf_iff_reaches.1 hab).trans (isSubclassOf_iff_reaches.1 hbc))

section Chain

variable {classes : List ClassDecl} {c v : ClassId}

theorem without_comm (a b : ClassId) :
    without (without classes a) b = without (without classes b) a := by
  simp only [without, List.filter_filter]
  congr 1
  grind

theorem chainFrom_eq (classes : List ClassDecl) (c : ClassId) :
    chainFrom classes c =
      c :: ((classes.find? (·.id == c)).bind (·.superclass)).elim []
        (chainFrom (without classes c)) := by
  rw [chainFrom]
  cases hd : classes.find? (·.id == c) with
  | none => rfl
  | some decl => cases hs : decl.superclass <;> simp [hs]

theorem self_mem_chainFrom : c ∈ chainFrom classes c := by
  rw [chainFrom_eq]; exact List.mem_cons_self

/-- A class that the way up does not meet may be taken away from it. -/
theorem chainFrom_without (h : v ∉ chainFrom (without classes v) c) :
    chainFrom (without classes v) c = chainFrom classes c := by
  induction hn : classes.length using Nat.strong_induction_on generalizing classes c with
  | _ n ih =>
    have hvc : c ≠ v := fun e => h (e ▸ self_mem_chainFrom)
    rw [chainFrom_eq, find?_without hvc] at h ⊢
    rw [chainFrom_eq classes]
    cases hd : classes.find? (·.id == c) with
    | none => rfl
    | some decl =>
      cases hs : decl.superclass with
      | none => simp [hs]
      | some parent =>
        simp only [hd, hs, Option.bind_some, Option.elim_some, List.mem_cons, not_or] at h ⊢
        rw [without_comm] at h ⊢
        rw [ih _ (hn ▸ length_without_lt hd) h.2 rfl]

end Chain

theorem superclassChain_of_undeclared {c : ClassId} (h : d.class? c = none) :
    d.superclassChain c = [c] := by
  unfold superclassChain class? at *
  rw [chainFrom_eq, h]
  rfl

/-- Where the way up does not return, it is the class and then the way up from its superclass. -/
theorem superclassChain_eq_of_nodup {c : ClassId} (h : (d.superclassChain c).Nodup) :
    d.superclassChain c = c :: ((d.class? c).bind (·.superclass)).elim [] d.superclassChain := by
  unfold superclassChain at *
  rw [chainFrom_eq] at h ⊢
  change (c :: ((d.class? c).bind (·.superclass)).elim _ _).Nodup at h
  change c :: ((d.class? c).bind (·.superclass)).elim _ _ = _
  cases hs : (d.class? c).bind (·.superclass) with
  | none => rfl
  | some parent =>
    simp only [hs, Option.elim_some, List.nodup_cons] at h ⊢
    rw [chainFrom_without h.1]

end Inlining.Description

namespace Inlining.Program

open Description

variable (p : Program) {c a k : ClassId} {slot : Int} {m : MethodId}

/-- The way up from a class is the class and then the way up from its superclass. -/
theorem superclassChain_eq (c : ClassId) :
    p.superclassChain c =
      c :: ((p.class? c).bind (·.superclass)).elim [] p.superclassChain := by
  cases hd : p.class? c with
  | none => exact superclassChain_of_undeclared hd
  | some decl =>
    rw [superclassChain_eq_of_nodup (p.superclassChain_nodup hd), hd]

theorem isSubclassOf_superclass {parent : ClassId} {decl : ClassDecl} (hd : p.class? c = some decl)
    (hs : decl.superclass = some parent) : p.isSubclassOf c parent = true :=
  isSubclassOf_iff_reaches.2 (.single ⟨decl, hd, by simp [ClassDecl.parents, hs]⟩)

/-- The way up from `c` goes through `a` just in case it ends with the way up from `a`; the
classes in front of that lie below `a`. -/
theorem superclassChain_split (h : a ∈ p.superclassChain c) :
    p.isSubclassOf c a = true ∧ ∃ below, p.superclassChain c = below ++ p.superclassChain a ∧
      ∀ x ∈ below, p.isSubclassOf x a = true := by
  induction hn : (p.superclassChain c).length generalizing c with
  | zero => rw [List.length_eq_zero_iff.1 hn] at h; cases h
  | succ n ih =>
    by_cases hca : c = a
    · subst hca
      exact ⟨isSubclassOf_refl c, [], rfl, by simp⟩
    · rw [superclassChain_eq] at h hn
      cases hd : p.class? c with
      | none => simp [hd, Ne.symm hca] at h
      | some decl =>
        cases hs : decl.superclass with
        | none => simp [hd, hs, Ne.symm hca] at h
        | some parent =>
          simp only [hd, hs, Option.bind_some, Option.elim_some, List.mem_cons, Ne.symm hca,
            false_or, List.length_cons, Nat.add_right_cancel_iff] at h hn
          obtain ⟨hpa, below, hsplit, hbelow⟩ := ih h hn
          have hc : p.isSubclassOf c a = true :=
            isSubclassOf_trans (p.isSubclassOf_superclass hd hs) hpa
          refine ⟨hc, c :: below, ?_, List.forall_mem_cons.2 ⟨hc, hbelow⟩⟩
          rw [superclassChain_eq]
          simp [hd, hs, hsplit]

theorem isSubclassOf_of_mem_superclassChain (h : a ∈ p.superclassChain c) :
    p.isSubclassOf c a = true :=
  (p.superclassChain_split h).1

theorem dispatch?_eq_some_iff :
    p.dispatch? c slot = some m ↔
      ∃ decl, (p.superclassChain c).findSome? (p.slotMethod? · slot) = some decl ∧
        decl.isAbstract = false ∧ decl.id = m := by
  simp [dispatch?, Option.bind_eq_some_iff]

/-- The method that a receiver runs is declared by a class on the way up, for the slot and with
a body. -/
theorem dispatch?_declared (h : p.dispatch? c slot = some m) :
    ∃ decl, p.method? m = some decl ∧ decl.declaringClass ∈ p.superclassChain c ∧
      decl.slot = some slot ∧ decl.isAbstract = false := by
  obtain ⟨decl, hfind, habs, rfl⟩ := p.dispatch?_eq_some_iff.1 h
  obtain ⟨x, hx, hslot⟩ := List.exists_of_findSome?_eq_some hfind
  obtain ⟨hmem, rfl, hs⟩ := p.slotMethod?_eq_some_iff.1 hslot
  exact ⟨decl, p.method?_eq_some_iff.2 ⟨hmem, rfl⟩, hx, hs, habs⟩

/-- A class runs the method that it declares for a slot itself, and nothing if that one has no body. -/
theorem dispatch?_declaringClass {decl : MethodDecl} (h : decl ∈ p.methods) (hs : decl.slot = some slot) :
    p.dispatch? decl.declaringClass slot = if decl.isAbstract then none else some decl.id := by
  have first : (p.superclassChain decl.declaringClass).findSome? (p.slotMethod? · slot) = some decl := by
    rw [superclassChain_eq, List.findSome?_cons, p.slotMethod?_eq_some_iff.2 ⟨h, rfl, hs⟩]
  unfold dispatch?
  rw [first, Option.bind_some]

theorem isRedeclaredBelow_eq_false_iff :
    p.isRedeclaredBelow m slot c = false ↔
      ∀ other ∈ p.methods, other.slot = some slot → p.isSubclassOf other.declaringClass c = true →
        other.id = m ∨ other.declaringClass = c := by
  simp only [isRedeclaredBelow, List.any_eq_false, Bool.and_eq_true, beq_iff_eq, bne_iff_ne,
    not_and, Bool.not_eq_true]
  grind

/-- What a class at or below `c` declares for the slot is the method that `c` runs, if nobody
below `c` redeclares that. -/
theorem id_eq_of_not_redeclared {other : MethodDecl} (hd : p.dispatch? c slot = some m)
    (hr : p.isRedeclaredBelow m slot c = false) (ho : other ∈ p.methods)
    (hs : other.slot = some slot) (hsub : p.isSubclassOf other.declaringClass c = true) :
    other.id = m := by
  rcases p.isRedeclaredBelow_eq_false_iff.1 hr other ho hs hsub with h | h
  · exact h
  · -- `c` declares `other` itself, so it is the first that the way up from `c` meets
    obtain ⟨decl, hfind, -, rfl⟩ := p.dispatch?_eq_some_iff.1 hd
    rw [superclassChain_eq, List.findSome?_cons, p.slotMethod?_eq_some_iff.2 ⟨ho, h, hs⟩] at hfind
    rw [Option.some.inj hfind]

/-- What `c` runs, every class runs that has `c` on its way up, if nobody below `c` redeclares
it. -/
theorem dispatch?_eq_of_mem_superclassChain (hc : c ∈ p.superclassChain k)
    (hd : p.dispatch? c slot = some m) (hr : p.isRedeclaredBelow m slot c = false) :
    p.dispatch? k slot = some m := by
  obtain ⟨decl, hfind, habs, rfl⟩ := p.dispatch?_eq_some_iff.1 hd
  refine p.dispatch?_eq_some_iff.2 ⟨decl, ?_, habs, rfl⟩
  obtain ⟨-, below, hsplit, hbelow⟩ := p.superclassChain_split hc
  rw [hsplit]
  clear hsplit
  induction below with
  | nil => exact hfind
  | cons x below ih =>
    rw [List.forall_mem_cons] at hbelow
    rw [List.cons_append, List.findSome?_cons]
    cases hx : p.slotMethod? x slot with
    | none => exact ih hbelow.2
    | some other =>
      obtain ⟨ho, rfl, hs⟩ := p.slotMethod?_eq_some_iff.1 hx
      have hid := p.id_eq_of_not_redeclared hd hr ho hs hbelow.1
      obtain ⟨y, -, hy⟩ := List.exists_of_findSome?_eq_some hfind
      exact congrArg some (p.eq_of_id_eq ho (p.slotMethod?_eq_some_iff.1 hy).1 hid)

/-- A receiver runs the method that `c` runs just in case it gets its method from a class at or
below `c` or from the class that declares it, if nobody below `c` redeclares it. -/
theorem dispatch?_eq_iff_of_not_redeclared {other : MethodId} (hd : p.dispatch? c slot = some m)
    (hr : p.isRedeclaredBelow m slot c = false) (hk : p.dispatch? k slot = some other) :
    other = m ↔ ∃ n, p.classOf? other = some n ∧
      (p.isSubclassOf n c = true ∨ p.classOf? m = some n) := by
  obtain ⟨decl, hdecl, -, hs, -⟩ := p.dispatch?_declared hk
  obtain ⟨hmem, rfl⟩ := p.method?_eq_some_iff.1 hdecl
  have hclass : p.classOf? decl.id = some decl.declaringClass := by simp [classOf?, hdecl]
  constructor
  · rintro rfl
    exact ⟨_, hclass, .inr hclass⟩
  · rintro ⟨n, hn, h | h⟩
    · obtain rfl := Option.some.inj (hclass.symm.trans hn)
      exact p.id_eq_of_not_redeclared hd hr hmem hs h
    · obtain rfl := Option.some.inj (hclass.symm.trans hn)
      obtain ⟨bound, hbound, -, hbs, -⟩ := p.dispatch?_declared hd
      obtain ⟨hbmem, rfl⟩ := p.method?_eq_some_iff.1 hbound
      have hsame : bound.declaringClass = decl.declaringClass := by
        simpa [classOf?, hbound] using h
      rw [p.eq_of_slot_eq hbmem hmem hsame hbs hs]

/-- A method is overridden somewhere at or below a class, unless the class runs it and nobody below the
class redeclares it. -/
theorem isOverriddenBelow_eq {decl : MethodDecl} (hm : p.method? m = some decl)
    (hs : decl.slot = some slot) :
    p.isOverriddenBelow m c = (p.dispatch? c slot != some m || p.isRedeclaredBelow m slot c) := by
  simp only [isOverriddenBelow, hm, hs, Option.bind_some]

theorem isOverriddenBelow_eq_false_iff {decl : MethodDecl} (hm : p.method? m = some decl)
    (hs : decl.slot = some slot) :
    p.isOverriddenBelow m c = false ↔
      p.dispatch? c slot = some m ∧ p.isRedeclaredBelow m slot c = false := by
  rw [p.isOverriddenBelow_eq hm hs, Bool.or_eq_false_iff, bne_eq_false_iff_eq]

/-- To be overridden at all is to be overridden below the class that declares the method. -/
theorem isOverridden_eq_isOverriddenBelow {decl : MethodDecl} (hm : p.method? m = some decl)
    (hs : decl.slot = some slot) :
    p.isOverridden m = p.isOverriddenBelow m decl.declaringClass := by
  obtain ⟨hmem, rfl⟩ := p.method?_eq_some_iff.1 hm
  rw [p.isOverriddenBelow_eq hm hs, p.dispatch?_declaringClass hmem hs]
  simp only [isOverridden, hm, hs]
  cases decl.isAbstract <;> simp

/-- A method that is not overridden is what the class that declares it runs, and nobody below
redeclares it. -/
theorem dispatch?_of_not_overridden {decl : MethodDecl} (hm : p.method? m = some decl)
    (hs : decl.slot = some slot) (h : p.isOverridden m = false) :
    p.dispatch? decl.declaringClass slot = some m ∧
      p.isRedeclaredBelow m slot decl.declaringClass = false := by
  rw [p.isOverridden_eq_isOverriddenBelow hm hs] at h
  exact (p.isOverriddenBelow_eq_false_iff hm hs).1 h

end Inlining.Program
