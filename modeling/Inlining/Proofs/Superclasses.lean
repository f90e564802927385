import Inlining.Proofs.Hierarchy

/-!
# The way up, and when it returns

Superclass links lead from a class to at most one other, so the way up is their closure: what it meets is
what they reach. It ends before it comes to a class again. That happens just in case a class inherits from
itself somewhere on it (`exists_cycle_of_chainFrom`); `superclassChain_nodup_iff` says so of all classes of
a description at once.
-/

namespace Inlining.Description

/-- `c` names `parent` as its superclass. -/
def Inherits (classes : List ClassDecl) (c parent : ClassId) : Prop :=
  ∃ decl, classes.find? (·.id == c) = some decl ∧ decl.superclass = some parent

section WayUp

variable {classes : List ClassDecl} {c x parent : ClassId}

theorem inherits_iff :
    Inherits classes c parent ↔ (classes.find? (·.id == c)).bind (·.superclass) = some parent :=
  Option.bind_eq_some_iff.symm

theorem Inherits.of_without (h : Inherits (without classes c) x parent) : Inherits classes x parent := by
  obtain ⟨decl, hd, hs⟩ := h
  by_cases hx : x = c
  · rw [hx, find?_without_self] at hd
    cases hd
  · exact ⟨decl, find?_without hx ▸ hd, hs⟩

theorem chainFrom_of_inherits (h : Inherits classes c parent) :
    chainFrom classes c = c :: chainFrom (without classes c) parent := by
  rw [chainFrom_eq, inherits_iff.1 h, Option.elim_some]

theorem chainFrom_of_top (h : ∀ parent, ¬ Inherits classes c parent) : chainFrom classes c = [c] := by
  rw [chainFrom_eq]
  cases hp : (classes.find? (·.id == c)).bind (·.superclass) with
  | none => rfl
  | some parent => exact absurd (inherits_iff.2 hp) (h parent)

/-- Induction on the way up. A class that is left behind is not there to be met again. -/
theorem chainFrom_induction {P : List ClassDecl → ClassId → Prop}
    (top : ∀ classes c, (∀ parent, ¬ Inherits classes c parent) → P classes c)
    (up : ∀ classes c parent, Inherits classes c parent → P (without classes c) parent → P classes c)
    (classes : List ClassDecl) (c : ClassId) : P classes c := by
  induction hn : classes.length using Nat.strong_induction_on generalizing classes c with
  | _ n ih =>
    by_cases link : ∃ parent, Inherits classes c parent
    · obtain ⟨parent, decl, hd, hs⟩ := link
      have rest := ih _ (hn ▸ length_without_lt hd) (without classes c) parent rfl
      exact up classes c parent ⟨decl, hd, hs⟩ rest
    · exact top classes c (not_exists.1 link)

/-- What the way up meets can be reached by superclass links. -/
theorem inherits_of_mem_chainFrom (h : x ∈ chainFrom classes c) :
    Relation.ReflTransGen (Inherits classes) c x := by
  induction classes, c using chainFrom_induction with
  | top classes c top =>
    rw [chainFrom_of_top top, List.mem_singleton] at h
    subst h
    exact .refl
  | up classes c parent link ih =>
    rw [chainFrom_of_inherits link, List.mem_cons] at h
    rcases h with rfl | h
    · exact .refl
    · exact .head link (Relation.ReflTransGen.mono (fun _ _ => Inherits.of_without) _ _ (ih h))

/-- A way up that comes to a class again leads to a class that inherits from itself. -/
theorem exists_cycle_of_chainFrom (h : ¬ (chainFrom classes c).Nodup) :
    ∃ x, Relation.ReflTransGen (Inherits classes) c x ∧ Relation.TransGen (Inherits classes) x x := by
  induction classes, c using chainFrom_induction with
  | top classes c top =>
    rw [chainFrom_of_top top] at h
    exact absurd (List.nodup_singleton c) h
  | up classes c parent link ih =>
    rw [chainFrom_of_inherits link, List.nodup_cons, not_and_or, not_not] at h
    have widen {y z : ClassId} (way : Relation.ReflTransGen (Inherits (without classes c)) y z) :
        Relation.ReflTransGen (Inherits classes) y z :=
      Relation.ReflTransGen.mono (fun _ _ => Inherits.of_without) _ _ way
    rcases h with back | later
    · -- the way up returns to where it started
      exact ⟨c, .refl, .head' link (widen (inherits_of_mem_chainFrom back))⟩
    · obtain ⟨x, way, cycle⟩ := ih later
      exact ⟨x, .head link (widen way),
        Relation.TransGen.mono (fun _ _ => Inherits.of_without) _ _ cycle⟩

end WayUp

variable {d : Description} {c x parent : ClassId}

/-- Where no way up returns, it goes on with the way up from the superclass, which the class is not on. -/
theorem superclassChain_of_inherits (nodup : ∀ decl ∈ d.classes, (d.superclassChain decl.id).Nodup)
    (link : Inherits d.classes c parent) :
    d.superclassChain c = c :: d.superclassChain parent ∧ c ∉ d.superclassChain parent := by
  obtain ⟨decl, hd, hs⟩ := link
  have hid : decl.id = c := by simpa using List.find?_some hd
  have noReturn : (d.superclassChain c).Nodup := hid ▸ nodup decl (List.mem_of_find?_eq_some hd)
  have up : (d.class? c).bind (·.superclass) = some parent := Option.bind_eq_some_iff.2 ⟨decl, hd, hs⟩
  have goesOn := superclassChain_eq_of_nodup noReturn
  rw [up, Option.elim_some] at goesOn
  rw [goesOn] at noReturn
  exact ⟨goesOn, (List.nodup_cons.1 noReturn).1⟩

/-- Where no way up returns, every way up meets all that superclass links reach. -/
theorem mem_superclassChain_of_inherits (nodup : ∀ decl ∈ d.classes, (d.superclassChain decl.id).Nodup)
    (h : Relation.ReflTransGen (Inherits d.classes) c x) : x ∈ d.superclassChain c := by
  induction h using Relation.ReflTransGen.head_induction_on with
  | refl => exact self_mem_chainFrom
  | head link _ ih =>
    rw [(superclassChain_of_inherits nodup link).1]
    exact List.mem_cons_of_mem _ ih

/-- No way up from a class returns just in case no class inherits from itself. -/
theorem superclassChain_nodup_iff :
    (∀ decl ∈ d.classes, (d.superclassChain decl.id).Nodup) ↔
      ∀ c, ¬ Relation.TransGen (Inherits d.classes) c c := by
  constructor
  · intro nodup c cycle
    obtain ⟨parent, link, back⟩ := Relation.TransGen.head'_iff.1 cycle
    apply (superclassChain_of_inherits nodup link).2
    exact mem_superclassChain_of_inherits nodup back
  · intro acyclic decl _
    by_contra returns
    obtain ⟨x, -, cycle⟩ := exists_cycle_of_chainFrom returns
    exact acyclic x cycle

end Inlining.Description
