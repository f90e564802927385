import Inlining.Program.Description

/-!
# The class hierarchy of a description

Queries on the classes and the dispatch slots of a description. `superclassChain` lists the
classes on the way up from a class; a slot is dispatched to the first method on that way
(`dispatch?`). `isSubclassOf` searches all classes that superclass and interface links lead
to. Both visit a declared class at most once, whatever the links are, so they end on every
description; only a description that is accepted promises that the links make sense.
-/

namespace Inlining.Description

variable (d : Description)

def class? (c : ClassId) : Option ClassDecl := d.classes.find? (·.id == c)

def method? (m : MethodId) : Option MethodDecl := d.methods.find? (·.id == m)

/-- The classes other than `c`. -/
def without (classes : List ClassDecl) (c : ClassId) : List ClassDecl :=
  classes.filter (·.id != c)

theorem length_without_lt {classes : List ClassDecl} {c : ClassId} {decl : ClassDecl}
    (h : classes.find? (·.id == c) = some decl) : (without classes c).length < classes.length := by
  have found := List.find?_some h
  refine List.length_filter_lt_length_iff_exists.2 ⟨decl, List.mem_of_find?_eq_some h, ?_⟩
  simpa using found

/-- The classes from `c` upwards. A class that was passed before ends the way. -/
def chainFrom (unvisited : List ClassDecl) (c : ClassId) : List ClassId :=
  c :: match _h : unvisited.find? (·.id == c) with
    | none => []
    | some decl =>
      match decl.superclass with
      | none => []
      | some parent => chainFrom (without unvisited c) parent
termination_by unvisited.length
decreasing_by exact length_without_lt _h

/-- The class `c`, its superclass, the superclass of that, and so on. -/
def superclassChain (c : ClassId) : List ClassId := chainFrom d.classes c

/-- The number of links that leave the classes and of the classes together. -/
def linkCount (classes : List ClassDecl) : Nat :=
  (classes.flatMap (·.parents)).length + classes.length

theorem linkCount_filter_le (p : ClassDecl → Bool) (classes : List ClassDecl) :
    linkCount (classes.filter p) ≤ linkCount classes := by
  induction classes with
  | nil => simp
  | cons decl rest ih => by_cases hp : p decl <;> simp_all [linkCount] <;> omega

theorem linkCount_without_lt {classes : List ClassDecl} {decl : ClassDecl} (h : decl ∈ classes) :
    linkCount (without classes decl.id) + decl.parents.length < linkCount classes := by
  unfold without
  induction classes with
  | nil => simp at h
  | cons other rest ih =>
    rcases List.mem_cons.1 h with rfl | h
    · have := linkCount_filter_le (·.id != decl.id) rest
      simp [linkCount] at this ⊢; omega
    · have := ih h
      by_cases he : other.id = decl.id <;> simp_all [linkCount] <;> omega

/-- Some pending class is `ancestor` or leads to it through unvisited classes. -/
def leadsTo (ancestor : ClassId) (unvisited : List ClassDecl) : List ClassId → Bool
  | [] => false
  | c :: pending =>
    if c = ancestor then true
    else match _h : unvisited.find? (·.id == c) with
      | none => leadsTo ancestor unvisited pending
      | some decl =>
        leadsTo ancestor (without unvisited decl.id) (decl.parents ++ pending)
termination_by pending => linkCount unvisited + pending.length
decreasing_by
  · simp
  · have := linkCount_without_lt (List.mem_of_find?_eq_some _h)
    simp; omega

/-- `c` is `ancestor` or lies below it. -/
def isSubclassOf (c ancestor : ClassId) : Bool := leadsTo ancestor d.classes [c]

def isInterface (c : ClassId) : Bool := (d.class? c).any (·.isInterface)

def isAbstract (c : ClassId) : Bool := (d.class? c).any (·.isAbstract)

/-- The method that a class itself declares for a slot. -/
def slotMethod? (c : ClassId) (slot : Int) : Option MethodDecl :=
  d.methods.find? fun m => m.declaringClass == c && m.slot == some slot

/-- The method that a receiver of exactly class `c` runs for a slot: the one that the nearest
class on the way up declares, unless that one is abstract. -/
def dispatch? (c : ClassId) (slot : Int) : Option MethodId :=
  ((d.superclassChain c).findSome? (d.slotMethod? · slot)).bind fun m =>
    if m.isAbstract then none else some m.id

/-- Another method is declared for the slot by another class below `c`. -/
def isRedeclaredBelow (m : MethodId) (slot : Int) (c : ClassId) : Bool :=
  d.methods.any fun other =>
    other.slot == some slot && other.id != m && other.declaringClass != c &&
      d.isSubclassOf other.declaringClass c

/-- Some class below the one that declares `m` overrides it, or `m` has no body. A method
without slot is never overridden. -/
def isOverridden (m : MethodId) : Bool :=
  match d.method? m with
  | none => false
  | some decl =>
    match decl.slot with
    | none => false
    | some slot => decl.isAbstract || d.isRedeclaredBelow m slot decl.declaringClass

/-- Some class at or below `c` runs another method than `m` for the slot of `m`. -/
def isOverriddenBelow (m : MethodId) (c : ClassId) : Bool :=
  match (d.method? m).bind (·.slot) with
  | none => false
  | some slot => d.dispatch? c slot != some m || d.isRedeclaredBelow m slot c

/-- What the concrete classes at or below `c` run for a slot. -/
def implementations (c : ClassId) (slot : Int) : List MethodId :=
  (d.classes.filter fun decl => decl.isConcrete && d.isSubclassOf decl.id c).filterMap
    fun decl => d.dispatch? decl.id slot

/-- The only method that concrete classes at or below `c` run for a slot. -/
def singleImplementer? (c : ClassId) (slot : Int) : Option MethodId :=
  match (d.implementations c slot).eraseDups with
  | [m] => some m
  | _ => none

end Inlining.Description
