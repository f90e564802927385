import Inlining.Proofs.Hierarchy

/-!
# The search for an ancestor

The subclass test as a search that goes on turn by turn. The classes that wait may be many and may come
twice, and every class that is taken adds its parents to them, so neither list alone says when the search
ends. What does is the number of links that leave classes not yet taken, with the number of those that
wait (`AncestorSearch.work`). While it goes on, everything that waits can be reached, and every parent of
a class that was taken waits or was taken too (`AncestorSearch.OnWay`); so a search that runs dry has
taken all there is to reach. `isSubclassOf_iff_path` says what the test answers.
-/

namespace Inlining

open Description

/-- A search for an ancestor as it stands: the classes that wait, the next one first, and those that were
taken. -/
structure AncestorSearch where
  pending : List ClassId
  seen : List ClassId := []
deriving DecidableEq

namespace AncestorSearch

/-- Takes the next class. The search is over if that is the ancestor, or if there is none; a class that was
not taken before has its parents wait in front of all others, the last one first. -/
def turn (d : Description) (ancestor : ClassId) (s : AncestorSearch) : AncestorSearch ⊕ Bool :=
  match s.pending with
  | [] => .inr false
  | c :: rest =>
    if c = ancestor then .inr true
    else if s.seen.contains c then .inl { s with pending := rest }
    else .inl {
      pending := (d.class? c).elim [] (·.parents.reverse) ++ rest
      seen := c :: s.seen }

/-- What a search answers within a number of turns, if it is over by then. -/
def within (d : Description) (ancestor : ClassId) : Nat → AncestorSearch → Option Bool
  | 0, _ => none
  | turns + 1, s =>
    match s.turn d ancestor with
    | .inl s' => within d ancestor turns s'
    | .inr answer => some answer

/-- The search that starts from a class. -/
def start (c : ClassId) : AncestorSearch := { pending := [c] }

/-- One turn of a search that goes on: the class at the front was taken before, or it is taken now. -/
inductive Continues (d : Description) (ancestor : ClassId) : AncestorSearch → AncestorSearch → Prop
  | skip {c : ClassId} {rest seen : List ClassId} :
    c ≠ ancestor → c ∈ seen → Continues d ancestor ⟨c :: rest, seen⟩ ⟨rest, seen⟩
  | take {c : ClassId} {rest seen : List ClassId} :
    c ≠ ancestor → c ∉ seen →
    Continues d ancestor ⟨c :: rest, seen⟩
      ⟨(d.class? c).elim [] (·.parents.reverse) ++ rest, c :: seen⟩

variable {d : Description} {a c : ClassId} {s s' : AncestorSearch} {answer : Bool}

theorem continues_of_turn (h : s.turn d a = .inl s') : Continues d a s s' := by
  obtain ⟨pending, seen⟩ := s
  unfold turn at h
  split at h
  · cases h
  next c rest front =>
    obtain rfl : pending = c :: rest := front
    split at h
    · cases h
    next other =>
      split at h <;> cases h
      next taken => exact .skip other (List.contains_iff_mem.1 taken)
      next fresh => exact .take other (fun taken => fresh (List.contains_iff_mem.2 taken))

/-- A search ends with the ancestor at the front, or with nothing left that waits. -/
theorem turn_eq_answer_iff :
    s.turn d a = .inr answer ↔
      s.pending = [] ∧ answer = false ∨ s.pending.head? = some a ∧ answer = true := by
  obtain ⟨pending, seen⟩ := s
  cases pending with
  | nil => simp [turn, eq_comm]
  | cons c rest =>
    by_cases hc : c = a
    · simp [turn, hc, eq_comm]
    · have goes : (turn d a ⟨c :: rest, seen⟩).isLeft = true := by
        unfold turn
        simp only [hc, if_false]
        split <;> rfl
      constructor
      · intro h
        rw [h] at goes
        cases goes
      · rintro (⟨empty, -⟩ | ⟨front, -⟩)
        · cases empty
        · exact absurd (Option.some.inj front) hc

section Work

/-- The classes that were not taken. -/
def unseen (d : Description) (seen : List ClassId) : List ClassDecl :=
  d.classes.filter fun decl => !seen.contains decl.id

/-- What is left to do: the links that leave classes not yet taken, those classes, and what waits. -/
def work (d : Description) (s : AncestorSearch) : Nat := linkCount (unseen d s.seen) + s.pending.length

theorem unseen_cons (seen : List ClassId) : unseen d (c :: seen) = without (unseen d seen) c := by
  unfold unseen without
  rw [List.filter_filter]
  congr 1
  funext decl
  simp [Bool.not_or, bne, Bool.beq_eq_decide_eq]

theorem mem_unseen {decl : ClassDecl} {seen : List ClassId} (hd : d.class? c = some decl)
    (fresh : c ∉ seen) : decl ∈ unseen d seen ∧ decl.id = c := by
  have hid : decl.id = c := by simpa using List.find?_some hd
  refine ⟨List.mem_filter.2 ⟨List.mem_of_find?_eq_some hd, ?_⟩, hid⟩
  simpa [hid] using fresh

/-- Every turn leaves less to do: the parents of a class that is taken are no longer to come. -/
theorem Continues.work_lt (h : Continues d a s s') : s'.work d < s.work d := by
  cases h with
  | skip => simp [work]
  | @take c rest seen _ fresh =>
    unfold work
    rw [unseen_cons]
    cases hd : d.class? c with
    | none =>
      have := linkCount_filter_le (·.id != c) (unseen d seen)
      simp only [Option.elim_none, List.nil_append, List.length_cons, without]
      omega
    | some decl =>
      obtain ⟨hmem, rfl⟩ := mem_unseen hd fresh
      have := linkCount_without_lt hmem
      simp only [Option.elim_some, List.length_append, List.length_reverse, List.length_cons]
      omega

/-- A search is over once it had as many turns as there was to do, and one more. -/
theorem exists_within {turns : Nat} (h : s.work d < turns) : ∃ answer, within d a turns s = some answer := by
  induction turns generalizing s with
  | zero => omega
  | succ turns ih =>
    unfold within
    cases ht : s.turn d a with
    | inr answer => exact ⟨answer, rfl⟩
    | inl s' =>
      have := (continues_of_turn ht).work_lt
      exact ih (by omega)

theorem work_start : (start c).work d = linkCount d.classes + 1 := by
  simp [work, start, unseen]

end Work

/-- A search from a class that goes on has not met the ancestor. All that waits can be reached, and what
can be reached from a class that was taken can be reached by way of its parents, which wait or were taken
as well. -/
structure OnWay (d : Description) (c a : ClassId) (s : AncestorSearch) : Prop where
  reached : ∀ x ∈ s.pending, Reaches d.classes c x
  begun : c ∈ s.pending ∨ c ∈ s.seen
  other : ∀ x ∈ s.seen, x ≠ a
  parents : ∀ x ∈ s.seen, ∀ parent, Link d.classes x parent → parent ∈ s.pending ∨ parent ∈ s.seen

theorem onWay_start : OnWay d c a (start c) where
  reached x hx := by
    obtain rfl := List.mem_singleton.1 hx
    exact .refl
  begun := .inl (List.mem_singleton_self c)
  other := nofun
  parents := nofun

/-- The classes that a class adds to those that wait are its parents. -/
theorem mem_added_iff {x : ClassId} :
    x ∈ (d.class? c).elim [] (·.parents.reverse) ↔ Link d.classes c x := by
  change _ ↔ ∃ decl, d.class? c = some decl ∧ x ∈ decl.parents
  cases d.class? c <;> simp

/-- Nobody is forgotten: whoever waited or was taken waits still or is taken. -/
theorem Continues.kept {x : ClassId} (h : Continues d a s s') (hx : x ∈ s.pending ∨ x ∈ s.seen) :
    x ∈ s'.pending ∨ x ∈ s'.seen := by
  cases h with
  | skip _ taken =>
    rcases hx with hx | hx
    · rcases List.mem_cons.1 hx with rfl | hx
      · exact .inr taken
      · exact .inl hx
    · exact .inr hx
  | take =>
    rcases hx with hx | hx
    · rcases List.mem_cons.1 hx with rfl | hx
      · exact .inr List.mem_cons_self
      · exact .inl (List.mem_append_right _ hx)
    · exact .inr (List.mem_cons_of_mem _ hx)

/-- Who waits after a turn waited before, or is a parent of somebody who did. -/
theorem Continues.waits {x : ClassId} (h : Continues d a s s') (hx : x ∈ s'.pending) :
    x ∈ s.pending ∨ ∃ c ∈ s.pending, Link d.classes c x := by
  cases h with
  | skip => exact .inl (List.mem_cons_of_mem _ hx)
  | take =>
    rcases List.mem_append.1 hx with hx | hx
    · exact .inr ⟨_, List.mem_cons_self, mem_added_iff.1 hx⟩
    · exact .inl (List.mem_cons_of_mem _ hx)

/-- Who is taken was taken before, or is taken now, is not the ancestor, and has its parents wait. -/
theorem Continues.takes {x : ClassId} (h : Continues d a s s') (hx : x ∈ s'.seen) :
    x ∈ s.seen ∨ x ≠ a ∧ ∀ parent, Link d.classes x parent → parent ∈ s'.pending := by
  cases h with
  | skip => exact .inl hx
  | take other =>
    rcases List.mem_cons.1 hx with rfl | hx
    · exact .inr ⟨other, fun parent link => List.mem_append_left _ (mem_added_iff.2 link)⟩
    · exact .inl hx

theorem OnWay.step (h : OnWay d c a s) (step : Continues d a s s') : OnWay d c a s' := by
  constructor
  · intro x hx
    rcases step.waits hx with before | ⟨child, hchild, link⟩
    · exact h.reached x before
    · exact (h.reached child hchild).tail link
  · exact step.kept h.begun
  · intro x hx
    rcases step.takes hx with before | ⟨other, -⟩
    · exact h.other x before
    · exact other
  · intro x hx parent link
    rcases step.takes hx with before | ⟨-, wait⟩
    · exact step.kept (h.parents x before parent link)
    · exact .inl (wait parent link)

/-- A search that ran dry has taken all that can be reached. -/
theorem OnWay.mem_seen {x : ClassId} (h : OnWay d c a s) (dry : s.pending = [])
    (hx : Reaches d.classes c x) : x ∈ s.seen := by
  have taken {y : ClassId} (hy : y ∈ s.pending ∨ y ∈ s.seen) : y ∈ s.seen :=
    hy.resolve_left (by rw [dry]; exact List.not_mem_nil)
  induction hx with
  | refl => exact taken h.begun
  | tail _ link ih => exact taken (h.parents _ ih _ link)

theorem OnWay.answer_turn (h : OnWay d c a s) (ends : s.turn d a = .inr answer) :
    answer = true ↔ Reaches d.classes c a := by
  rcases turn_eq_answer_iff.1 ends with ⟨dry, rfl⟩ | ⟨front, rfl⟩
  · constructor
    · nofun
    · intro reaches
      exact absurd rfl (h.other a (h.mem_seen dry reaches))
  · exact iff_of_true rfl (h.reached a (List.mem_of_mem_head? front))

theorem OnWay.answer_within {turns : Nat} (h : OnWay d c a s) (ends : within d a turns s = some answer) :
    answer = true ↔ Reaches d.classes c a := by
  induction turns generalizing s with
  | zero => cases ends
  | succ turns ih =>
    unfold within at ends
    cases ht : s.turn d a with
    | inr b =>
      rw [ht] at ends
      obtain rfl := Option.some.inj ends
      exact h.answer_turn ht
    | inl s' =>
      rw [ht] at ends
      exact ih (h.step (continues_of_turn ht)) ends

/-- The search is over after a known number of turns, and it answers the subclass test. -/
theorem within_start (d : Description) (c a : ClassId) :
    within d a (linkCount d.classes + 2) (start c) = some (d.isSubclassOf c a) := by
  have enough : (start c).work d < linkCount d.classes + 2 := by
    rw [work_start]
    omega
  obtain ⟨answer, ends⟩ := exists_within (a := a) enough
  rw [ends, Option.some_inj, Bool.eq_iff_iff, onWay_start.answer_within ends, isSubclassOf_iff_reaches]

end AncestorSearch

namespace Program

/-- **The subclass test is reachability**, for all classes, declared or not, and whatever cycles the
interfaces form. The search for the ancestor ends, after at most as many turns as there are links and
classes, and two more. It finds the ancestor just in case that is the class itself, or a way of superclass
and interface links leads there; so the test is reflexive and transitive. -/
theorem isSubclassOf_iff_path (p : Program) (c a : ClassId) :
    AncestorSearch.within p.toDescription a (linkCount p.classes + 2) (.start c) =
      some (p.isSubclassOf c a) ∧
    (p.isSubclassOf c a = true ↔ a = c ∨ Relation.TransGen (Link p.classes) c a) ∧
    p.isSubclassOf c c = true ∧
    ∀ b, p.isSubclassOf c b = true → p.isSubclassOf b a = true → p.isSubclassOf c a = true := by
  refine ⟨AncestorSearch.within_start p.toDescription c a, ?_, isSubclassOf_refl c, fun b => isSubclassOf_trans⟩
  rw [isSubclassOf_iff_reaches]
  exact Relation.reflTransGen_iff_eq_or_transGen

/-- Shapes and drawables extend each other, and squares are drawables by way of figures alone. -/
def drawables : Program where
  classes := [
    { id := ⟨0⟩, name := "Shape", interfaces := [⟨1⟩], isInterface := true },
    { id := ⟨1⟩, name := "Drawable", interfaces := [⟨0⟩, ⟨1⟩], isInterface := true },
    { id := ⟨2⟩, name := "Figure", interfaces := [⟨0⟩] },
    { id := ⟨3⟩, name := "Square", superclass := some ⟨2⟩, interfaces := [⟨0⟩] }]
  accepted := by decide +kernel

/-- A square is a drawable. A shape is no square, although the search for one meets a cycle; nor is a class
that nobody declared. -/
theorem isSubclassOf_iff_path_drawables :
    drawables.isSubclassOf ⟨3⟩ ⟨1⟩ = true ∧
      AncestorSearch.within drawables.toDescription ⟨3⟩ (linkCount drawables.classes + 2) (.start ⟨0⟩) =
        some false ∧
      ¬ Relation.TransGen (Link drawables.classes) ⟨0⟩ ⟨3⟩ ∧
      ¬ Relation.TransGen (Link drawables.classes) ⟨7⟩ ⟨3⟩ := by
  obtain ⟨-, -, -, transitive⟩ := isSubclassOf_iff_path drawables ⟨3⟩ ⟨1⟩
  obtain ⟨ends, shape, -, -⟩ := isSubclassOf_iff_path drawables ⟨0⟩ ⟨3⟩
  obtain ⟨-, undeclared, -, -⟩ := isSubclassOf_iff_path drawables ⟨7⟩ ⟨3⟩
  have noShape : drawables.isSubclassOf ⟨0⟩ ⟨3⟩ = false := by decide +kernel
  have noOther : drawables.isSubclassOf ⟨7⟩ ⟨3⟩ = false := by decide +kernel
  refine ⟨transitive ⟨2⟩ (by decide +kernel) (by decide +kernel), ends.trans (congrArg some noShape), ?_, ?_⟩
  · intro way
    rw [shape.2 (.inr way)] at noShape
    cases noShape
  · intro way
    rw [undeclared.2 (.inr way)] at noOther
    cases noOther

end Program

end Inlining
