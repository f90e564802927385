import Mathlib
import Inlining.Program.Basic

/-!
# What the check of a description says

`Description.check` runs through classes, methods, calls and references and stops at the first
fault. Each of its parts is a Boolean test or a loop over tests, so each is characterised by
what all its tests say. Of an accepted program the later modules use only the `Program` lemmas
at the end: parents are declared, ways up do not return, a call that is not by method reference
names a method, and neither a handle nor a slot of a class belongs to two methods.
-/

namespace Inlining

section Except

variable {ε α β : Type}

theorem bind_eq_ok {x : Except ε α} {f : α → Except ε β} {b : β} :
    x >>= f = .ok b ↔ ∃ a, x = .ok a ∧ f a = .ok b := by
  cases x with
  | error e =>
    constructor
    · intro h; cases h
    · rintro ⟨_, h, _⟩; cases h
  | ok a =>
    constructor
    · intro h; exact ⟨a, rfl, h⟩
    · rintro ⟨_, h, hf⟩; cases h; exact hf

theorem unit_bind_eq_ok {x : Except ε Unit} {f : Unit → Except ε β} {b : β} :
    x >>= f = .ok b ↔ x = .ok () ∧ f () = .ok b := by
  rw [bind_eq_ok]
  exact ⟨fun ⟨_, h⟩ => h, fun h => ⟨(), h⟩⟩

theorem forM_eq_ok {xs : List α} {f : α → Except ε Unit} :
    xs.forM f = .ok () ↔ ∀ x ∈ xs, f x = .ok () := by
  induction xs with
  | nil => simp [pure, Except.pure]
  | cons x xs ih =>
    show (f x >>= fun _ => xs.forM f) = .ok () ↔ _
    rw [unit_bind_eq_ok, ih, List.forall_mem_cons]

end Except

/-- Two methods that cannot both be declared: they share their handle, or class and slot. -/
def MethodDecl.Clashes (e m : MethodDecl) : Prop :=
  e.id = m.id ∨ m.slot.isSome ∧ e.declaringClass = m.declaringClass ∧ e.slot = m.slot

namespace Description

variable {d : Description}

theorem checkClass_eq_ok_iff {c : ClassDecl} :
    d.checkClass c = .ok () ↔
      (∀ parent ∈ c.parents, (d.class? parent).isSome) ∧ (d.superclassChain c.id).Nodup := by
  simp only [checkClass, unit_bind_eq_ok, forM_eq_ok, demand_eq_ok, decide_eq_true_eq]

/-- One method passes the check if its class is declared and no earlier method clashes. -/
theorem checkMethods_cons_eq_ok_iff {earlier rest : List MethodDecl} {m : MethodDecl} :
    d.checkMethods earlier (m :: rest) = .ok () ↔
      (d.class? m.declaringClass).isSome ∧ (∀ e ∈ earlier, ¬ e.Clashes m) ∧
        d.checkMethods (m :: earlier) rest = .ok () := by
  simp only [checkMethods, unit_bind_eq_ok, demand_eq_ok]
  cases hs : m.slot <;> simp only [unit_bind_eq_ok, demand_eq_ok, MethodDecl.Clashes, hs] <;> grind

theorem checkMethods_eq_ok_iff {earlier methods : List MethodDecl} :
    d.checkMethods earlier methods = .ok () ↔
      (∀ m ∈ methods, (d.class? m.declaringClass).isSome) ∧
        (∀ m ∈ methods, ∀ e ∈ earlier, ¬ e.Clashes m) ∧
        methods.Pairwise fun e m => ¬ e.Clashes m := by
  induction methods generalizing earlier with
  | nil => simp [checkMethods]
  | cons m rest ih =>
    rw [checkMethods_cons_eq_ok_iff, ih, List.pairwise_cons]
    grind

end Description

namespace Program

variable (p : Program)

/-- What the check of the whole description passed, part by part. -/
theorem parts_accepted :
    Description.checkDistinct [] p.classes = .ok () ∧
      (∀ c ∈ p.classes, p.checkClass c = .ok ()) ∧
      p.checkMethods [] p.methods = .ok () := by
  have h := p.accepted
  simp only [Description.check, unit_bind_eq_ok, forM_eq_ok] at h
  exact ⟨h.1, h.2.1, h.2.2.1⟩

/-- A call in a body is by method reference, or names a method. -/
theorem declared_of_instruction {m : MethodId} {call : CallInstruction} (h : call ∈ p.instructionsOf m) :
    call.shape = .functionPointer ∨ ∃ callee, call.declaredMethod = some callee := by
  unfold Description.instructionsOf at h
  cases hm : p.method? m with
  | none => simp [hm] at h
  | some decl =>
    have accepted := p.accepted
    simp only [Description.check, unit_bind_eq_ok, forM_eq_ok] at accepted
    obtain ⟨described, hd, rfl⟩ : ∃ d ∈ decl.calls, p.instruction d = call := by simpa [hm] using h
    have checked := accepted.2.2.2.1 decl (List.mem_of_find?_eq_some hm) described hd
    simp only [Description.checkCall, unit_bind_eq_ok, demand_eq_ok, Bool.or_eq_true, beq_iff_eq]
      at checked
    exact checked.2.2.2.imp id Option.isSome_iff_exists.1

theorem superclassChain_nodup {c : ClassId} {decl : ClassDecl} (h : p.class? c = some decl) :
    (p.superclassChain c).Nodup := by
  have accepted := p.parts_accepted.2.1 _ (List.mem_of_find?_eq_some h)
  have hid : decl.id = c := by simpa using List.find?_some h
  exact hid ▸ (Description.checkClass_eq_ok_iff.1 accepted).2

theorem methods_pairwise : p.methods.Pairwise fun e m => ¬ e.Clashes m :=
  (Description.checkMethods_eq_ok_iff.1 p.parts_accepted.2.2).2.2

/-- Of two declared methods one does not clash with the other, unless they are the same. -/
theorem eq_or_not_clashes {a b : MethodDecl} (ha : a ∈ p.methods) (hb : b ∈ p.methods) :
    a = b ∨ ¬ a.Clashes b ∨ ¬ b.Clashes a := by
  refine List.Pairwise.forall_of_forall_of_flip
    (R := fun a b : MethodDecl => a = b ∨ ¬ a.Clashes b ∨ ¬ b.Clashes a) (fun _ _ => .inl rfl)
    (p.methods_pairwise.imp fun h => .inr (.inl h))
    (p.methods_pairwise.imp fun h => .inr (.inr h)) ha hb

theorem eq_of_id_eq {a b : MethodDecl} (ha : a ∈ p.methods) (hb : b ∈ p.methods)
    (h : a.id = b.id) : a = b := by
  rcases p.eq_or_not_clashes ha hb with h' | h' | h'
  · exact h'
  · exact absurd (.inl h) h'
  · exact absurd (.inl h.symm) h'

/-- A class declares at most one method for a slot. -/
theorem eq_of_slot_eq {a b : MethodDecl} {slot : Int} (ha : a ∈ p.methods) (hb : b ∈ p.methods)
    (hc : a.declaringClass = b.declaringClass) (has : a.slot = some slot)
    (hbs : b.slot = some slot) : a = b := by
  rcases p.eq_or_not_clashes ha hb with h | h | h
  · exact h
  · exact absurd (.inr ⟨by simp [hbs], hc, by rw [has, hbs]⟩) h
  · exact absurd (.inr ⟨by simp [has], hc.symm, by rw [has, hbs]⟩) h

theorem method?_eq_some_iff {m : MethodId} {decl : MethodDecl} :
    p.method? m = some decl ↔ decl ∈ p.methods ∧ decl.id = m := by
  constructor
  · intro h
    exact ⟨List.mem_of_find?_eq_some h, by simpa using List.find?_some h⟩
  · rintro ⟨hd, rfl⟩
    obtain ⟨other, ho⟩ := Option.isSome_iff_exists.1
      (List.find?_isSome.2 ⟨decl, hd, by simp⟩ : (p.methods.find? (·.id == decl.id)).isSome)
    have := p.eq_of_id_eq (List.mem_of_find?_eq_some ho) hd (by simpa using List.find?_some ho)
    exact this ▸ ho

/-- The method that a class declares for a slot. -/
theorem slotMethod?_eq_some_iff {c : ClassId} {slot : Int} {decl : MethodDecl} :
    p.slotMethod? c slot = some decl ↔
      decl ∈ p.methods ∧ decl.declaringClass = c ∧ decl.slot = some slot := by
  constructor
  · intro h
    have := List.find?_some h
    simp only [Bool.and_eq_true, beq_iff_eq] at this
    exact ⟨List.mem_of_find?_eq_some h, this.1, this.2⟩
  · rintro ⟨hd, rfl, hs⟩
    obtain ⟨other, ho⟩ := Option.isSome_iff_exists.1 (List.find?_isSome.2 ⟨decl, hd, by simp [hs]⟩ :
      (p.methods.find? fun m =>
        m.declaringClass == decl.declaringClass && m.slot == some slot).isSome)
    have found := List.find?_some ho
    simp only [Bool.and_eq_true, beq_iff_eq] at found
    exact p.eq_of_slot_eq (List.mem_of_find?_eq_some ho) hd found.1 found.2 hs ▸ ho

end Program

end Inlining
