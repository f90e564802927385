/-!
# Saturating quantities

Body sizes and sample counts stop at a cap instead of wrapping. Addition is associative
and commutative all the same (`add_assoc`, `add_comm`), because a sum of any shape is the
exact sum cut off at the cap (`val_add`, `val_sum`).
-/

namespace Inlining

/-- A quantity between zero and `cap`. -/
structure Saturating (cap : Nat) where
  val : Nat
  val_le : val ≤ cap
deriving DecidableEq, Repr

namespace Saturating

variable {cap : Nat}

/-- `n`, cut off at the cap. -/
def ofNat (cap n : Nat) : Saturating cap := ⟨min n cap, Nat.min_le_right n cap⟩

instance : Zero (Saturating cap) := ⟨⟨0, Nat.zero_le cap⟩⟩

instance : Inhabited (Saturating cap) := ⟨0⟩

instance : Add (Saturating cap) := ⟨fun a b => ofNat cap (a.val + b.val)⟩

instance : LE (Saturating cap) := ⟨fun a b => a.val ≤ b.val⟩

instance : LT (Saturating cap) := ⟨fun a b => a.val < b.val⟩

instance (a b : Saturating cap) : Decidable (a ≤ b) := inferInstanceAs (Decidable (a.val ≤ b.val))

instance (a b : Saturating cap) : Decidable (a < b) := inferInstanceAs (Decidable (a.val < b.val))

@[ext] theorem ext {a b : Saturating cap} (h : a.val = b.val) : a = b := by
  cases a; cases b; cases h; rfl

theorem le_def {a b : Saturating cap} : a ≤ b ↔ a.val ≤ b.val := Iff.rfl

theorem lt_def {a b : Saturating cap} : a < b ↔ a.val < b.val := Iff.rfl

@[simp] theorem val_zero : (0 : Saturating cap).val = 0 := rfl

@[simp] theorem val_ofNat (n : Nat) : (ofNat cap n).val = min n cap := rfl

@[simp] theorem val_add (a b : Saturating cap) : (a + b).val = min (a.val + b.val) cap := rfl

protected theorem add_comm (a b : Saturating cap) : a + b = b + a := by
  ext; simp [Nat.add_comm]

protected theorem add_assoc (a b c : Saturating cap) : a + b + c = a + (b + c) := by
  ext; simp only [val_add]; omega

protected theorem zero_add (a : Saturating cap) : 0 + a = a := by
  ext; simp [Nat.min_eq_left a.val_le]

protected theorem add_zero (a : Saturating cap) : a + 0 = a := by
  ext; simp [Nat.min_eq_left a.val_le]

theorem le_add_right (a b : Saturating cap) : a ≤ a + b := by
  have := a.val_le
  simp only [le_def, val_add]; omega

/-- A sum is the exact sum cut off at the cap, in whatever order it is taken. -/
theorem val_sum (xs : List (Saturating cap)) :
    xs.sum.val = min (xs.foldr (fun x n => x.val + n) 0) cap := by
  induction xs with
  | nil => simp
  | cons x xs ih =>
    rw [List.sum_cons, val_add, ih, List.foldr_cons]
    omega

end Saturating

/-- Code size in inlining units; a 32-bit quantity. -/
abbrev Size := Saturating 4294967295

/-- A number of profiled calls; a 64-bit quantity. -/
abbrev SampleCount := Saturating 18446744073709551615

end Inlining
