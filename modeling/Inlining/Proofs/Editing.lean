import Mathlib
import Inlining.Fault

/-!
# Operations that are carried out in place

An operation on a state either fails or has an answer and a new state. Carried out in place, it changes
the state one thing after the other, and what it changed before it fails stays changed (`Edit`). The two
agree if the edit ends with the `outcome` of the operation: then a failure has changed nothing.
-/

namespace Inlining

/-- A program that edits a state in place. It may fail, and what it changed before that stays changed. -/
abbrev Edit (σ α : Type) := ExceptT Fault (StateM σ) α

namespace Edit

variable {σ α β : Type} {s s' : σ} {x : Edit σ α} {f : α → Edit σ β}

theorem run_bind (x : Edit σ α) (f : α → Edit σ β) :
    (x >>= f).run s = match x.run s with
      | (.ok a, s') => (f a).run s'
      | (.error e, s') => (.error e, s') := by
  show (match x.run s with | (a, s') => ExceptT.bindCont f a s') = _
  rcases x.run s with ⟨_ | _, _⟩ <;> rfl

theorem run_bind_of_ok {a : α} (run : x.run s = (.ok a, s')) : (x >>= f).run s = (f a).run s' := by
  rw [run_bind, run]

theorem run_bind_of_error {e : Fault} (run : x.run s = (.error e, s')) :
    (x >>= f).run s = (.error e, s') := by
  rw [run_bind, run]

/-- Where an operation succeeds, its answer and the new state; where it fails, the fault and the state as
it was. -/
def outcome (s : σ) : Except Fault (α × σ) → Except Fault α × σ
  | .ok (a, s') => (.ok a, s')
  | .error e => (.error e, s)

variable {result : Except Fault (α × σ)}

theorem outcome_eq_ok_iff {a : α} : outcome s result = (.ok a, s') ↔ result = .ok (a, s') := by
  cases result <;> simp [outcome, Prod.ext_iff]

/-- What fails leaves the state as it was. -/
theorem eq_of_outcome_eq_error {e : Fault} (h : outcome s result = (.error e, s')) : s' = s := by
  cases result with
  | ok => cases h
  | error e => exact (Prod.mk.inj h).2.symm

/-- An edit whose answer is put differently. -/
theorem run_answer (run : x.run s = outcome s result) (f : α → β) :
    (do return f (← x) : Edit σ β).run s = outcome s (result.map fun r => (f r.1, r.2)) := by
  cases result with
  | ok r => exact run_bind_of_ok run
  | error e => exact run_bind_of_error run

/-- An edit that only changes the state, with an answer. -/
theorem run_done {x : Edit σ Unit} {result : Except Fault σ}
    (run : x.run s = outcome s (result.map fun s' => ((), s'))) (b : β) :
    (do x; return b : Edit σ β).run s = outcome s (result.map fun s' => (b, s')) := by
  cases result with
  | ok s' => exact run_bind_of_ok run
  | error e => exact run_bind_of_error run

end Edit

theorem map_eq_ok_iff {α β : Type} {result : Except Fault α} {f : α → β} {b : β} :
    result.map f = .ok b ↔ ∃ a, result = .ok a ∧ f a = b := by
  cases result <;> simp [Except.map]

end Inlining
