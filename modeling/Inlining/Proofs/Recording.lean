import Inlining.Proofs.Fates
import Inlining.Proofs.Removal

/-!
# What is recorded

Whatever constant is recorded on a target, live or given up, was recorded for the last fold at its
index in the body of the method, and its assumptions are its own: no other constant of any target
depends on one of them (`Region.Recorded`). New assumptions get new handles, nothing is recorded but
when a body is entered, and everything else that happens to a target only takes constants away
(`Region.Sheds`). So this holds in all sessions, after failed requests too (`Visits.recorded`).
-/

namespace Inlining

namespace Region

/-- The constant `k` is recorded at `b` on the target `t`, which is bound to `m`. -/
def Holds (r : Region) (t : TargetId) (m : MethodId) (b : Int) (k : RequiredConstant) : Prop :=
  ∃ x, r.targets.get? t = some x ∧ x.method = m ∧ x.constants.get? b = some k

/-- Constants have assumptions of their own, which are there. -/
structure Unshared (r : Region) : Prop where
  ascending : ∀ {t x}, r.targets.get? t = some x → x.constants.Ascending
  there : ∀ {t m b k}, r.Holds t m b k → ∀ a ∈ k.assumptions, r.assumptions.get? a ≠ none
  distinct : ∀ {t m b k}, r.Holds t m b k → k.assumptions.Nodup
  owner : ∀ {t m b k u m' b' k' a}, r.Holds t m b k → r.Holds u m' b' k' →
    a ∈ k.assumptions → a ∈ k'.assumptions → t = u ∧ b = b'

/-- Constants have assumptions of their own and are those of the last folds at their indices. -/
structure Recorded (p : Program) (r : Region) : Prop extends Unshared r where
  faithful : ∀ {t m b k}, r.Holds t m b k →
    ∃ fold, lastFold? (p.foldsOf m) b = some fold ∧ k.Records r.assumptions fold

/-- In `r'` nothing is recorded that is not in `r`. -/
structure Sheds (r r' : Region) : Prop where
  target : ∀ {t y}, r'.targets.get? t = some y → y.constants = [] ∨
    ∃ x, r.targets.get? t = some x ∧ y.method = x.method ∧ y.constants.Sublist x.constants
  assumptions : r.assumptions.Ages r'.assumptions

variable {p : Program} {r r' : Region} {t u : TargetId} {x : CallTarget} {m : MethodId} {b : Int}
  {k : RequiredConstant}

theorem Sheds.holds (h : r.Sheds r') (recorded : r.Unshared) (holds : r'.Holds t m b k) :
    r.Holds t m b k := by
  obtain ⟨y, hy, method, hk⟩ := holds
  rcases h.target hy with none | ⟨x, hx, same, sub⟩
  · rw [none] at hk
    cases hk
  · exact ⟨x, hx, same.symm.trans method, (recorded.ascending hx).get?_sublist sub hk⟩

theorem Unshared.sheds (h : r.Unshared) (sheds : r.Sheds r') : r'.Unshared where
  ascending hy := by
    rcases sheds.target hy with none | ⟨x, hx, -, sub⟩
    · rw [none]
      exact List.Pairwise.nil
    · exact List.Pairwise.sublist sub (h.ascending hx)
  there holds a ha := by
    obtain ⟨x, hx⟩ := Option.ne_none_iff_exists'.1 (h.there (sheds.holds h holds) a ha)
    obtain ⟨y, hy, -⟩ := sheds.assumptions.entry hx
    simp [hy]
  distinct holds := h.distinct (sheds.holds h holds)
  owner holds holds' := h.owner (sheds.holds h holds) (sheds.holds h holds')

theorem Recorded.sheds (h : r.Recorded p) (sheds : r.Sheds r') : r'.Recorded p :=
  { h.toUnshared.sheds sheds with
    faithful := fun holds => by
      obtain ⟨fold, last, records⟩ := h.faithful (sheds.holds h.toUnshared holds)
      exact ⟨fold, last, records.ages sheds.assumptions⟩ }

/-- Recording one fold adds one constant, under new assumptions. -/
theorem holds_recordFold {fold : SpeculativeFold} (h : (r.recordFold t fold).Holds u m b k) :
    r.Holds u m b k ∨ u = t ∧ b = fold.index ∧
      k.assumptions = (r.assumptions.registerAll fold.assumptions).1 := by
  obtain ⟨y, hy, method, hk⟩ := h
  obtain ⟨x, hx, rfl | ⟨rfl, rfl⟩⟩ := Arena.of_get?_modify hy
  · exact .inl ⟨y, hx, method, hk⟩
  · simp only [CallTarget.addConstant, RequiredConstants.get?_insert] at hk
    split at hk
    next same =>
      obtain rfl := Option.some.inj hk
      exact .inr ⟨rfl, same.symm, rfl⟩
    next => exact .inl ⟨x, hx, method, hk⟩

theorem Unshared.recordFold (h : r.Unshared) (t : TargetId) (fold : SpeculativeFold) :
    (r.recordFold t fold).Unshared where
  ascending {u y} hy := by
    obtain ⟨x, hx, rfl | ⟨rfl, rfl⟩⟩ := Arena.of_get?_modify hy
    · exact h.ascending hx
    · exact (h.ascending hx).insert ..
  there holds a ha := by
    have described := r.assumptions.descriptions_registerAll fold.assumptions
    rcases holds_recordFold holds with old | ⟨-, -, new⟩
    · obtain ⟨x, hx⟩ := Option.ne_none_iff_exists'.1 (h.there old a ha)
      have kept := r.assumptions.extends_registerAll fold.assumptions hx
      exact fun none => by simp [Region.recordFold, kept] at none
    · rw [new] at ha
      obtain ⟨d, -, same⟩ := List.mem_map.1 (described ▸ List.mem_map_of_mem ha)
      intro none
      simp only [Region.recordFold] at none
      simp [AssumptionTable.description?, none] at same
  distinct holds := by
    rcases holds_recordFold holds with old | ⟨-, -, new⟩
    · exact h.distinct old
    · rw [new]
      exact AssumptionTable.nodup_registerAll ..
  owner {_ _ _ _ _ _ _ _ a} holds holds' ha ha' := by
    -- an assumption that is new is not one of those that are there
    have apart {u m b k} (old : r.Holds u m b k) (ha : a ∈ k.assumptions)
        (new : a ∈ (r.assumptions.registerAll fold.assumptions).1) : False :=
      h.there old a ha (AssumptionTable.get?_of_registerAll new)
    rcases holds_recordFold holds with old | ⟨rfl, rfl, new⟩ <;>
      rcases holds_recordFold holds' with old' | ⟨rfl, rfl, new'⟩
    · exact h.owner old old' ha ha'
    · exact (apart old ha (new' ▸ ha')).elim
    · exact (apart old' ha' (new ▸ ha)).elim
    · exact ⟨rfl, rfl⟩

theorem Unshared.recordFolds (h : r.Unshared) (t : TargetId) (folds : List SpeculativeFold) :
    (r.recordFolds t folds).Unshared := by
  induction folds generalizing r with
  | nil => exact h
  | cons fold folds ih => exact ih (h.recordFold t fold)

/-- Recording the folds of the method of a target. -/
theorem Recorded.recordFolds (h : r.Recorded p) (hx : r.targets.get? t = some x) :
    (r.recordFolds t (p.foldsOf x.method)).Recorded p :=
  { h.toUnshared.recordFolds t _ with
    faithful := fun {u m b k} holds => by
      obtain ⟨cs, hcs, recorded⟩ := get?_recordFolds hx (p.foldsOf x.method)
      obtain ⟨y, hy, rfl, hk⟩ := holds
      by_cases here : t = u
      · subst here
        obtain rfl := Option.some.inj (hcs.symm.trans hy)
        cases last : lastFold? (p.foldsOf x.method) b with
        | none =>
          have before : r.Holds t x.method b k := ⟨x, hx, rfl, ((recorded b).1 last).symm.trans hk⟩
          obtain ⟨fold, some, -⟩ := h.faithful before
          exact absurd (last.symm.trans some) nofun
        | some fold =>
          obtain ⟨k', hk', records⟩ := (recorded b).2 fold last
          obtain rfl := Option.some.inj (hk'.symm.trans hk)
          exact ⟨fold, rfl, records⟩
      · rw [get?_recordFolds_of_ne r here] at hy
        obtain ⟨fold, last, records⟩ := h.faithful ⟨y, hy, rfl, hk⟩
        exact ⟨fold, last, records.ages (assumptions_recordFolds ..).ages⟩ }

/-- The assumptions that constants depend on, once for each mention. -/
def citations (r : Region) : List AssumptionId :=
  r.targets.toList.flatMap fun x => x.constants.flatMap fun e => e.2.assumptions

/-- Every assumption is mentioned at most once. -/
theorem Unshared.nodup_citations (h : r.Unshared) : r.citations.Nodup := by
  refine List.nodup_iff_count_le_one.2 fun a => ?_
  by_cases cited : a ∈ r.citations
  swap
  · simp [List.count_eq_zero.2 cited]
  obtain ⟨x, hx, ha⟩ := List.mem_flatMap.1 cited
  obtain ⟨t, hx⟩ := Arena.mem_toList_iff.1 hx
  obtain ⟨⟨b, k⟩, he, ha⟩ := List.mem_flatMap.1 ha
  have ascending := h.ascending hx
  have holds {u y e} (hy : r.targets.get? u = some y) (he : e ∈ y.constants) :
      r.Holds u y.method e.1 e.2 := ⟨y, hy, rfl, (h.ascending hy).mem_iff.1 he⟩
  have here := h.distinct (holds hx he)
  rw [citations, Arena.count_flatMap hx fun u y hy hu => ?_]
  · obtain ⟨i, hi⟩ := List.mem_iff_getElem?.1 he
    rw [count_flatMap_of_only hi fun j e hj hae => ?_]
    · exact List.nodup_iff_count_le_one.1 here a
    · have mem := List.mem_of_getElem? hj
      obtain ⟨-, same⟩ := h.owner (holds hx he) (holds hx mem) ha hae
      have entry : e = (b, k) := by
        obtain ⟨b', k'⟩ := e
        obtain rfl : b = b' := same
        exact congrArg (Prod.mk b) (Option.some.inj ((ascending.mem_iff.1 mem).symm.trans
          (ascending.mem_iff.1 he)))
      have distinct : x.constants.Nodup := ascending.imp fun lt eq => lt.ne (congrArg Prod.fst eq)
      obtain ⟨long, -⟩ := List.getElem?_eq_some_iff.1 hj
      exact (List.getElem?_inj long distinct).1 (hj.trans (entry ▸ hi.symm))
  · obtain ⟨e, hey, hae⟩ := List.mem_flatMap.1 hu
    exact ((h.owner (holds hx he) (holds hy hey) ha hae).1).symm

end Region

section Stable

variable {env : Environment} {c c' : Compilation}

/-- A stroke records the folds of one body, or it records nothing. -/
theorem Effect.recorded (h : Effect env c c') (recorded : c.region.Recorded env.program) :
    c'.region.Recorded env.program := by
  by_cases folded : ∃ t x, c.region.targets.get? t = some x ∧
      c' = { c with region := c.region.recordFolds t (env.program.foldsOf x.method) }
  · obtain ⟨t, x, hx, rfl⟩ := folded
    exact recorded.recordFolds hx
  · refine recorded.sheds ⟨fun {t y} hy => ?_, h.assumptions.ages⟩
    rcases h.targetChange hy with ⟨new, -⟩ | ⟨hx, agrees⟩ | ⟨-, -, rfl, -⟩ | ⟨hx, -, same⟩
    · exact .inl new.constants
    · exact .inr ⟨_, hx, agrees.method, agrees.constants ▸ List.Sublist.refl _⟩
    · exact .inl rfl
    · exact absurd ⟨t, _, hx, same⟩ folded

theorem Region.sheds_of_modify {r : Region} {assumptions : AssumptionTable}
    (table : r.assumptions.Ages assumptions) {t : TargetId} {f : CallTarget → CallTarget}
    (less : ∀ x, r.targets.get? t = some x →
      (f x).method = x.method ∧ (f x).constants.Sublist x.constants) :
    r.Sheds { r with targets := r.targets.modify t f, assumptions } where
  target {u y} hy := by
    obtain ⟨x, hx, rfl | ⟨rfl, rfl⟩⟩ := Arena.of_get?_modify hy
    · exact .inr ⟨y, hx, rfl, List.Sublist.refl _⟩
    · exact .inr ⟨x, hx, less x hx⟩
  assumptions := table

theorem stable_recorded : Stable env fun c => c.region.Recorded env.program where
  effect h effect := effect.recorded h
  broken h broke := h.sheds {
    target := fun {t y} hy => .inr ⟨y, by rwa [← broke.targets], rfl, List.Sublist.refl _⟩
    assumptions := by cases broke <;> exact .refl _ }
  adopt _ _ h := h
  mark h _ _ := h.sheds (Region.sheds_of_modify (.refl _) fun _ _ => ⟨rfl, List.Sublist.refl _⟩)
  replay {c t x} folds h hx := by
    have wears := Replay.wears_foldAll ⟨x.constants, c.region.assumptions⟩ folds
    refine h.sheds (Region.sheds_of_modify wears.assumptions fun y hy => ⟨rfl, ?_⟩)
    obtain rfl := Option.some.inj (hx.symm.trans hy)
    exact wears.constants
  invalidate {c} a h := h.sheds {
    target := fun hy => .inr ⟨_, hy, rfl, List.Sublist.refl _⟩
    assumptions := c.region.assumptions.ages_invalidate a }

theorem Visits.recorded {p : Program} {config : Configuration} {earlier : List InlinedRecord}
    (h : Visits p config earlier c) : c.region.Recorded p := by
  have empty {t m b k} : ¬ (Compilation.start config earlier).region.Holds t m b k := by
    rintro ⟨x, hx, -⟩
    simp at hx
  refine h.stable (P := fun c => c.region.Recorded p) (fun _ => stable_recorded) ?_
  exact {
    ascending := fun hx => by simp at hx
    there := fun holds => absurd holds empty
    distinct := fun holds => absurd holds empty
    owner := fun holds => absurd holds empty
    faithful := fun holds => absurd holds empty }

end Stable

end Inlining
