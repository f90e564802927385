import Inlining.Proofs.Replays

/-!
# Folds do not depend on each other

What a replay of one fold answers is settled by the constant that is recorded for it, and by whether one of
the assumptions of this constant was invalidated (`Region.Leaves`). Only two requests touch these: a replay
of the same fold, and one that invalidates such an assumption. Whatever else is requested, and however
often, the answer stays as it is (`Visits.leaves_of_spared`).
-/

namespace Inlining

open Exploration

/-- From `r` to `r'` nothing changed that a replay of the fold of `t` at `b` depends on. -/
structure Region.Leaves (r r' : Region) (t : TargetId) (b : Int) : Prop where
  target : ∀ {x}, r.targets.get? t = some x →
    ∃ y, r'.targets.get? t = some y ∧ y.constants.get? b = x.constants.get? b
  viable : ∀ {x k}, r.targets.get? t = some x → x.constants.get? b = some k →
    k.isViable r'.assumptions = k.isViable r.assumptions

namespace Region

variable {r r' r'' : Region} {t : TargetId} {x : CallTarget} {b : Int}

theorem Leaves.refl (r : Region) (t : TargetId) (b : Int) : r.Leaves r t b :=
  ⟨fun hx => ⟨_, hx, rfl⟩, fun _ _ => rfl⟩

theorem Leaves.trans (h : r.Leaves r' t b) (h' : r'.Leaves r'' t b) : r.Leaves r'' t b where
  target hx := by
    obtain ⟨y, hy, same⟩ := h.target hx
    obtain ⟨z, hz, same'⟩ := h'.target hy
    exact ⟨z, hz, same'.trans same⟩
  viable hx hk := by
    obtain ⟨y, hy, same⟩ := h.target hx
    exact (h'.viable hy (same.trans hk)).trans (h.viable hx hk)

/-- Enlarging targets leaves every fold as it is. -/
theorem Enlarges.leaves (h : r.Enlarges r') (unshared : r.Unshared) (t : TargetId) (b : Int) :
    r.Leaves r' t b where
  target hx := (h.target hx).elim fun _ hy => ⟨_, hy, rfl⟩
  viable {x k} hx hk := by
    refine RequiredConstant.isViable_congr fun a ha => ?_
    obtain ⟨entry, he⟩ := Option.ne_none_iff_exists'.1 (unshared.there ⟨x, hx, rfl, hk⟩ a ha)
    rw [AssumptionTable.state?, AssumptionTable.state?, he, h.assumptions he]

/-- What one target lost at other indices, and what happened to assumptions that the fold does not depend
on, does not matter. -/
theorem leaves_of_modify {assumptions : AssumptionTable} {u : TargetId} {f : CallTarget → CallTarget}
    (same : u = t → ∀ x, r.targets.get? t = some x → (f x).constants.get? b = x.constants.get? b)
    (viable : ∀ x k, r.targets.get? t = some x → x.constants.get? b = some k →
      k.isViable assumptions = k.isViable r.assumptions) :
    r.Leaves { r with targets := r.targets.modify u f, assumptions } t b where
  target {x} hx := by
    rw [Arena.get?_modify]
    split
    next here => exact ⟨f x, by rw [hx]; rfl, same here x hx⟩
    next => exact ⟨x, hx, rfl⟩
  viable hx hk := viable _ _ hx hk

end Region

/-- What a request does is nothing to the fold of `t` at `b`: it is no replay of this fold, and it
invalidates no assumption of the constant that is recorded for it. -/
def Request.Spares (r : Region) (t : TargetId) (b : Int) : Request → Prop
  | .replay u folds => u = t → ∀ fold ∈ folds, fold.1 ≠ b
  | .invalidate a => ∀ x k, r.targets.get? t = some x → x.constants.get? b = some k → a ∉ k.assumptions
  | .explore _ | .revisit _ | .markInlined _ => True

section Sessions

variable (p : Program) (config : Configuration)

/-- Some requests later, each of which spared the fold of `t` at `b`, whether it succeeded or failed. -/
def Spared (t : TargetId) (b : Int) : Compilation → Compilation → Prop :=
  Relation.ReflTransGen fun c c' => ∃ advice request answer, Request.Spares c.region t b request ∧
    (perform ⟨p, config, advice⟩ request).run c = (answer, c')

variable {p config} {earlier : List InlinedRecord} {c c' : Compilation} {t : TargetId} {b : Int}

/-- A request that spares a fold changes nothing for it, not even if it fails. -/
theorem Visits.ensures_leaves (h : Visits p config earlier c) (advice : Advice) {request : Request}
    (spares : request.Spares c.region t b) :
    Ensures (perform ⟨p, config, advice⟩ request) c (fun _ c' => c.region.Leaves c'.region t b)
      fun _ c' => c.region.Leaves c'.region t b := by
  have unshared := h.recorded.toUnshared
  cases request with
  | explore method =>
    exact ensures_discard.2 ((h.ensures_explore_enlarges advice method).mono
      (fun _ _ h => h.leaves unshared t b) fun _ _ h => h.leaves unshared t b)
  | revisit i =>
    exact ensures_discard.2 ((h.ensures_revisit_enlarges advice i).mono
      (fun _ _ h => h.leaves unshared t b) fun _ _ h => h.leaves unshared t b)
  | markInlined u =>
    exact ensures_markInlined.2 ⟨fun x hx => ⟨fun s hs => Region.leaves_of_modify
      (fun _ _ _ => rfl) fun _ _ _ _ => rfl, fun _ => .refl ..⟩, fun _ => .refl ..⟩
  | replay u folds =>
    refine ensures_discard.2 (ensures_replay.2 ⟨fun x hx => ?_, fun _ => .refl ..⟩)
    have wears := Replay.wears_foldAll ⟨x.constants, c.region.assumptions⟩ folds
    refine Region.leaves_of_modify (fun here y hy => ?_) fun _ k _ _ => wears.isViable k
    subst here
    obtain rfl := Option.some.inj (hx.symm.trans hy)
    exact Replay.get?_foldAll (r := ⟨x.constants, c.region.assumptions⟩) fun i v _ hi =>
      absurd rfl (spares rfl _ (List.mem_of_getElem? hi))
  | invalidate a =>
    refine ⟨fun hx => ⟨_, hx, rfl⟩, fun {x k} hx hk => RequiredConstant.isViable_congr fun a' ha' => ?_⟩
    have other : a ≠ a' := fun same => spares x k hx hk (same ▸ ha')
    rw [AssumptionTable.invalidate_state?, if_neg other]

theorem Visits.leaves_of_spared (h : Visits p config earlier c) (spared : Spared p config t b c c') :
    Visits p config earlier c' ∧ c.region.Leaves c'.region t b := by
  induction spared with
  | refl => exact ⟨h, .refl ..⟩
  | tail _ request ih =>
    obtain ⟨visits, leaves⟩ := ih
    obtain ⟨advice, request, answer, spares, run⟩ := request
    have one := (visits.ensures_leaves advice spares).of_run run
    exact ⟨visits.step advice request run, leaves.trans one⟩

/-- Where nothing changed for a fold, a replay of it answers the same. -/
theorem Region.Leaves.answer (h : c.region.Leaves c'.region t b) {x : CallTarget}
    (hx : c.region.targets.get? t = some x) (v : Constant) :
    ((replay t [(b, v)]).run c').1 = ((replay t [(b, v)]).run c).1 := by
  obtain ⟨y, hy, same⟩ := h.target hx
  rw [run_replay hx, run_replay hy]
  have first : (Replay.foldAt ⟨y.constants, c'.region.assumptions⟩ b v).1 =
      (Replay.foldAt ⟨x.constants, c.region.assumptions⟩ b v).1 :=
    Replay.foldAt_congr same fun k hk => h.viable hx hk
  simp [Replay.foldAll, first]

end Sessions

end Inlining
