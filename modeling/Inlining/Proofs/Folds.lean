import Inlining.Proofs.Aging

/-!
# Recording folds and replaying them

The laws of the two operations on the constants of a target. Recording the folds of a body leaves, at
every index at which the body is folded, the last fold there, under assumptions that are new, pending,
and described as the fold asks for (`Region.get?_recordFolds`). Replaying a fold repeats the constant
that is recorded at its index or makes sure that there is none from then on (`Replay.foldAt_cases`); of
a list of folds each is replayed on what the earlier ones left (`Replay.foldAll_get?`).
-/

namespace Inlining

namespace RequiredConstants

/-- No two constants are recorded at one index. -/
def Ascending (cs : RequiredConstants) : Prop := cs.Pairwise (·.1 < ·.1)

variable {cs cs' : RequiredConstants} {b : Int} {k : RequiredConstant}

theorem fst_mem_insert {e : Int × RequiredConstant} (h : e ∈ cs.insert b k) : e.1 = b ∨ e ∈ cs := by
  induction cs with
  | nil => simp_all [insert]
  | cons e' cs ih =>
    simp only [insert] at h
    grind

theorem Ascending.insert (h : cs.Ascending) (b : Int) (k : RequiredConstant) :
    (cs.insert b k).Ascending := by
  induction cs with
  | nil => exact List.pairwise_singleton ..
  | cons e cs ih =>
    obtain ⟨first, rest⟩ := List.pairwise_cons.1 h
    unfold RequiredConstants.insert
    split
    next before =>
      refine List.pairwise_cons.2 ⟨fun e' he' => ?_, h⟩
      rcases List.mem_cons.1 he' with rfl | he'
      · exact before
      · exact before.trans (first e' he')
    next =>
      split
      next same => exact List.pairwise_cons.2 ⟨same ▸ first, rest⟩
      next =>
        refine List.pairwise_cons.2 ⟨fun e' he' => ?_, ih rest⟩
        rcases fst_mem_insert he' with same | old
        · dsimp only
          omega
        · exact first e' old

/-- What is recorded at an index is the one entry with this index. -/
theorem Ascending.mem_iff (h : cs.Ascending) : (b, k) ∈ cs ↔ cs.get? b = some k := by
  induction cs with
  | nil => simp [get?]
  | cons e cs ih =>
    obtain ⟨first, rest⟩ := List.pairwise_cons.1 h
    have deeper := ih rest
    by_cases here : e.1 = b
    · have outside : (b, k) ∉ cs := fun mem => (first _ mem).ne here
      subst here
      simp [get?, outside, Prod.ext_iff, eq_comm]
    · have other : (b, k) ≠ e := by
        rintro rfl
        exact here rfl
      simpa [get?, here, other] using deeper

/-- What is left of constants was recorded before. -/
theorem Ascending.get?_sublist (h : cs.Ascending) (sub : cs'.Sublist cs) (hk : cs'.get? b = some k) :
    cs.get? b = some k :=
  h.mem_iff.1 (sub.subset (Ascending.mem_iff (h.sublist sub) |>.2 hk))

/-- Where nothing was recorded there is nothing left. -/
theorem get?_eq_none_of_sublist (sub : cs'.Sublist cs) (h : cs.get? b = none) : cs'.get? b = none := by
  simp only [get?, Option.map_eq_none_iff, List.find?_eq_none] at h ⊢
  exact fun e he => h e (sub.subset he)

end RequiredConstants

namespace AssumptionTable

def description? (t : AssumptionTable) (a : AssumptionId) : Option String :=
  (t.get? a).map (·.description)

variable {t t' : AssumptionTable}

theorem Ages.description (h : t.Ages t') {a : AssumptionId} {d : String}
    (hd : t.description? a = some d) : t'.description? a = some d := by
  obtain ⟨x, hx, rfl⟩ := Option.map_eq_some_iff.1 hd
  obtain ⟨y, hy, same, -⟩ := h.entry hx
  simp [description?, hy, same]

/-- The descriptions of assumptions stay as they are. -/
theorem Ages.descriptions (h : t.Ages t') {as : List AssumptionId} {ds : List String}
    (hd : as.map t.description? = ds.map some) : as.map t'.description? = ds.map some := by
  rw [← hd]
  refine List.map_congr_left fun a ha => ?_
  obtain ⟨d, -, same⟩ := List.mem_map.1 (hd ▸ List.mem_map_of_mem ha)
  rw [← same]
  exact h.description same.symm

/-- The handles of assumptions that are registered together are new. -/
theorem get?_of_registerAll {ds : List String} {a : AssumptionId} (ha : a ∈ (t.registerAll ds).1) :
    t.get? a = none := by
  induction ds generalizing t with
  | nil => cases ha
  | cons d ds ih =>
    rcases List.mem_cons.1 ha with rfl | ha
    · exact t.get?_next
    · have later := ih ha
      rw [register, Arena.get?_alloc] at later
      split at later
      · cases later
      · exact later

theorem nodup_registerAll (t : AssumptionTable) (ds : List String) : (t.registerAll ds).1.Nodup := by
  induction ds generalizing t with
  | nil => exact List.nodup_nil
  | cons d ds ih =>
    refine List.nodup_cons.2 ⟨fun again => ?_, ih (t.register d)⟩
    have fresh := get?_of_registerAll again
    simp [register, Arena.get?_alloc] at fresh

/-- Assumptions are registered in order, under the descriptions that were asked for. -/
theorem descriptions_registerAll (t : AssumptionTable) (ds : List String) :
    (t.registerAll ds).1.map (t.registerAll ds).2.description? = ds.map some := by
  induction ds generalizing t with
  | nil => rfl
  | cons d ds ih =>
    have first : ((t.register d).registerAll ds).2.get? t.next = some { description := d } :=
      (t.register d).extends_registerAll ds (by simp [register, Arena.get?_alloc])
    show _ :: ((t.register d).registerAll ds).1.map ((t.register d).registerAll ds).2.description? = _
    rw [ih, description?, show (t.registerAll (d :: ds)).2 = ((t.register d).registerAll ds).2 from rfl,
      first]
    rfl

end AssumptionTable

namespace RequiredConstant

variable {k : RequiredConstant} {t t' : AssumptionTable}

/-- Whether a constant is viable depends on which of its assumptions were invalidated. -/
theorem isViable_congr (h : ∀ a ∈ k.assumptions,
    t'.state? a = some .invalidated ↔ t.state? a = some .invalidated) :
    k.isViable t' = k.isViable t := by
  rw [Bool.eq_iff_iff, isViable, isViable, List.all_eq_true, List.all_eq_true]
  exact forall₂_congr fun a ha => by simp [h a ha]

end RequiredConstant

/-- The last of some folds at an index. -/
def lastFold? (folds : List SpeculativeFold) (b : Int) : Option SpeculativeFold :=
  folds.findRev? (·.index == b)

theorem mem_of_lastFold? {folds : List SpeculativeFold} {b : Int} {fold : SpeculativeFold}
    (h : lastFold? folds b = some fold) : fold ∈ folds ∧ fold.index = b := by
  rw [lastFold?, List.findRev?_eq_find?_reverse] at h
  exact ⟨List.mem_reverse.1 (List.mem_of_find?_eq_some h), by simpa using List.find?_some h⟩

theorem exists_lastFold? {folds : List SpeculativeFold} {b : Int} {fold : SpeculativeFold}
    (mem : fold ∈ folds) (index : fold.index = b) : ∃ last, lastFold? folds b = some last := by
  rw [lastFold?, List.findRev?_eq_find?_reverse, ← Option.isSome_iff_exists, List.find?_isSome]
  exact ⟨fold, List.mem_reverse.2 mem, by simpa using index⟩

/-- A constant was recorded for a fold: it has the value of the fold, and its assumptions are described
as those of the fold, in order. -/
structure RequiredConstant.Records (k : RequiredConstant) (t : AssumptionTable) (fold : SpeculativeFold) :
    Prop where
  value : k.value = fold.value
  descriptions : k.assumptions.map t.description? = fold.assumptions.map some

theorem RequiredConstant.Records.ages {k : RequiredConstant} {t t' : AssumptionTable}
    {fold : SpeculativeFold} (h : k.Records t fold) (ages : t.Ages t') : k.Records t' fold :=
  ⟨h.value, ages.descriptions h.descriptions⟩

namespace Region

variable {r : Region} {t u : TargetId} {x : CallTarget}

theorem get?_recordFold (hx : r.targets.get? t = some x) (fold : SpeculativeFold) :
    (r.recordFold t fold).targets.get? t = some (x.addConstant fold.index
      ⟨fold.value, (r.assumptions.registerAll fold.assumptions).1⟩) := by
  simp [recordFold, Arena.get?_modify, hx]

theorem get?_recordFolds_of_ne (r : Region) (other : t ≠ u) (folds : List SpeculativeFold) :
    (r.recordFolds t folds).targets.get? u = r.targets.get? u := by
  induction folds generalizing r with
  | nil => rfl
  | cons fold folds ih =>
    refine (ih (r.recordFold t fold)).trans ?_
    simp [recordFold, Arena.get?_modify, other]

/-- At every index at which there are folds the last one is recorded, and nothing else changes. -/
theorem get?_recordFolds (hx : r.targets.get? t = some x) (folds : List SpeculativeFold) :
    ∃ cs, (r.recordFolds t folds).targets.get? t = some { x with constants := cs } ∧ ∀ b,
      (lastFold? folds b = none → cs.get? b = x.constants.get? b) ∧
      ∀ fold, lastFold? folds b = some fold →
        ∃ k, cs.get? b = some k ∧ k.Records (r.recordFolds t folds).assumptions fold := by
  induction folds generalizing r x with
  | nil => exact ⟨x.constants, hx, fun b => ⟨fun _ => rfl, nofun⟩⟩
  | cons first rest ih =>
    obtain ⟨cs, hcs, recorded⟩ := ih (get?_recordFold hx first)
    refine ⟨cs, hcs, fun b => ?_⟩
    obtain ⟨none_later, last⟩ := recorded b
    have stands : lastFold? (first :: rest) b =
        (lastFold? rest b).or (if first.index = b then some first else none) := by
      simp only [lastFold?, List.findRev?]
      cases List.findRev? (·.index == b) rest <;> simp
    rw [stands]
    cases later : lastFold? rest b with
    | some fold => exact ⟨nofun, fun fold' h => last fold' (later.trans h)⟩
    | none =>
      have here := none_later later
      simp only [CallTarget.addConstant, RequiredConstants.get?_insert] at here
      simp only [Option.none_or, ite_eq_right_iff, reduceCtorEq, imp_false]
      split at here
      next same =>
        refine ⟨fun other => absurd same other, fun fold hf => ⟨_, here, ?_⟩⟩
        obtain rfl : first = fold := by simpa [same] using hf
        refine RequiredConstant.Records.ages ⟨rfl, ?_⟩ (assumptions_recordFolds (r.recordFold t first) t rest).ages
        exact r.assumptions.descriptions_registerAll first.assumptions
      next other => exact ⟨fun _ => here, fun fold hf => by simp [other] at hf⟩

end Region

namespace Replay

variable {r : Replay} {b : Int} {v : Constant}

/-- Replaying a fold repeats what is recorded at its index, if the value is the same and nothing that it
depends on was invalidated; then all that it depends on gets confirmed. Otherwise nothing is recorded at
the index afterwards. -/
theorem foldAt_cases (r : Replay) (b : Int) (v : Constant) :
    (∃ k, r.constants.get? b = some k ∧ k.value = v ∧ k.isViable r.assumptions = true ∧
      r.foldAt b v = (.folded ⟨b, v, k.assumptions⟩,
        { r with assumptions := r.assumptions.confirmAll k.assumptions })) ∨
    ∃ reason r', r.foldAt b v = (.unfolded reason, r') ∧ r'.constants.get? b = none ∧
      ∀ j, j ≠ b → r'.constants.get? j = r.constants.get? j := by
  have discarded : (r.constants.erase b).get? b = none ∧
      ∀ j, j ≠ b → (r.constants.erase b).get? j = r.constants.get? j :=
    ⟨by simp [RequiredConstants.get?_erase],
      fun j other => by simp [RequiredConstants.get?_erase, Ne.symm other]⟩
  unfold foldAt
  split
  next nothing => exact .inr ⟨_, _, rfl, nothing, fun _ _ => rfl⟩
  next k hk =>
    split
    next => exact .inr ⟨_, _, rfl, discarded⟩
    next viable =>
      split
      next => exact .inr ⟨_, _, rfl, discarded⟩
      next same =>
        obtain rfl := not_not.1 same
        exact .inl ⟨k, hk, rfl, by simpa using viable, rfl⟩

/-- Where nothing is recorded nothing is repeated. -/
theorem foldAt_of_none (h : r.constants.get? b = none) :
    ∃ reason, (r.foldAt b v).1 = .unfolded reason := by
  unfold foldAt
  rw [h]
  exact ⟨_, rfl⟩

/-- What a replay of a fold answers depends on the constant at its index and on whether that is viable. -/
theorem foldAt_congr {r' : Replay} (same : r'.constants.get? b = r.constants.get? b)
    (viable : ∀ k, r.constants.get? b = some k → k.isViable r'.assumptions = k.isViable r.assumptions) :
    (r'.foldAt b v).1 = (r.foldAt b v).1 := by
  unfold foldAt
  rw [same]
  cases hk : r.constants.get? b with
  | none => rfl
  | some k =>
    dsimp only
    rw [viable k hk]
    split
    · rfl
    · split <;> rfl

theorem length_foldAll (r : Replay) (folds : List (Int × Constant)) :
    (r.foldAll folds).1.length = folds.length := by
  induction folds generalizing r with
  | nil => rfl
  | cons fold folds ih => simpa [foldAll] using ih (r.foldAt fold.1 fold.2).2

/-- Where nothing is recorded at an index, no fold of a list is repeated there. -/
theorem foldAll_of_none {folds : List (Int × Constant)} {i : Nat} (h : r.constants.get? b = none)
    (hi : folds[i]? = some (b, v)) : ∃ reason, (r.foldAll folds).1[i]? = some (.unfolded reason) := by
  induction folds generalizing r i with
  | nil => simp at hi
  | cons fold folds ih =>
    cases i with
    | zero =>
      obtain rfl : fold = (b, v) := by simpa using hi
      obtain ⟨reason, unfolded⟩ := foldAt_of_none (v := v) h
      exact ⟨reason, by simp [foldAll, unfolded]⟩
    | succ i =>
      have kept := RequiredConstants.get?_eq_none_of_sublist (r.wears_foldAt fold.1 fold.2).constants h
      simpa [foldAll] using ih kept (by simpa using hi)

/-- Replaying folds discards nothing at an index at which each of them is repeated. -/
theorem get?_foldAll {folds : List (Int × Constant)} (repeated : ∀ (i : Nat) v reason,
    folds[i]? = some (b, v) → (r.foldAll folds).1[i]? ≠ some (.unfolded reason)) :
    (r.foldAll folds).2.constants.get? b = r.constants.get? b := by
  induction folds generalizing r with
  | nil => rfl
  | cons fold folds ih =>
    have first : (r.foldAt fold.1 fold.2).2.constants.get? b = r.constants.get? b := by
      rcases r.foldAt_cases fold.1 fold.2 with ⟨k, -, -, -, run⟩ | ⟨reason, r', run, -, others⟩
      · rw [run]
      · rw [run]
        refine others b ?_
        rintro rfl
        exact repeated 0 fold.2 reason rfl (by simp [foldAll, run])
    refine (ih fun i v reason hi => ?_).trans first
    exact repeated (i + 1) v reason (by simpa using hi)

/-- Each of a list of folds is replayed on what the ones before it left, and the ones behind it on what
it leaves. -/
theorem foldAll_getElem? {folds : List (Int × Constant)} {j : Nat} (hj : folds[j]? = some (b, v)) :
    ∃ before, r.Wears before ∧ (r.foldAll folds).1[j]? = some (before.foldAt b v).1 ∧
      (before.foldAt b v).2.Wears (r.foldAll folds).2 ∧
      ∀ i, (r.foldAll folds).1[j + 1 + i]? =
        ((before.foldAt b v).2.foldAll (folds.drop (j + 1))).1[i]? := by
  induction folds generalizing r j with
  | nil => simp at hj
  | cons fold folds ih =>
    cases j with
    | zero =>
      obtain rfl : fold = (b, v) := by simpa using hj
      refine ⟨r, .refl r, rfl, wears_foldAll .., fun i => ?_⟩
      simp [foldAll, Nat.add_comm 1]
    | succ j =>
      obtain ⟨before, wears, answer, after, rest⟩ := ih (r := (r.foldAt fold.1 fold.2).2) (by simpa using hj)
      refine ⟨before, (r.wears_foldAt ..).trans wears, by simpa [foldAll] using answer, after,
        fun i => ?_⟩
      have := rest i
      simpa [foldAll, Nat.add_right_comm _ 1] using this

end Replay

end Inlining
