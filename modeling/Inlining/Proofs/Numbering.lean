import Inlining.Proofs.Aging
import Inlining.Proofs.Display
import Inlining.Proofs.Stock

/-!
# How targets are numbered

A target is created without a number and gets the next one when it is taken up. Every target is taken up
once: those that wait are exactly those without a number (`Enumerates`), so in the end the numbers of all
targets are an initial segment of the natural numbers without repetition. A body is explored after its
target was taken up, and what is found in it gets its numbers then, so numbers grow from a body to the
bodies inside (`Compilation.InOrder`). What is given up keeps its number.
-/

namespace Inlining

/-- The number of a target, if it has one; nothing if there is no such target. -/
def Region.label? (r : Region) (t : TargetId) : Option (Option Nat) :=
  (r.targets.get? t).map (·.number)

namespace Region

variable {r : Region} {t : TargetId}

/-- A change to a target that leaves its number alone. -/
theorem label_modify {f : CallTarget → CallTarget}
    (same : ∀ x, r.targets.get? t = some x → (f x).number = x.number) :
    ({ r with targets := r.targets.modify t f } : Region).label? = r.label? := by
  funext u
  simp only [label?, Arena.get?_modify]
  split
  next here =>
    subst here
    cases hx : r.targets.get? t with
    | none => rfl
    | some x => exact congrArg some (same x hx)
  next => rfl

theorem label_recordFolds (r : Region) (t : TargetId) (folds : List SpeculativeFold) :
    (r.recordFolds t folds).label? = r.label? := by
  induction folds generalizing r with
  | nil => rfl
  | cons fold folds ih => exact (ih _).trans (label_modify fun _ _ => rfl)

theorem label_settle (r : Region) (t : TargetId) (found : List SiteId) :
    (r.settle t found).label? = r.label? := by
  have sited : (found.foldl (fun r i => r.addFound t i) r).label? = r.label? := by
    rw [foldl_addFound]
    exact label_modify fun _ _ => rfl
  rw [← sited]
  exact label_modify fun _ _ => rfl

theorem label_grow (r : Region) (ts : List TargetId) (size : Size) :
    (r.grow ts size).label? = r.label? := by
  induction ts generalizing r with
  | nil => rfl
  | cons t ts ih =>
    exact (ih { r with targets := r.targets.modify t _ }).trans (label_modify fun _ _ => rfl)

theorem label_put_drops {id : SiteId} {s : CallSite} {journal : Journal} {scope : SiteScope}
    {reason : FailureReason} {ts : List TargetId}
    (drops : (⟨s, r.targets, journal⟩ : SiteScope).Drops reason scope ts) :
    (r.put id scope).label? = r.label? := by
  funext u
  simp only [label?, put, drops.target]
  split
  · cases r.targets.get? u <;> rfl
  · rfl

end Region

section Strokes

variable {env : Environment} {c c' : Compilation} {t : TargetId} {x : CallTarget}

theorem Cut.label {reason : FailureReason} (h : Cut reason c c') :
    c'.region.label? = c.region.label? ∧ c'.nextNumber = c.nextNumber := by
  rcases h.cases with ⟨id, s, scope, ts, -, drops, rfl⟩ | ⟨u, y, z, i, hy, hz, rfl⟩
  · exact ⟨Region.label_put_drops drops, rfl⟩
  · refine ⟨Region.label_modify fun w hw => ?_, rfl⟩
    obtain rfl := Option.some.inj (hy.symm.trans hw)
    unfold CallTarget.removeCallee at hz
    split at hz <;> cases hz
    rfl

/-- A quiet stroke gives no number. -/
theorem Quiet.label (h : Quiet env c c') :
    c'.region.label? = c.region.label? ∧ c'.nextNumber = c.nextNumber := by
  cases h with
  | enter | leave | spend => exact ⟨rfl, rfl⟩
  | settle t found => exact ⟨c.region.label_settle t found, rfl⟩
  | cut _ cut => exact cut.label
  | charge chain size => exact ⟨c.region.label_grow chain size, rfl⟩

namespace Compilation

theorem label_numbered (hx : c.region.targets.get? t = some x) :
    (c.numbered t).region.label? = Function.update c.region.label? t (some (some c.nextNumber)) := by
  funext u
  simp only [Region.label?, numbered, Arena.get?_modify, Function.update_apply]
  by_cases here : t = u
  · subst here
    simp [hx]
  · simp [here, Ne.symm here]

theorem label_entered (hx : c.region.targets.get? t = some x) (method : MethodId) (depth : Nat) :
    (c.entered env t method depth).region.label? =
      Function.update c.region.label? t (some (some c.nextNumber)) :=
  (Region.label_recordFolds ..).trans (label_numbered hx)

/-- Resolving a site creates targets without numbers. -/
theorem label_resolve (c : Compilation) (env : Environment) (stack : CallStack) {id : SiteId}
    {s : CallSite} (hs : c.region.sites.get? id = some s) :
    ∃ new, (c.resolve env stack id s).region.forest.live id = s.live ++ new ∧ new.Nodup ∧
      (∀ t ∈ new, c.region.label? t = none) ∧
      (c.resolve env stack id s).region.label? =
        fun t => if t ∈ new then some none else c.region.label? t := by
  obtain ⟨new, makes⟩ := (c.scope s).makes_resolved env stack
  refine ⟨new, (Region.forest_put_live (by simp [hs])).trans makes.live, makes.distinct,
    fun t ht => ?_, funext fun t => ?_⟩
  · exact congrArg (Option.map (·.number)) (makes.fresh t ht)
  · split
    next new =>
      obtain ⟨x, hx, made⟩ := makes.made t new
      exact (congrArg (Option.map (·.number)) hx).trans (congrArg some made.number)
    next old => exact congrArg (Option.map (·.number)) (makes.kept t old)

end Compilation

end Strokes

/-- The targets without a number are those that wait, and the numbers below `next` were given, each of
them once. -/
structure Enumerates (label : TargetId → Option (Option Nat)) (next : Nat) (waiting : List TargetId) :
    Prop where
  distinct : waiting.Nodup
  waits : ∀ t, t ∈ waiting ↔ label t = some none
  once : ∀ {t u n}, label t = some (some n) → label u = some (some n) → t = u
  given : ∀ n, n < next ↔ ∃ t, label t = some (some n)

namespace Enumerates

variable {label : TargetId → Option (Option Nat)} {next : Nat} {waiting new : List TargetId}
  {t : TargetId}

/-- Targets that are created wait to be taken up. -/
theorem create (h : Enumerates label next waiting) (distinct : new.Nodup)
    (fresh : ∀ t ∈ new, label t = none) :
    Enumerates (fun t => if t ∈ new then some none else label t) next (new ++ waiting) := by
  have numbered (t : TargetId) (n : Nat) :
      (if t ∈ new then some none else label t) = some (some n) ↔ label t = some (some n) := by
    split
    next created => simp [fresh t created]
    next => rfl
  constructor
  · refine List.nodup_append'.2 ⟨distinct, h.distinct, fun t created waits => ?_⟩
    have there := (h.waits t).1 waits
    rw [fresh t created] at there
    cases there
  · intro t
    rw [List.mem_append, h.waits]
    split
    next created => simp [created]
    next old => simp [old]
  · intro t u n ht hu
    exact h.once ((numbered t n).1 ht) ((numbered u n).1 hu)
  · intro n
    simp only [numbered]
    exact h.given n

/-- The target that waits first gets the next number. -/
theorem take (h : Enumerates label next (t :: waiting)) :
    Enumerates (Function.update label t (some (some next))) (next + 1) waiting := by
  obtain ⟨first, distinct⟩ := List.nodup_cons.1 h.distinct
  have unused {u : TargetId} : label u ≠ some (some next) := fun hu =>
    absurd ((h.given next).2 ⟨u, hu⟩) (lt_irrefl next)
  constructor
  · exact distinct
  · intro u
    rw [Function.update_apply]
    split
    next here => simp [here, first]
    next other => rw [← h.waits, List.mem_cons, or_iff_right other]
  · intro u v n hu hv
    rw [Function.update_apply] at hu hv
    split at hu <;> split at hv
    next hu' hv' => exact hu'.trans hv'.symm
    next =>
      cases hu
      exact absurd hv unused
    next =>
      cases hv
      exact absurd hu unused
    next => exact h.once hu hv
  · intro n
    have waits : label t = some none := (h.waits t).1 (List.mem_cons_self ..)
    constructor
    · intro below
      rcases Nat.lt_succ_iff_lt_or_eq.1 below with before | rfl
      · obtain ⟨u, hu⟩ := (h.given n).1 before
        have other : u ≠ t := by
          rintro rfl
          cases waits.symm.trans hu
        exact ⟨u, by rwa [Function.update_of_ne other]⟩
      · exact ⟨t, Function.update_self ..⟩
    · rintro ⟨u, hu⟩
      rw [Function.update_apply] at hu
      split at hu
      next =>
        cases hu
        exact Nat.lt_succ_self next
      next => exact Nat.lt_succ_of_lt ((h.given n).2 ⟨u, hu⟩)

end Enumerates

/-- The targets that wait are those without a number, and the others are numbered from 0 on. -/
def Compilation.Enumerated (waiting : List TargetId) (c : Compilation) : Prop :=
  Enumerates c.region.label? c.nextNumber waiting

section Turns

variable {env : Environment} {a a' : List TargetId × Compilation}

/-- A turn gives the next number to the target that waits first, or to none. -/
theorem Turn.enumerated (h : Turn env a a') (before : a.2.Enumerated a.1) : a'.2.Enumerated a'.1 := by
  unfold Compilation.Enumerated at before ⊢
  cases h with
  | quiet quiet =>
    obtain ⟨label, next⟩ := quiet.label
    rwa [label, next]
  | @call waiting c k _ stack hk =>
    have hs := c.get?_withSite (congrArg Call.id hk)
    obtain ⟨new, live, distinct, fresh, label⟩ := (c.withSite k).label_resolve env stack hs
    have created : (c.opened env stack k).region.forest.live k.id = new := live
    simp only [created]
    exact label ▸ before.create distinct fresh
  | @again waiting new c id s chain stack hs _ _ _ added =>
    obtain ⟨new', live, distinct, fresh, label⟩ := c.label_resolve env stack hs
    obtain rfl := List.append_cancel_left (added.symm.trans live)
    exact label ▸ before.create distinct fresh
  | @refuse waiting c t x id s hx _ hs live =>
    have drops : ((c.numbered t).scope s).Drops .uninlineable
        (((c.numbered t).scope s).giveUp t .uninlineable) [t] := SiteScope.drops_giveUp live
    have label : ((c.numbered t).region.put id _).label? = (c.numbered t).region.label? :=
      Region.label_put_drops drops
    exact (label.trans (Compilation.label_numbered hx)) ▸ before.take
  | @enter waiting c t x depth hx =>
    exact (Compilation.label_entered hx x.method depth) ▸ before.take

theorem Turns.enumerated (h : Turns env a a') (before : a.2.Enumerated a.1) : a'.2.Enumerated a'.1 :=
  h.invariant (P := fun waiting c => c.Enumerated waiting) (fun before turn => turn.enumerated before)
    before

end Turns

/-- Numbers grow from a target to those on the sites that it owns, and the next one is larger than all. -/
structure Compilation.InOrder (c : Compilation) : Prop where
  bounded : ∀ {t n}, c.region.label? t = some (some n) → n < c.nextNumber
  nested : ∀ {t u i n m}, c.region.forest.Owns t i → c.region.forest.home? u = some i →
    c.region.label? t = some (some n) → c.region.label? u = some (some m) → n < m

/-- From `c` to `c'` numbers were given in order, none of which was given before. -/
structure Proceeds (c c' : Compilation) : Prop where
  earlier : c'.previouslyInlined = c.previouslyInlined
  next : c.nextNumber ≤ c'.nextNumber
  new : ∀ {t n}, c'.region.label? t = some (some n) →
    c.region.label? t = some (some n) ∨ c.nextNumber ≤ n
  inOrder : c.InOrder → c'.InOrder

section Order

variable {env : Environment} {c c' c'' : Compilation} {id : SiteId} {t : TargetId} {x : CallTarget}

theorem Proceeds.refl (c : Compilation) : Proceeds c c := ⟨rfl, le_rfl, .inl, id⟩

theorem Proceeds.trans (h : Proceeds c c') (h' : Proceeds c' c'') : Proceeds c c'' where
  earlier := h'.earlier.trans h.earlier
  next := h.next.trans h'.next
  new ht := (h'.new ht).elim h.new fun later => .inr (h.next.trans later)
  inOrder ordered := h'.inOrder (h.inOrder ordered)

/-- Only the numbers matter, what is on which site, and who owns it. -/
theorem Proceeds.of_same (earlier : c'.previouslyInlined = c.previouslyInlined)
    (label : c'.region.label? = c.region.label?) (next : c'.nextNumber = c.nextNumber)
    (origin : c'.region.forest.origin? = c.region.forest.origin?)
    (owns : ∀ t i, c'.region.forest.Owns t i ↔ c.region.forest.Owns t i) : Proceeds c c' where
  earlier
  next := next.ge
  new ht := .inl (label ▸ ht)
  inOrder ordered :=
    { bounded := fun ht => next ▸ ordered.bounded (label ▸ ht)
      nested := fun owner home ht hu =>
        ordered.nested ((owns ..).1 owner) (by rwa [Forest.home?, origin] at home) (label ▸ ht)
          (label ▸ hu) }

theorem Still.proceeds (h : Still env c c') : Proceeds c c' :=
  .of_same h.quiet.effect.fixed.1 h.quiet.label.1 h.quiet.label.2 h.origin h.owns

/-- Where a site got targets without numbers, nothing was numbered. -/
theorem Proceeds.of_keeps {S : Set SiteId} {T : Set TargetId}
    (earlier : c'.previouslyInlined = c.previouslyInlined)
    (sound : c.region.forest.Sound env.config.maxDepth) (keeps : c.region.Keeps c'.region S T)
    (next : c'.nextNumber = c.nextNumber) {new : List TargetId}
    (label : c'.region.label? = fun t => if t ∈ new then some none else c.region.label? t) :
    Proceeds c c' := by
  have old {t : TargetId} {n : Nat} (ht : c'.region.label? t = some (some n)) :
      c.region.label? t = some (some n) := by
    simp only [label] at ht
    split at ht
    next => cases ht
    next => exact ht
  refine ⟨earlier, next.ge, fun ht => .inl (old ht), fun ordered => ⟨fun ht => next ▸ ordered.bounded
    (old ht), fun {t u i n m} owner home ht hu => ?_⟩⟩
  obtain ⟨x, hx, -⟩ := Option.map_eq_some_iff.1 (old hu)
  have ho := Region.forest_origin (r := c.region) hx
  have was : c.region.forest.home? u = some i := by
    rw [Forest.home?, keeps.origin ho] at home
    rwa [Forest.home?, ho]
  obtain ⟨k, hk, -⟩ := sound.within was
  exact ordered.nested (keeps.owner owner (by simp [hk])) was (old ht) (old hu)

/-- A target in whose body nothing was found yet gets the next number. -/
theorem Proceeds.of_number (pending : c.region.forest.Pending id t)
    (earlier : c'.previouslyInlined = c.previouslyInlined)
    (forest : c'.region.forest = c.region.forest) (next : c'.nextNumber = c.nextNumber + 1)
    (label : c'.region.label? =
      Function.update c.region.label? t (some (some c.nextNumber))) : Proceeds c c' := by
  have split {u : TargetId} {n : Nat} (hu : c'.region.label? u = some (some n)) :
      u ≠ t ∧ c.region.label? u = some (some n) ∨ u = t ∧ n = c.nextNumber := by
    rw [label, Function.update_apply] at hu
    split at hu
    next here =>
      cases hu
      exact .inr ⟨here, rfl⟩
    next other => exact .inl ⟨other, hu⟩
  constructor
  · exact earlier
  · omega
  · intro u n hu
    exact (split hu).imp (·.2) fun ⟨_, number⟩ => number.ge
  · intro ordered
    constructor
    · intro u n hu
      rcases split hu with ⟨-, hu⟩ | ⟨-, rfl⟩
      · have := ordered.bounded hu
        omega
      · omega
    · intro u v i n m owner home hu hv
      rw [forest] at owner home
      have other : u ≠ t := by
        rintro rfl
        simp [Forest.Owns, pending.callees, pending.deleted] at owner
      have hu := ((split hu).resolve_right fun here => other here.1).2
      rcases split hv with ⟨-, hv⟩ | ⟨-, rfl⟩
      · exact ordered.nested owner home hu hv
      · exact ordered.bounded hu

theorem Proceeds.numbered (pending : c.region.forest.Pending id t)
    (hx : c.region.targets.get? t = some x) : Proceeds c (c.numbered t) :=
  .of_number pending rfl (c.forest_numbered t) rfl (Compilation.label_numbered hx)

theorem Proceeds.entered (pending : c.region.forest.Pending id t)
    (hx : c.region.targets.get? t = some x) (depth : Nat) :
    Proceeds c (c.entered env t x.method depth) :=
  .of_number pending rfl (c.forest_entered env t x.method depth) rfl
    (Compilation.label_entered hx x.method depth)

/-- What was found in the body of a target since it got its number has larger numbers. -/
theorem Proceeds.settle {method : MethodId} {depth n : Nat} {calls : List CallInstruction}
    {found : List SiteId} (sound : c.region.forest.Sound env.config.maxDepth)
    (pending : c.region.forest.Pending id t) (number : c.region.label? t = some (some n))
    (below : Proceeds c c') (walked : Exploration.Walked env method depth calls found c c') :
    Proceeds c { c' with region := c'.region.settle t found } := by
  have label := c'.region.label_settle t found
  refine ⟨below.earlier, below.next, fun ht => below.new (label ▸ ht), fun ordered => ?_⟩
  have ordered' := below.inOrder ordered
  refine ⟨fun ht => ordered'.bounded (label ▸ ht), fun {u v i a b} owner home hu hv => ?_⟩
  dsimp only at owner home hu hv
  rw [label] at hu hv
  obtain ⟨x, hx, -⟩ := Option.map_eq_some_iff.1 number
  have hx' := walked.grown.keeps.target hx (Set.notMem_empty t)
  rw [Region.forest_settle c'.region hx' found] at owner home
  rcases (Forest.owns_settle x.size found (walked.grown.pending sound pending)).1 owner with
    owner | ⟨rfl, here⟩
  · exact ordered'.nested owner home hu hv
  · have same : c'.region.label? u = c.region.label? u := by rw [Region.label?, Region.label?, hx', hx]
    obtain rfl : n = a := by simpa [number] using same.symm.trans hu
    rcases below.new hv with old | later
    · -- a target with a number was on a site, but the sites that were found are new
      obtain ⟨y, hy, -⟩ := Option.map_eq_some_iff.1 old
      have ho := Region.forest_origin (r := c.region) hy
      have was : c.region.forest.home? v = some i := by
        change c'.region.forest.home? v = some i at home
        rw [Forest.home?, walked.grown.keeps.origin ho] at home
        rwa [Forest.home?, ho]
      obtain ⟨k, hk, -⟩ := sound.within was
      cases hk.symm.trans (walked.fresh i here)
    · exact (ordered.bounded number).trans_le later

/-- An exploration numbers what it goes through in order. -/
theorem traversal_proceeds (env : Environment) : Traversal env fun _ => Proceeds where
  refl := .refl
  trans := .trans
  earlier := Proceeds.earlier
  still before still := before.trans still.proceeds
  call {c c' k _ stack} sound hk _ _ _ _ below := by
    have kid := congrArg Call.id hk
    obtain ⟨new, -, -, -, label⟩ := (c.withSite k).label_resolve env stack (c.get?_withSite kid)
    have opened := Exploration.opened_opened sound kid stack
    have open_call : Proceeds c (c.opened env stack k) :=
      .of_keeps rfl sound opened.grown.keeps rfl label
    exact open_call.trans below
  again {c c' id s _ stack _} sound hs _ _ _ adds below := by
    obtain ⟨new, -, -, -, label⟩ := c.label_resolve env stack hs
    have resolved : Proceeds c (c.resolve env stack id s) :=
      .of_keeps rfl sound adds.keeps rfl label
    exact resolved.trans below
  refuse {c t x id s} pending hx _ hs live := by
    have given_up : Cut .uninlineable (c.numbered t) _ := .target hs live
    have still : Still env (c.numbered t) _ := given_up.still rfl
    exact (Proceeds.numbered pending hx).trans still.proceeds
  body {c c' t x id depth found} sound pending hx _ below walked := by
    have entered : Proceeds c (c.entered env t x.method depth) := .entered pending hx depth
    have number : (c.entered env t x.method depth).region.label? t = some (some c.nextNumber) := by
      rw [Compilation.label_entered hx, Function.update_self]
    rw [← c.forest_entered env t x.method depth] at sound pending
    exact entered.trans (.settle sound pending number below walked)

end Order

/-- `u` is on a site in the body of `t`, or was removed from it. -/
def Region.Nests (r : Region) (t u : TargetId) : Prop :=
  ∃ x i s, r.targets.get? t = some x ∧ i ∈ x.callees ++ x.deletedCallees ∧
    r.sites.get? i = some s ∧ u ∈ s.live ++ s.removed

open Exploration

section Sessions

variable {p : Program} {config : Configuration} {earlier : List InlinedRecord} {c : Compilation}

/-- A request that succeeds leaves no target without a number, and the numbers in order. -/
theorem Visits.ensures_numbered (h : Visits p config earlier c) (enumerated : c.Enumerated [])
    (ordered : c.InOrder) (advice : Advice) (request : Request) :
    Ensures (perform ⟨p, config, advice⟩ request) c
      (fun _ c' => c'.Enumerated [] ∧ c'.InOrder) fun _ _ => True := by
  have same {c' : Compilation} (label : c'.region.label? = c.region.label?)
      (forest : c'.region.forest = c.region.forest) (next : c'.nextNumber = c.nextNumber) :
      c'.Enumerated [] ∧ c'.InOrder := by
    refine ⟨?_, fun ht => next ▸ ordered.bounded (label ▸ ht), fun owner home ht hu => ?_⟩
    · unfold Compilation.Enumerated
      rwa [label, next]
    · rw [forest] at owner home
      rw [label] at ht hu
      exact ordered.nested owner home ht hu
  cases request with
  | explore method =>
    have numbers : Ensures (explore ⟨p, config, advice⟩ method) c (fun _ c' => c'.Enumerated [])
        fun _ _ => True := by
      refine (ensures_exploreTurns h.sound method).imp ?_
      rintro - _ ⟨c₁, roots, compiled, turns, rfl⟩
      exact turns.enumerated enumerated
    have order : Ensures (explore ⟨p, config, advice⟩ method) c (fun _ c' => c'.InOrder)
        fun _ _ => True := by
      refine ((traversal_proceeds _).ensures_explore h.sound method).imp ?_
      rintro - _ ⟨c₁, roots, compiled, proceeds, rfl⟩
      exact ⟨(proceeds.inOrder ordered).bounded, (proceeds.inOrder ordered).nested⟩
    exact ensures_discard.2 ((numbers.and order).imp_fail fun _ _ _ => trivial)
  | revisit id =>
    refine ensures_discard.2 (((ensures_revisitTurns h.sound id).and
      ((traversal_proceeds _).ensures_revisit h.sound id)).mono ?_ fun _ _ _ => trivial)
    rintro - c' ⟨turns, proceeds⟩
    exact ⟨turns.enumerated enumerated, proceeds.inOrder ordered⟩
  | markInlined u =>
    refine ensures_markInlined.2 ⟨fun x hx => ⟨fun s hs => ?_, fun _ => trivial⟩, fun _ => trivial⟩
    exact same (Region.label_modify fun _ _ => rfl) (Compilation.forest_marked ..) rfl
  | replay u folds =>
    refine ensures_discard.2 (ensures_replay.2 ⟨fun x hx => ?_, fun _ => trivial⟩)
    exact same (Region.label_modify fun _ _ => rfl) (Compilation.forest_replayed ..) rfl
  | invalidate a => exact same rfl rfl rfl

theorem Compilation.label_start (config : Configuration) (earlier : List InlinedRecord) :
    (start config earlier).region.label? = fun _ => none := by
  funext t
  rw [Region.label?, target_start]
  rfl

theorem Compilation.enumerated_start (config : Configuration) (earlier : List InlinedRecord) :
    (start config earlier).Enumerated [] := by
  unfold Enumerated
  rw [label_start]
  exact ⟨List.nodup_nil, by simp, nofun, fun n => ⟨nofun, nofun⟩⟩

theorem Compilation.inOrder_start (config : Configuration) (earlier : List InlinedRecord) :
    (start config earlier).InOrder := by
  constructor <;> simp [label_start]

/-- After a session without a failed request no target waits for a number, and the numbers are in order. -/
theorem Completes.numbered (h : Completes p config earlier c) : c.Enumerated [] ∧ c.InOrder :=
  h.invariant (P := fun c => c.Enumerated [] ∧ c.InOrder)
    ⟨Compilation.enumerated_start config earlier, Compilation.inOrder_start config earlier⟩
    fun advice request _ visited numbered =>
      visited.ensures_numbered numbered.1 numbered.2 advice request

/-- Where no target waits, the numbers of all targets are those below the number of targets. -/
theorem Compilation.Enumerated.perm (h : c.Enumerated []) :
    (c.region.targets.toList.map (·.number)).Perm
      ((List.range c.region.targets.size).map some) := by
  have label {t : TargetId} {x : CallTarget} (hx : c.region.targets.get? t = some x) :
      c.region.label? t = some x.number := by simp [Region.label?, hx]
  have numbered {t : TargetId} {x : CallTarget} (hx : c.region.targets.get? t = some x) :
      x.number ≠ none := fun missing =>
    List.not_mem_nil ((h.waits t).2 (by rw [label hx, missing]))
  have distinct : (c.region.targets.entries.map (·.2.number)).Nodup := by
    refine (List.nodup_map_iff_inj_on c.region.targets.nodup_handles.of_map).2 ?_
    rintro ⟨t, x⟩ ht ⟨u, y⟩ hu (same : x.number = y.number)
    have hx := Arena.mem_entries_iff.1 ht
    have hy := Arena.mem_entries_iff.1 hu
    obtain ⟨n, hn⟩ := Option.ne_none_iff_exists'.1 (numbered hx)
    obtain rfl := h.once (by rw [label hx, hn]) (by rw [label hy, ← same, hn])
    rw [Option.some.inj (hx.symm.trans hy)]
  have upTo : (c.region.targets.entries.map (·.2.number)).Perm ((List.range c.nextNumber).map some) := by
    refine (List.perm_ext_iff_of_nodup distinct
      (List.nodup_range.map (Option.some_injective Nat))).2 fun number => ?_
    simp only [List.mem_map, List.mem_range, Prod.exists, Arena.mem_entries_iff]
    constructor
    · rintro ⟨t, x, hx, rfl⟩
      obtain ⟨n, hn⟩ := Option.ne_none_iff_exists'.1 (numbered hx)
      exact ⟨n, (h.given n).2 ⟨t, by rw [label hx, hn]⟩, hn.symm⟩
    · rintro ⟨n, below, rfl⟩
      obtain ⟨t, ht⟩ := (h.given n).1 below
      obtain ⟨x, hx, hn⟩ := Option.map_eq_some_iff.1 ht
      exact ⟨t, x, hx, hn⟩
  have count : c.region.targets.size = c.nextNumber := by
    have length := upTo.length_eq
    rwa [List.length_map, List.length_map, List.length_range, Arena.length_entries] at length
  rw [← Arena.map_snd_entries, List.map_map, count]
  exact upTo

/-- **Every target is numbered once.** After every session without a failed request, the numbers of all
targets, also of those that were removed, are those below the number of targets, each of them once. What
is in the body of a target, at any depth and also if it was given up, has a larger number than the target.
A number stays as it is whatever is requested later. -/
theorem targets_numbered (h : Completes p config earlier c) :
    (c.region.targets.toList.map (·.number)).Perm ((List.range c.region.targets.size).map some) ∧
    (∀ t u, Relation.TransGen c.region.Nests t u → ∃ x y n m, c.region.targets.get? t = some x ∧
      c.region.targets.get? u = some y ∧ x.number = some n ∧ y.number = some m ∧ n < m) ∧
    ∀ c', Later p config c c' → ∀ t x, c.region.targets.get? t = some x →
      ∃ y, c'.region.targets.get? t = some y ∧ y.number = x.number := by
  obtain ⟨enumerated, ordered⟩ := h.numbered
  have sound := h.visits.sound
  have numbered {t : TargetId} (there : c.region.targets.get? t ≠ none) :
      ∃ x n, c.region.targets.get? t = some x ∧ x.number = some n := by
    obtain ⟨x, hx⟩ := Option.ne_none_iff_exists'.1 there
    refine ⟨x, ?_⟩
    cases hn : x.number with
    | none => exact absurd ((enumerated.waits t).2 (by simp [Region.label?, hx, hn])) List.not_mem_nil
    | some n => exact ⟨n, hx, rfl⟩
  have one {t u : TargetId} (nests : c.region.Nests t u) : ∃ x y n m,
      c.region.targets.get? t = some x ∧ c.region.targets.get? u = some y ∧ x.number = some n ∧
        y.number = some m ∧ n < m := by
    obtain ⟨x, i, s, hx, hi, hs, hu⟩ := nests
    rw [List.mem_append, ← Region.forest_live hs, ← Region.forest_removed hs] at hu
    obtain ⟨y, m, hy, hm⟩ := numbered (h.visits.retired.there hu)
    obtain ⟨x', n, hx', hn⟩ := numbered (t := t) (by simp [hx])
    obtain rfl := Option.some.inj (hx.symm.trans hx')
    exact ⟨x, y, n, m, hx, hy, hn, hm, ordered.nested ((Region.forest_owns hx).2 hi)
      (sound.placed.1 hu) (by simp [Region.label?, hx, hn]) (by simp [Region.label?, hy, hm])⟩
  refine ⟨enumerated.perm, fun t u nests => ?_, fun c' later t x hx => ?_⟩
  · induction nests with
    | single nests => exact one nests
    | tail _ nests ih =>
      obtain ⟨x, y, n, m, hx, hy, hn, hm, outer⟩ := ih
      obtain ⟨y', z, m', l, hy', hz, hm', hl, inner⟩ := one nests
      obtain rfl := Option.some.inj (hy.symm.trans hy')
      obtain rfl := Option.some.inj (hm.symm.trans hm')
      exact ⟨x, z, n, l, hx, hz, hn, hl, outer.trans inner⟩
  · obtain ⟨y, hy, ages⟩ := (later.ages h.visits).target hx
    exact ⟨y, hy, by rw [ages.same]⟩

end Sessions

/-- `draw` was found in the body of `render`, which was given up. Both keep their numbers, also when the
call of `render` is resolved again. -/
theorem targets_numbered_render :
    (renderRemoved.region.targets.toList.map (·.number)).Perm [some 0, some 1] ∧
      (∃ x y n m, renderRemoved.region.targets.get? ⟨0⟩ = some x ∧
        renderRemoved.region.targets.get? ⟨1⟩ = some y ∧ x.number = some n ∧ y.number = some m ∧ n < m) ∧
      ∃ x y, renderRemoved.region.targets.get? ⟨0⟩ = some x ∧
        renderRefused.region.targets.get? ⟨0⟩ = some y ∧ y.number = x.number := by
  have removed : Completes shapes narrow [] renderRemoved := .of_run .start (by decide +kernel)
  obtain ⟨numbers, nested, kept⟩ := targets_numbered removed
  have size : renderRemoved.region.targets.size = 2 := by decide +kernel
  rw [size] at numbers
  have body : (renderRemoved.region.targets.get? ⟨0⟩).any (·.deletedCallees.contains ⟨1⟩) := by
    decide +kernel
  have given_up : (renderRemoved.region.sites.get? ⟨1⟩).any (·.removed.contains ⟨1⟩) := by decide +kernel
  obtain ⟨x, hx, deleted⟩ := (Option.any_eq_true ..).1 body
  obtain ⟨s, hs, gone⟩ := (Option.any_eq_true ..).1 given_up
  have nests : renderRemoved.region.Nests ⟨0⟩ ⟨1⟩ :=
    ⟨x, ⟨1⟩, s, hx, List.mem_append_right _ (List.contains_iff_mem.1 deleted), hs,
      List.mem_append_right _ (List.contains_iff_mem.1 gone)⟩
  have later : Later shapes narrow renderRemoved renderRefused := .single (.of_run ..)
  obtain ⟨y, hy, same⟩ := kept renderRefused later ⟨0⟩ x hx
  exact ⟨numbers, nested ⟨0⟩ ⟨1⟩ (.single nests), x, y, hx, hy, same⟩

end Inlining
