import Inlining.Proofs.Cuts
import Inlining.Proofs.Session

/-!
# The budget of a compilation

The total is raised in two places only, in `exploreTarget` and in `charge`, and there only by a
size that was seen to fit. Everything else an operation does leaves it alone, so no request
spends more than the budget or gives back what was spent (`maintains_perform`), also one that
fails half way.
-/

namespace Inlining

namespace Exploration

theorem overflow?_eq_none_iff {env : Environment} {total fullSize : Size} {depth : Nat} :
    overflow? env total depth fullSize = none ↔
      fullSize ≤ env.config.maxCallSize ∧
        (depth = 1 → total + fullSize ≤ env.config.maxTotalSize) := by
  unfold overflow?
  simp only [Saturating.lt_def, Saturating.le_def]
  split
  next large => simpa using fun small => absurd large (Nat.not_lt.2 small)
  next small =>
    have small := Nat.not_lt.1 small
    split <;> grind

section Reading

variable {P : Compilation → Prop}

/-- The stack around a site is read off the bodies that enclose it. -/
theorem maintains_stackWithin {stack : CallStack} {chain : List TargetId} :
    Maintains P (stackWithin stack chain) := by
  induction chain generalizing stack with
  | nil => exact maintains_pure
  | cons t rest ih =>
    exact .bind maintains_target fun _ => .bind maintains_site fun _ =>
      .bind maintains_ofExcept fun _ => ih

/-- The compiled method is read off the outermost body. -/
theorem maintains_rootMethod {s : CallSite} {chain : List TargetId} :
    Maintains P (rootMethod s chain) := by
  cases chain with
  | nil => exact maintains_pure
  | cons outer rest =>
    exact .bind maintains_target fun _ => .bind maintains_site fun _ => maintains_pure

end Reading

section Spending

/-- At least `least` was spent, and no more than the budget. -/
def Spent (env : Environment) (least : Size) (c : Compilation) : Prop :=
  least ≤ c.totalSize ∧ c.totalSize ≤ env.config.maxTotalSize

variable {env : Environment} {least : Size}

theorem maintains_enter {stack : CallStack} {symbol : Option SymbolId} {method : MethodId} {depth : Nat} :
    Maintains (Spent env least) (enter stack symbol method depth) :=
  .bind maintains_get fun _ => .bind maintains_ofExcept fun _ =>
    .bind (maintains_modify fun _ h => h) fun _ => maintains_pure

/-- Leaving a body changes the journal at most. -/
theorem ensures_leave_journal {stack : CallStack} {committed : Bool} {c : Compilation}
    {post : Unit → Compilation → Prop} {fail : Fault → Compilation → Prop}
    (h : ∀ journal, post () { c with journal }) (hf : ∀ e, fail e c) :
    Ensures (leave stack committed) c post fail := by
  rw [leave, ensures_get_bind, ensures_bind, ensures_ofExcept]
  exact ⟨fun popped _ => h popped.2, fun e _ => hf e⟩

theorem maintains_resolveSite {stack : CallStack} {id : SiteId} :
    Maintains (Spent env least) (resolveSite env stack id) :=
  maintains_onSite fun _ _ h => h

/-- Giving up spends nothing. -/
theorem Spent.cut {c c' : Compilation} {reason : FailureReason} (h : Spent env least c)
    (cut : Cut reason c c') : Spent env least c' := by
  unfold Spent
  rw [cut.totalSize]
  exact h

theorem maintains_exploreBody {inner : CallStack → SiteId → TargetId → Exploration Unit}
    (h : ∀ stack id t, Maintains (Spent env least) (inner stack id t)) {stack : CallStack}
    {method : MethodId} {depth : Nat} :
    Maintains (Spent env least) (exploreBody env inner stack method depth) := by
  refine .mapM fun instruction => .bind maintains_ofExcept fun stack => .bind maintains_get fun c => ?_
  refine .bind (maintains_modify fun _ h => h) fun _ => .bind maintains_ofExcept fun stack => ?_
  refine .bind maintains_resolveSite fun found => ?_
  dsimp only
  split
  · exact .bind maintains_site fun _ => .bind (.forM fun t => h _ _ t) fun _ => maintains_pure
  · exact maintains_pure

/-- What still fits the budget may be spent. -/
theorem Spent.add {c : Compilation} (h : Spent env least c) {size : Size}
    (fits : c.totalSize + size ≤ env.config.maxTotalSize) (r : Region) :
    Spent env least { c with region := r, totalSize := c.totalSize + size } :=
  ⟨Nat.le_trans h.1 (Saturating.le_add_right ..), fits⟩

theorem maintains_exploreTarget {levels : Nat} {stack : CallStack} {id : SiteId} {t : TargetId} :
    Maintains (Spent env least) (exploreTarget env levels stack id t) := by
  induction levels generalizing stack id t with
  | zero => exact maintains_pure
  | succ levels ih =>
    refine .bind maintains_site fun s => .bind maintains_get fun c => ?_
    refine .bind (maintains_modify fun _ h => h) fun _ => ?_
    refine .bind (maintains_modify fun _ h => h) fun _ => .bind maintains_target fun x => ?_
    dsimp only
    split
    · exact maintains_removeTarget Spent.cut
    refine .bind (maintains_modify fun _ h => h) fun _ => .bind maintains_enter fun inner => ?_
    refine .bind (maintains_exploreBody
      fun _ _ _ => ih) fun found => .bind (maintains_modify fun _ h => h) fun _ => ?_
    intro c hc
    rw [ensures_get_bind, ensures_get_bind]
    split
    next reason _ =>
      refine ensures_bind.2 (ensures_leave_journal (fun _ => ?_) fun _ => hc)
      exact maintains_abandon Spent.cut _ hc
    next fits =>
      refine ensures_bind.2 (ensures_leave_journal (fun journal => ?_) fun _ => hc)
      split
      next one => exact maintains_checkCallees _ (hc.add ((overflow?_eq_none_iff.1 fits).2 one) c.region)
      next => exact maintains_checkCallees _ hc

theorem maintains_explore {method : MethodId} :
    Maintains (Spent env least) (explore env method) := by
  unfold explore
  dsimp only
  split
  · exact maintains_throw_bind
  refine .bind maintains_get fun c => ?_
  refine .bind maintains_enter fun stack => .bind maintains_ofExcept fun stack => ?_
  refine .bind (maintains_exploreBody fun _ _ _ => maintains_exploreTarget) fun found => ?_
  refine .bind (fun _ h => ensures_leave_journal (fun _ => h) fun _ => h) fun _ => ?_
  refine .bind (maintains_modify fun _ h => h) fun _ => ?_
  exact maintains_pure

theorem maintains_charge {chain : List TargetId} {id : SiteId} {t : TargetId} :
    Maintains (Spent env least) (charge env chain id t) := by
  intro c hc
  rw [charge, ensures_get_bind]
  dsimp only
  split
  · exact maintains_abandon Spent.cut c hc
  · split
    · exact maintains_abandon Spent.cut c hc
    next fits => exact hc.add (Nat.not_lt.1 fits) _

theorem maintains_revisit {id : SiteId} : Maintains (Spent env least) (revisit env id) := by
  refine .bind maintains_site fun s => .bind maintains_get fun c => ?_
  split
  · exact maintains_pure
  next chain _ =>
    refine .bind maintains_get fun _ => .bind maintains_rootMethod fun _ => ?_
    refine .bind maintains_ofExcept fun _ => .bind maintains_stackWithin fun _ => ?_
    refine .bind maintains_resolveSite fun _ => .bind maintains_site fun _ => ?_
    refine .bind (.forM fun t => ?_) fun _ => .bind maintains_site fun _ => maintains_pure
    refine .bind maintains_exploreTarget fun _ => .bind maintains_site fun _ => ?_
    split
    · exact maintains_charge
    · exact maintains_pure

theorem maintains_perform (env : Environment) (least : Size) (request : Request) :
    Maintains (Spent env least) (perform env request) := by
  cases request with
  | explore => exact .bind maintains_explore fun _ => maintains_pure
  | revisit => exact .bind maintains_revisit fun _ => maintains_pure
  | markInlined =>
    exact .bind maintains_target fun _ => .bind maintains_site fun _ =>
      .bind (maintains_modify fun _ h => h) fun _ => maintains_modify fun _ h => h
  | replay =>
    refine .bind (.bind maintains_target fun _ => .bind maintains_get fun _ => ?_) fun _ =>
      maintains_pure
    exact .bind (maintains_modify fun _ h => h) fun _ =>
      .bind (maintains_modify fun _ h => h) fun _ => maintains_pure
  | invalidate => exact maintains_modify fun _ h => h

end Spending

end Exploration

end Inlining
