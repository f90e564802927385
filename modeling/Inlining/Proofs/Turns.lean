import Inlining.Proofs.Traversal

/-!
# Every target is taken up

Where a site is resolved, its new targets are put in front of those that wait to be explored, and an
exploration takes up the first that waits: it enters the body of the target, or gives the target up if its
method may not be inlined. `Turn` is one stroke of this. An exploration or a revisit that succeeds begins
and ends with no target waiting (`ensures_exploreTurns`, `ensures_revisitTurns`), so what holds of every
target that was taken up holds of every target.
-/

namespace Inlining

/-- What happens next, with some targets waiting. -/
inductive Turn (env : Environment) : List TargetId × Compilation → List TargetId × Compilation → Prop
  | quiet {waiting : List TargetId} {c c' : Compilation} :
    Quiet env c c' → Turn env (waiting, c) (waiting, c')
  | call {waiting : List TargetId} {c : Compilation} {k : Call} {instruction : CallInstruction}
    {stack : CallStack} :
    k = .ofInstruction c.region.sites.next k.caller k.depth instruction →
    instruction ∈ env.program.instructionsOf k.caller → k.depth ≤ env.config.maxDepth →
    k.Checked env → stack.previouslyInlined = c.previouslyInlined →
    Turn env (waiting, c)
      ((c.opened env stack k).region.forest.live k.id ++ waiting, c.opened env stack k)
  | again {waiting new : List TargetId} {c : Compilation} {id : SiteId} {s : CallSite}
    {chain : List TargetId} {stack : CallStack} :
    c.region.sites.get? id = some s → c.region.enclosing? s = some chain →
    s.toCall.Checked env → stack.previouslyInlined = c.previouslyInlined →
    (c.resolve env stack id s).region.forest.live id = s.live ++ new →
    Turn env (waiting, c) (new ++ waiting, c.resolve env stack id s)
  | refuse {waiting : List TargetId} {c : Compilation} {t : TargetId} {x : CallTarget} {id : SiteId}
    {s : CallSite} :
    c.region.targets.get? t = some x → env.program.isInlinable x.method = false →
    c.region.sites.get? id = some s → t ∈ s.live →
    Turn env (t :: waiting, c)
      (waiting, (c.numbered t).update id (((c.numbered t).scope s).giveUp t .uninlineable))
  | enter {waiting : List TargetId} {c : Compilation} {t : TargetId} {x : CallTarget} {depth : Nat} :
    c.region.targets.get? t = some x → env.program.isInlinable x.method = true →
    (∀ i, t ∉ c.region.forest.removed i) →
    Turn env (t :: waiting, c) (waiting, c.entered env t x.method depth)

/-- Turns one after the other. -/
def Turns (env : Environment) :
    List TargetId × Compilation → List TargetId × Compilation → Prop :=
  Relation.ReflTransGen (Turn env)

section Sequences

variable {env : Environment} {a b : List TargetId × Compilation}

/-- A turn is made of strokes. -/
theorem Turn.steps (h : Turn env a b) : Steps env a.2 b.2 := by
  cases h with
  | quiet quiet => exact quiet.effect.steps
  | call hk instruction shallow checked earlier =>
    exact (Effect.call hk instruction shallow checked earlier).steps
  | again hs chain checked earlier => exact (Effect.again hs chain checked earlier).steps
  | @refuse _ c t _ _ _ _ _ hs live =>
    have number : Effect env c (c.numbered t) := .number
    have terminal : FailureReason.uninlineable.isTerminal = true := rfl
    have given_up : Effect env (c.numbered t) _ := .cut terminal (.target hs live)
    exact number.steps.trans given_up.steps
  | enter hx _ kept => exact Compilation.steps_entered hx kept _

theorem Turns.steps (h : Turns env a b) : Steps env a.2 b.2 := by
  induction h with
  | refl => exact .refl
  | tail _ turn ih => exact ih.trans turn.steps

/-- What no turn breaks holds in the end. -/
theorem Turns.invariant {P : List TargetId → Compilation → Prop}
    (turn : ∀ {a b}, P a.1 a.2 → Turn env a b → P b.1 b.2) (h : Turns env a b) (ha : P a.1 a.2) :
    P b.1 b.2 := by
  induction h with
  | refl => exact ha
  | tail _ next ih => exact turn ih next

end Sequences

/-- From `c` to `c'` the targets `ts`, which waited first, were taken up with all that was found below
them. -/
def Takes (env : Environment) (ts : List TargetId) (c c' : Compilation) : Prop :=
  ∀ waiting, Turns env (ts ++ waiting, c) (waiting, c')

namespace Takes

variable {env : Environment} {c c' c'' : Compilation} {ts us : List TargetId} {t : TargetId}

theorem refl (c : Compilation) : Takes env [] c c := fun _ => .refl

theorem trans (h : Takes env ts c c') (h' : Takes env us c' c'') : Takes env (ts ++ us) c c'' := by
  intro waiting
  rw [List.append_assoc]
  exact (h (us ++ waiting)).trans (h' waiting)

/-- What is quiet takes up nothing. -/
theorem quiet (h : Takes env ts c c') (quiet : Quiet env c' c'') : Takes env ts c c'' :=
  fun waiting => (h waiting).tail (.quiet quiet)

theorem steps (h : Takes env ts c c') : Steps env c c' := (h []).steps

theorem earlier (h : Takes env ts c c') : c'.previouslyInlined = c.previouslyInlined :=
  h.steps.previouslyInlined

end Takes

/-- What an exploration goes through it takes up, turn by turn. -/
theorem traversal_takes (env : Environment) : Traversal env (Takes env) where
  refl := .refl
  trans := .trans
  earlier := Takes.earlier
  still takes still := takes.quiet still.quiet
  call _ hk instruction shallow checked earlier takes waiting :=
    .head (.call hk instruction shallow checked earlier) (takes waiting)
  again {_ _ id s _ _ _} _ hs hchain checked earlier adds takes waiting := by
    refine .head (.again hs hchain checked earlier ?_) (takes waiting)
    rw [adds.live, Region.forest_live hs]
  refuse _ hx uninlinable hs live _ := .single (.refuse hx uninlinable hs live)
  body {_ _ t _ _ _ found} sound pending hx inlinable below _ waiting :=
    .head (.enter hx inlinable fun _ => sound.not_removed pending.live)
      ((below waiting).tail (.quiet (.settle t found)))

namespace Exploration

variable {env : Environment} {c : Compilation}

/-- An exploration takes up every target that it finds, and adopts the sites that it found in the body of
the compiled method. -/
theorem ensures_exploreTurns (sound : c.region.forest.Sound env.config.maxDepth) (method : MethodId) :
    Ensures (explore env method) c
      (fun _ c' => ∃ c₁ roots compiled, Turns env ([], c) ([], c₁) ∧ c' = { c₁ with roots, compiled })
      fun _ _ => True := by
  refine ((traversal_takes env).ensures_explore sound method).imp ?_
  rintro - _ ⟨c₁, roots, compiled, takes, rfl⟩
  exact ⟨c₁, roots, compiled, takes [], rfl⟩

/-- A revisit takes up every target that it finds. -/
theorem ensures_revisitTurns (sound : c.region.forest.Sound env.config.maxDepth) (id : SiteId) :
    Ensures (revisit env id) c (fun _ c' => Turns env ([], c) ([], c')) fun _ _ => True :=
  ((traversal_takes env).ensures_revisit sound id).imp fun _ _ takes => takes []

end Exploration

end Inlining
