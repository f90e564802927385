import Mathlib
import Inlining.Exploration
import Inlining.Proofs.Editing

/-!
# What a part of an exploration ensures

`Ensures x c post fail` speaks of the run of `x` from one compilation `c`: it ends in a
compilation that `post` holds of, or it fails and leaves one that `fail` holds of. A sequence
is peeled by `Ensures.bind`, a loop by an invariant over what it still has to do
(`Ensures.forM`, `Ensures.mapM`). The rules of the ground operations say exactly what these do
to the compilation; everything above them is reasoned about by its own rule only.

`Maintains P x` is the case in which `P` holds before, after, and where `x` fails.
-/

namespace Inlining

/-- Writing back what was read changes nothing. -/
theorem Compilation.update_scope (c : Compilation) {id : SiteId} {s : CallSite}
    (h : c.region.sites.get? id = some s) : c.update id (c.scope s) = c := by
  have sites : c.region.sites.modify id (fun _ => s) = c.region.sites := by
    refine Arena.ext_get? fun k => ?_
    rw [Arena.get?_modify]
    split <;> simp_all
  simp [update, scope, sites]

namespace Exploration

-- an exploration edits the compilation, and what it did before it fails stays done
export Edit (run_bind run_bind_of_ok run_bind_of_error)

variable {α β : Type} {c : Compilation}

/-- Run from `c`, `x` ends as `post` says, or fails as `fail` says. -/
def Ensures (x : Exploration α) (c : Compilation) (post : α → Compilation → Prop)
    (fail : Fault → Compilation → Prop) : Prop :=
  match x.run c with
  | (.ok a, c') => post a c'
  | (.error fault, c') => fail fault c'

section Rules

variable {x : Exploration α} {post post' : α → Compilation → Prop}
  {fail fail' : Fault → Compilation → Prop}

theorem Ensures.mono (h : Ensures x c post fail) (hp : ∀ a c', post a c' → post' a c')
    (hf : ∀ e c', fail e c' → fail' e c') : Ensures x c post' fail' := by
  unfold Ensures at h ⊢
  split at h
  · exact hp _ _ h
  · exact hf _ _ h

theorem Ensures.imp (h : Ensures x c post fail) (hp : ∀ a c', post a c' → post' a c') :
    Ensures x c post' fail :=
  h.mono hp fun _ _ h => h

theorem Ensures.imp_fail (h : Ensures x c post fail) (hf : ∀ e c', fail e c' → fail' e c') :
    Ensures x c post fail' :=
  h.mono (fun _ _ h => h) hf

/-- Two things that are known of one run. -/
theorem Ensures.and (h : Ensures x c post fail) (h' : Ensures x c post' fail') :
    Ensures x c (fun a c' => post a c' ∧ post' a c') fun e c' => fail e c' ∧ fail' e c' := by
  unfold Ensures at h h' ⊢
  split at h
  next run => simp only [run] at h' ⊢; exact ⟨h, h'⟩
  next run => simp only [run] at h' ⊢; exact ⟨h, h'⟩

theorem Ensures.post_of_ok (h : Ensures x c post fail) {a : α} {c' : Compilation}
    (hx : x.run c = (.ok a, c')) : post a c' := by
  unfold Ensures at h
  rw [hx] at h
  exact h

theorem Ensures.fail_of_error (h : Ensures x c post fail) {e : Fault} {c' : Compilation}
    (hx : x.run c = (.error e, c')) : fail e c' := by
  unfold Ensures at h
  rw [hx] at h
  exact h

/-- What is ensured whatever comes of a run. -/
theorem Ensures.of_run {P : Compilation → Prop} (h : Ensures x c (fun _ => P) fun _ => P)
    {answer : Except Fault α} {c' : Compilation} (hx : x.run c = (answer, c')) : P c' := by
  cases answer with
  | ok => exact h.post_of_ok hx
  | error => exact h.fail_of_error hx

theorem Ensures.of_ok {a : α} {c' : Compilation} (run : x.run c = (.ok a, c')) (h : post a c') :
    Ensures x c post fail := by
  unfold Ensures
  rw [run]
  exact h

theorem Ensures.of_error {e : Fault} {c' : Compilation} (run : x.run c = (.error e, c'))
    (h : fail e c') : Ensures x c post fail := by
  unfold Ensures
  rw [run]
  exact h

/-- What is maintained also holds where nothing can fail. -/
theorem Ensures.and_kept {P : Compilation → Prop} (h : Ensures x c post fun _ _ => False)
    (kept : Ensures x c (fun _ => P) fun _ => P) : Ensures x c (fun a c' => post a c' ∧ P c') fail :=
  (h.and kept).imp_fail fun _ _ h => h.1.elim

/-- What a run is known to end with is what it ends with. -/
theorem Ensures.run_ok {a : α} {c' : Compilation}
    (h : Ensures x c (fun b c'' => b = a ∧ c'' = c') fun _ _ => False) : x.run c = (.ok a, c') := by
  rcases run : x.run c with ⟨_ | b, c''⟩
  · exact (h.fail_of_error run).elim
  · obtain ⟨rfl, rfl⟩ := h.post_of_ok run
    rfl

theorem Ensures.run_error {e : Fault} {c' : Compilation}
    (h : Ensures x c (fun _ _ => False) fun e' c'' => e' = e ∧ c'' = c') :
    x.run c = (.error e, c') := by
  rcases run : x.run c with ⟨_ | b, c''⟩
  · obtain ⟨rfl, rfl⟩ := h.fail_of_error run
    rfl
  · exact (h.post_of_ok run).elim

theorem ensures_pure {a : α} : Ensures (pure a) c post fail ↔ post a c := Iff.rfl

theorem ensures_throw {e : Fault} : Ensures (throw e) c post fail ↔ fail e c := Iff.rfl

theorem run_get_bind (f : Compilation → Exploration α) : (get >>= f).run c = (f c).run c := rfl

/-- What two runs that are the same ensure is the same. -/
theorem Ensures.congr {y : Exploration α} {c' : Compilation} (run : x.run c = y.run c')
    (h : Ensures y c' post fail) : Ensures x c post fail := by
  unfold Ensures at h ⊢
  rw [run]
  exact h

theorem ensures_bind {f : α → Exploration β} {post : β → Compilation → Prop} :
    Ensures (x >>= f) c post fail ↔
      Ensures x c (fun a c' => Ensures (f a) c' post fail) fail := by
  unfold Ensures
  rw [run_bind]
  rcases x.run c with ⟨_ | _, _⟩ <;> rfl

theorem Ensures.bind {f : α → Exploration β} {post : β → Compilation → Prop}
    {mid : α → Compilation → Prop} (h : Ensures x c mid fail)
    (hf : ∀ a c', mid a c' → Ensures (f a) c' post fail) : Ensures (x >>= f) c post fail :=
  ensures_bind.2 (h.imp hf)

theorem ensures_discard {post : Compilation → Prop} :
    Ensures (discard x) c (fun _ => post) fail ↔ Ensures x c (fun _ => post) fail :=
  ensures_bind (f := fun _ => pure ())

theorem ensures_get_bind {f : Compilation → Exploration α} :
    Ensures (get >>= f) c post fail ↔ Ensures (f c) c post fail := Iff.rfl

end Rules

section Ground

variable {post : Unit → Compilation → Prop} {fail : Fault → Compilation → Prop}

theorem ensures_modify {f : Compilation → Compilation} :
    Ensures (modify f) c post fail ↔ post () (f c) := Iff.rfl

theorem ensures_modifyRegion {f : Region → Region} :
    Ensures (modifyRegion f) c post fail ↔ post () { c with region := f c.region } := Iff.rfl

theorem ensures_modifyTarget {t : TargetId} {f : CallTarget → CallTarget} :
    Ensures (modifyTarget t f) c post fail ↔
      post () { c with region := { c.region with targets := c.region.targets.modify t f } } :=
  Iff.rfl

theorem ensures_ofExcept {x : Except Fault α} {post : α → Compilation → Prop} :
    Ensures (ofExcept x) c post fail ↔
      (∀ a, x = .ok a → post a c) ∧ ∀ e, x = .error e → fail e c := by
  cases x with
  | ok a => exact ⟨fun h => ⟨fun _ e => by cases e; exact h, nofun⟩, fun h => h.1 a rfl⟩
  | error e => exact ⟨fun h => ⟨nofun, fun _ e => by cases e; exact h⟩, fun h => h.2 e rfl⟩

theorem ensures_enter {stack : CallStack} {symbol : Option SymbolId} {method : MethodId} {depth : Nat}
    {post : CallStack → Compilation → Prop} :
    Ensures (enter stack symbol method depth) c post fail ↔
      (∀ inner, stack.push symbol method depth true = .ok inner →
        post inner { c with journal := c.journal.record (.framePushed method depth) }) ∧
      ∀ e, stack.push symbol method depth true = .error e → fail e c := by
  rw [enter, ensures_get_bind, ensures_bind, ensures_ofExcept, CallStack.pushRecorded]
  cases stack.push symbol method depth true with
  | ok inner => exact ⟨fun h => ⟨fun _ e => by cases e; exact h.1 _ rfl, nofun⟩,
      fun h => ⟨fun _ e => by cases e; exact h.1 _ rfl, nofun⟩⟩
  | error e => exact ⟨fun h => ⟨nofun, fun _ e => by cases e; exact h.2 _ rfl⟩,
      fun h => ⟨nofun, fun _ e => by cases e; exact h.2 _ rfl⟩⟩

/-- A body that was entered can be left. -/
theorem ensures_leave {stack : CallStack} {method : MethodId} {depth : Nat} (h : stack.At method depth)
    {committed : Bool} : Ensures (leave stack committed) c post fail ↔
      post () { c with journal := c.journal.record (.framePopped method depth committed) } := by
  obtain ⟨stack', popped⟩ := h.popRecorded c.journal committed
  rw [leave, ensures_get_bind, ensures_bind, ensures_ofExcept, popped]
  exact ⟨fun h => h.1 _ rfl, fun h => ⟨fun _ e => by cases e; exact h, nofun⟩⟩

theorem ensures_site {id : SiteId} {post : CallSite → Compilation → Prop} :
    Ensures (site id) c post fail ↔
      (∀ s, c.region.sites.get? id = some s → post s c) ∧
        (c.region.sites.get? id = none → fail (.noSite id) c) := by
  rw [site, ensures_get_bind]
  cases c.region.sites.get? id <;> simp [ensures_pure, ensures_throw]

theorem ensures_target {t : TargetId} {post : CallTarget → Compilation → Prop} :
    Ensures (target t) c post fail ↔
      (∀ x, c.region.targets.get? t = some x → post x c) ∧
        (c.region.targets.get? t = none → fail (.noTarget t) c) := by
  rw [target, ensures_get_bind]
  cases c.region.targets.get? t <;> simp [ensures_pure, ensures_throw]

theorem ensures_onSite {id : SiteId} {f : SiteScope → Except Fault α × SiteScope}
    {post : α → Compilation → Prop} :
    Ensures (onSite id f) c post fail ↔
      (∀ s, c.region.sites.get? id = some s →
        (∀ a, (f (c.scope s)).1 = .ok a → post a (c.update id (f (c.scope s)).2)) ∧
        ∀ e, (f (c.scope s)).1 = .error e → fail e (c.update id (f (c.scope s)).2)) ∧
      (c.region.sites.get? id = none → fail (.noSite id) c) := by
  rw [onSite, ensures_bind, ensures_site]
  refine and_congr_left' (forall₂_congr fun s _ => ?_)
  rw [ensures_get_bind]
  exact ensures_ofExcept

theorem ensures_changeSite {id : SiteId} {f : SiteScope → Except Fault SiteScope} :
    Ensures (changeSite id f) c post fail ↔
      (∀ s, c.region.sites.get? id = some s →
        (∀ scope, f (c.scope s) = .ok scope → post () (c.update id scope)) ∧
        ∀ e, f (c.scope s) = .error e → fail e c) ∧
      (c.region.sites.get? id = none → fail (.noSite id) c) := by
  rw [changeSite, ensures_onSite]
  refine and_congr_left' (forall₂_congr fun s hs => ?_)
  cases f (c.scope s) with
  | ok scope => simpa using ⟨fun h => h (), fun h _ => h⟩
  | error e => simp [c.update_scope hs]

/-- Looking up a site that is there. -/
theorem run_site {id : SiteId} {s : CallSite} (hs : c.region.sites.get? id = some s) :
    (site id).run c = (.ok s, c) :=
  Ensures.run_ok (ensures_site.2 ⟨fun _ hs' => ⟨Option.some.inj (hs'.symm.trans hs), rfl⟩,
    fun gone => by simp [hs] at gone⟩)

/-- Looking up a target that is there. -/
theorem run_target {t : TargetId} {x : CallTarget} (hx : c.region.targets.get? t = some x) :
    (target t).run c = (.ok x, c) :=
  Ensures.run_ok (ensures_target.2 ⟨fun _ hx' => ⟨Option.some.inj (hx'.symm.trans hx), rfl⟩,
    fun gone => by simp [hx] at gone⟩)

/-- Entering a body whose frame may be pushed. -/
theorem run_enter {stack inner : CallStack} {symbol : Option SymbolId} {method : MethodId} {depth : Nat}
    (push : stack.push symbol method depth true = .ok inner) :
    (enter stack symbol method depth).run c =
      (.ok inner, { c with journal := c.journal.record (.framePushed method depth) }) :=
  Ensures.run_ok (ensures_enter.2 ⟨fun _ h => ⟨Except.ok.inj (h.symm.trans push), rfl⟩,
    fun _ h => by cases push.symm.trans h⟩)

end Ground

section Loops

variable {post : Unit → Compilation → Prop} {fail : Fault → Compilation → Prop}

/-- A loop keeps an invariant over the list of what it still has to do. -/
theorem Ensures.forM {f : α → Exploration Unit} (inv : List α → Compilation → Prop)
    (step : ∀ x rest c, inv (x :: rest) c → Ensures (f x) c (fun _ => inv rest) fail)
    {xs : List α} (h : inv xs c) : Ensures (xs.forM f) c (fun _ => inv []) fail := by
  induction xs generalizing c with
  | nil => exact h
  | cons x xs ih => exact .bind (step x xs c h) fun _ _ h => ih h

/-- A loop with answers keeps an invariant over what it still has to do and what it has
answered. -/
theorem Ensures.mapM {f : α → Exploration β} (inv : List α → List β → Compilation → Prop)
    (step : ∀ x rest done c, inv (x :: rest) done c →
      Ensures (f x) c (fun y => inv rest (done ++ [y])) fail)
    {xs : List α} (h : inv xs [] c) : Ensures (xs.mapM f) c (inv []) fail := by
  suffices ∀ xs done c, inv xs done c →
      Ensures (xs.mapM f) c (fun ys => inv [] (done ++ ys)) fail from this xs [] c h
  intro xs
  induction xs with
  | nil => intro done c h; simpa [ensures_pure] using h
  | cons x xs ih =>
    intro done c h
    rw [List.mapM_cons]
    refine .bind (step x xs done c h) fun y c' h => ?_
    refine .bind (ih _ c' h) fun ys c'' h => ?_
    simpa [ensures_pure] using h

end Loops

/-- `P` holds after `x` and where `x` fails if it holds before. -/
def Maintains (P : Compilation → Prop) (x : Exploration α) : Prop :=
  ∀ c, P c → Ensures x c (fun _ => P) fun _ => P

section Maintains

variable {P : Compilation → Prop} {x : Exploration α}

theorem maintains_pure {a : α} : Maintains P (pure a) := fun _ h => h

theorem maintains_throw_bind {e : Fault} {f : α → Exploration β} :
    Maintains P (throw e >>= f) := fun _ h => h

theorem maintains_get : Maintains P get := fun _ h => h

theorem maintains_modify {f : Compilation → Compilation} (h : ∀ c, P c → P (f c)) :
    Maintains P (modify f) := h

theorem maintains_ofExcept {x : Except Fault α} : Maintains P (ofExcept x) :=
  fun _ h => ensures_ofExcept.2 ⟨fun _ _ => h, fun _ _ => h⟩

theorem maintains_site {id : SiteId} : Maintains P (site id) :=
  fun _ h => ensures_site.2 ⟨fun _ _ => h, fun _ => h⟩

theorem maintains_target {t : TargetId} : Maintains P (target t) :=
  fun _ h => ensures_target.2 ⟨fun _ _ => h, fun _ => h⟩

/-- Checking the counts of a target changes nothing. -/
theorem maintains_checkCallees {env : Environment} {t : TargetId} :
    Maintains P (if env.config.verifyInvariants then do ofExcept ((← target t).checkCallees t)
      else pure ()) := by
  split
  · exact fun _ h => ensures_bind.2 (ensures_target.2
      ⟨fun _ _ => ensures_ofExcept.2 ⟨fun _ _ => h, fun _ _ => h⟩, fun _ => h⟩)
  · exact maintains_pure

theorem maintains_onSite {id : SiteId} {f : SiteScope → Except Fault α × SiteScope}
    (h : ∀ c s, P c → P (c.update id s)) : Maintains P (onSite id f) :=
  fun c hc => ensures_onSite.2 ⟨fun _ _ => ⟨fun _ _ => h c _ hc, fun _ _ => h c _ hc⟩, fun _ => hc⟩

theorem Maintains.bind {f : α → Exploration β} (hx : Maintains P x)
    (hf : ∀ a, Maintains P (f a)) : Maintains P (x >>= f) :=
  fun c hc => .bind (hx c hc) fun a c' hc' => hf a c' hc'

theorem Maintains.forM {f : α → Exploration Unit} (h : ∀ a, Maintains P (f a)) {xs : List α} :
    Maintains P (xs.forM f) :=
  fun _ hc => .forM (fun _ => P) (fun x _ c hc => h x c hc) hc

theorem Maintains.mapM {f : α → Exploration β} (h : ∀ a, Maintains P (f a)) {xs : List α} :
    Maintains P (xs.mapM f) :=
  fun _ hc => .mapM (fun _ _ => P) (fun x _ _ c hc => h x c hc) hc

end Maintains

end Exploration

end Inlining
