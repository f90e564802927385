import Inlining.Proofs.Acceptance
import Inlining.Proofs.Cuts
import Inlining.Proofs.Editing

/-!
# The books of a call site

Nine operations add, tag and remove the targets of a site, by handle or by place, one or many at a time,
and may fail. Each is given once more as it is carried out in place (`SiteOperation.edit`), and ends as
its one step on the scope does (`SiteOperation.run_edit`), so that no failure leaves a site half edited.
What an operation does to the live and the removed targets is said once (`SiteScope.Turnover`); from it
follows what any operations in any order keep: the site accounts for every target that it ever returned
(`Accounted.after`), goes onwards (`Accounted.onwards`), and can tell which operation removed a target
(`Accounted.removal`). `books_balance` puts them together.
-/

namespace Inlining

/-- An element that takes the place of another one is exchanged for it. -/
theorem perm_set {α : Type} {xs : List α} {index : Nat} {y : α} (there : xs[index]? = some y) (x : α) :
    (xs.set index x ++ [y]).Perm (xs ++ [x]) := by
  obtain ⟨within, rfl⟩ := List.getElem?_eq_some_iff.1 there
  have others := List.getElem_cons_eraseIdx_perm within
  refine ((List.set_perm_cons_eraseIdx within x).append_right _).trans ?_
  refine (List.perm_append_singleton ..).trans ?_
  refine (List.Perm.swap ..).trans ((others.cons x).trans (List.perm_append_singleton ..).symm)

/-- All other elements keep their order. -/
theorem filter_set_sublist {α : Type} [DecidableEq α] (xs : List α) (index : Nat) (x : α) :
    ((xs.set index x).filter (· ∉ [x])).Sublist xs := by
  rw [List.set_eq_take_append_cons_drop]
  split
  · have others : ((xs.take index ++ x :: xs.drop (index + 1)).filter (· ∉ [x])).Sublist
        (xs.take index ++ xs.drop (index + 1)) := by
      simpa using List.filter_sublist.append List.filter_sublist
    exact others.trans (by rw [← List.eraseIdx_eq_take_drop_succ]; exact List.eraseIdx_sublist ..)
  · exact List.filter_sublist

/-- Changing one thing twice. -/
theorem Arena.modify_modify {kind : HandleKind} {α : Type} (a : Arena kind α) (h : Handle kind)
    (f g : α → α) : (a.modify h f).modify h g = a.modify h (g ∘ f) := by
  refine ext_get? fun k => ?_
  simp only [get?_modify]
  split
  · rw [Option.map_map]
  · rfl

/-- Nothing that is stored is moved by storing more. -/
theorem Arena.get?_alloc_of_some {kind : HandleKind} {α : Type} {a : Arena kind α} {h : Handle kind}
    {x : α} (stored : a.get? h = some x) (y : α) : h ≠ a.next ∧ (a.alloc y).get? h = some x := by
  have other : h ≠ a.next := by
    rintro rfl
    exact absurd (a.get?_next.symm.trans stored) nofun
  exact ⟨other, by rw [get?_alloc, if_neg other, stored]⟩

/-- An edit of a call site, the targets and the journal. -/
abbrev SiteEdit := Edit SiteScope

namespace SiteEdit

open Edit

def editSite (f : CallSite → CallSite) : SiteEdit Unit := modify fun s => { s with site := f s.site }

def editTarget (t : TargetId) (f : CallTarget → CallTarget) : SiteEdit Unit :=
  modify fun s => { s with targets := s.targets.modify t f }

def editJournal (f : Journal → Journal) : SiteEdit Unit :=
  modify fun s => { s with journal := f s.journal }

/-- Stores a target of the site. -/
def create (t : CallTarget) : SiteEdit TargetId := do
  let s ← get
  set { s with targets := s.targets.alloc { t with callSite := s.site.id } }
  return s.targets.next

/-- The live target at an index. -/
def liveAt (index : Nat) : SiteEdit TargetId := do
  let site := (← get).site
  match site.live[index]? with
  | some t => return t
  | none => throw (.targetIndexOutOfRange index site.live.length)

/-- The index of a live target. -/
def placeOf (t : TargetId) : SiteEdit Nat := do
  let site := (← get).site
  match site.live.idxOf? t with
  | some index => return index
  | none => throw (.targetNotLive site.id t)

/-- Counts a reason, and then records it. -/
def note (reason : FailureReason) (event : SiteId → Event) : SiteEdit Unit := do
  let site := (← get).site
  editJournal (·.count reason site.location.treeTop)
  editJournal (·.record (event site.id))

/-- Gives up a target that was taken out of the live ones. -/
def retire (t : TargetId) (reason : FailureReason) : SiteEdit Unit := do
  editTarget t fun x => { x with failureReason := reason }
  editTarget t fun x => { x with constants := [] }
  editSite fun site => { site with removed := site.removed ++ [t] }
  note reason (.targetRemoved · t reason)

def add (t : CallTarget) : SiteEdit TargetId := do
  let id ← create t
  editSite fun site => { site with live := site.live ++ [id] }
  editSite fun site => { site with totalAdded := site.totalAdded + 1 }
  return id

def addToFront (t : CallTarget) : SiteEdit TargetId := do
  let id ← create t
  editSite fun site => { site with live := id :: site.live }
  editSite fun site => { site with totalAdded := site.totalAdded + 1 }
  return id

def set (index : Nat) (t : CallTarget) (reason : FailureReason) : SiteEdit TargetId := do
  let displaced ← liveAt index
  let id ← create t
  editSite fun site => { site with live := site.live.set index id }
  editSite fun site => { site with totalAdded := site.totalAdded + 1 }
  retire displaced reason
  return id

def tag (t : TargetId) (reason : FailureReason) : SiteEdit Unit := do
  let _ ← placeOf t
  editTarget t fun x => { x with failureReason := reason }
  note reason (.targetTagged · t reason)

def tagAt (index : Nat) (reason : FailureReason) : SiteEdit TargetId := do
  let t ← liveAt index
  tag t reason
  return t

def remove (t : TargetId) (reason : FailureReason) : SiteEdit Unit := do
  let index ← placeOf t
  editSite fun site => { site with live := site.live.eraseIdx index }
  retire t reason

def removeAt (index : Nat) (reason : FailureReason) : SiteEdit TargetId := do
  let t ← liveAt index
  editSite fun site => { site with live := site.live.eraseIdx index }
  retire t reason
  return t

def removeFrom (index : Nat) (reason : FailureReason) : SiteEdit Unit := do
  let live := (← get).site.live
  if live.length < index then
    throw (.targetIndexOutOfRange index live.length)
  editSite fun site => { site with live := live.take index }
  (live.drop index).forM (retire · reason)

section Runs

variable {s : SiteScope}

theorem run_create (x : CallTarget) : (create x).run s = (.ok s.targets.next,
    { s with targets := s.targets.alloc { x with callSite := s.site.id } }) := rfl

theorem run_editSite (f : CallSite → CallSite) :
    (editSite f).run s = (.ok (), { s with site := f s.site }) := rfl

/-- A target is found at an index, or nothing was edited. -/
theorem run_liveAt (s : SiteScope) (index : Nat) :
    (liveAt index).run s = (s.site.liveAt index, s) := by
  show (match s.site.live[index]? with
    | some t => (pure t : SiteEdit TargetId)
    | none => throw _).run s = _
  unfold CallSite.liveAt
  cases s.site.live[index]? <;> rfl

theorem run_placeOf_of_live {t : TargetId} (live : t ∈ s.site.live) : ∃ index,
    (placeOf t).run s = (.ok index, s) ∧ s.site.live.eraseIdx index = s.site.live.erase t := by
  obtain ⟨index, found⟩ := Option.isSome_iff_exists.1 (List.isSome_idxOf?.2 live)
  refine ⟨index, ?_, by rw [List.erase_eq_eraseIdx, found]⟩
  show (match s.site.live.idxOf? t with
    | some index => (pure index : SiteEdit Nat)
    | none => throw _).run s = _
  rw [found]
  rfl

theorem run_placeOf_of_not_live {t : TargetId} (dead : t ∉ s.site.live) :
    (placeOf t).run s = (.error (.targetNotLive s.site.id t), s) := by
  have missing : s.site.live.idxOf? t = none := List.idxOf?_eq_none_iff.2 dead
  show (match s.site.live.idxOf? t with
    | some index => (pure index : SiteEdit Nat)
    | none => throw _).run s = _
  rw [missing]
  rfl

theorem run_retire (s : SiteScope) (t : TargetId) (reason : FailureReason) :
    (retire t reason).run s = (.ok (), s.retire t reason) := by
  have once : (s.targets.modify t fun x => { x with failureReason := reason }).modify t
      (fun x => { x with constants := [] }) = s.targets.modify t (·.retire reason) :=
    Arena.modify_modify ..
  unfold SiteScope.retire
  rw [← once]
  rfl

theorem run_retireAll (s : SiteScope) (ts : List TargetId) (reason : FailureReason) :
    (ts.forM (retire · reason)).run s = (.ok (), s.retireAll ts reason) := by
  induction ts generalizing s with
  | nil => rfl
  | cons t ts ih => exact (run_bind_of_ok (run_retire s t reason)).trans (ih _)

end Runs

section Operations

variable (s : SiteScope) (index : Nat) (t : TargetId) (x : CallTarget) (reason : FailureReason)

theorem run_add : (add x).run s = outcome s (.ok (s.add x)) := rfl

theorem run_addToFront : (addToFront x).run s = outcome s (.ok (s.addToFront x)) := rfl

theorem run_set : (set index x reason).run s = outcome s (s.set index x reason) := by
  have found := run_liveAt s index
  unfold set SiteScope.set
  cases there : s.site.liveAt index with
  | error e => exact run_bind_of_error (there ▸ found)
  | ok displaced =>
    rw [run_bind_of_ok (there ▸ found), run_bind_of_ok (run_create x), run_bind_of_ok (run_editSite _),
      run_bind_of_ok (run_editSite _), run_bind_of_ok (run_retire ..)]
    rfl

theorem run_tag : (tag t reason).run s = outcome s ((s.tag t reason).map fun s' => ((), s')) := by
  unfold tag SiteScope.tag SiteScope.checkLive
  by_cases live : t ∈ s.site.live
  · obtain ⟨index, found, -⟩ := run_placeOf_of_live live
    rw [run_bind_of_ok found, if_pos (by simpa using live)]
    rfl
  · rw [run_bind_of_error (run_placeOf_of_not_live live), if_neg (by simpa using live)]
    rfl

theorem run_tagAt : (tagAt index reason).run s = outcome s (s.tagAt index reason) := by
  have found := run_liveAt s index
  unfold tagAt SiteScope.tagAt
  cases there : s.site.liveAt index with
  | error e => exact run_bind_of_error (there ▸ found)
  | ok t =>
    rw [run_bind_of_ok (there ▸ found)]
    have tagged := run_tag s t reason
    change _ = outcome s (do return (t, ← s.tag t reason))
    cases h : s.tag t reason with
    | error e => exact run_bind_of_error (by rw [tagged, h]; rfl)
    | ok s' => exact run_bind_of_ok (by rw [tagged, h]; rfl)

theorem run_remove : (remove t reason).run s = outcome s ((s.remove t reason).map fun s' => ((), s')) := by
  unfold remove SiteScope.remove SiteScope.checkLive
  by_cases live : t ∈ s.site.live
  · obtain ⟨index, found, erased⟩ := run_placeOf_of_live live
    rw [run_bind_of_ok found, run_bind_of_ok (run_editSite _), erased, run_retire,
      if_pos (by simpa using live)]
    rfl
  · rw [run_bind_of_error (run_placeOf_of_not_live live), if_neg (by simpa using live)]
    rfl

theorem run_removeAt : (removeAt index reason).run s = outcome s (s.removeAt index reason) := by
  have found := run_liveAt s index
  unfold removeAt SiteScope.removeAt
  cases there : s.site.liveAt index with
  | error e => exact run_bind_of_error (there ▸ found)
  | ok t =>
    rw [run_bind_of_ok (there ▸ found), run_bind_of_ok (run_editSite _), run_bind_of_ok (run_retire ..)]
    rfl

theorem run_removeFrom : (removeFrom index reason).run s =
    outcome s ((s.removeFrom index reason).map fun s' => ((), s')) := by
  unfold SiteScope.removeFrom
  change (if s.site.live.length < index then _ else _ : SiteEdit Unit).run s = _
  by_cases beyond : s.site.live.length < index
  · rw [if_pos beyond, if_pos beyond]
    rfl
  · rw [if_neg beyond, if_neg beyond, run_bind_of_ok (run_editSite _), run_retireAll]
    rfl

end Operations

end SiteEdit

/-- An operation on the targets of a call site. -/
inductive SiteOperation where
  | add (x : CallTarget)
  | addToFront (x : CallTarget)
  | set (index : Nat) (x : CallTarget) (reason : FailureReason)
  | tag (t : TargetId) (reason : FailureReason)
  | tagAt (index : Nat) (reason : FailureReason)
  | remove (t : TargetId) (reason : FailureReason)
  | removeAt (index : Nat) (reason : FailureReason)
  | removeFrom (index : Nat) (reason : FailureReason)
  | removeAll (reason : FailureReason)
  /-- another site stores a target -/
  | elsewhere (x : CallTarget)

namespace SiteOperation

/-- The operation as one step, with the target that it returns, if any. -/
def apply (s : SiteScope) : SiteOperation → Except Fault (Option TargetId × SiteScope)
  | add x => .ok (some (s.add x).1, (s.add x).2)
  | addToFront x => .ok (some (s.addToFront x).1, (s.addToFront x).2)
  | set index x reason => (s.set index x reason).map fun r => (some r.1, r.2)
  | tag t reason => (s.tag t reason).map fun s' => (none, s')
  | tagAt index reason => (s.tagAt index reason).map fun r => (some r.1, r.2)
  | remove t reason => (s.remove t reason).map fun s' => (none, s')
  | removeAt index reason => (s.removeAt index reason).map fun r => (some r.1, r.2)
  | removeFrom index reason => (s.removeFrom index reason).map fun s' => (none, s')
  | removeAll reason => (s.removeAll reason).map fun s' => (none, s')
  | elsewhere x => .ok (none, { s with targets := s.targets.alloc x })

/-- The operation as it is carried out in place. -/
def edit : SiteOperation → SiteEdit (Option TargetId)
  | add x => return some (← SiteEdit.add x)
  | addToFront x => return some (← SiteEdit.addToFront x)
  | set index x reason => return some (← SiteEdit.set index x reason)
  | tag t reason => do SiteEdit.tag t reason; return none
  | tagAt index reason => return some (← SiteEdit.tagAt index reason)
  | remove t reason => do SiteEdit.remove t reason; return none
  | removeAt index reason => return some (← SiteEdit.removeAt index reason)
  | removeFrom index reason => do SiteEdit.removeFrom index reason; return none
  | removeAll reason => do SiteEdit.removeFrom 0 reason; return none
  | elsewhere x => do
    modify fun s => { s with targets := s.targets.alloc x }
    return none

/-- Carried out in place, an operation ends as it does in one step. Where it fails, nothing was edited. -/
theorem run_edit (s : SiteScope) (op : SiteOperation) :
    op.edit.run s = Edit.outcome s (op.apply s) := by
  cases op with
  | add => exact Edit.run_answer (SiteEdit.run_add ..) some
  | addToFront => exact Edit.run_answer (SiteEdit.run_addToFront ..) some
  | set => exact Edit.run_answer (SiteEdit.run_set ..) some
  | tag => exact Edit.run_done (SiteEdit.run_tag ..) none
  | tagAt => exact Edit.run_answer (SiteEdit.run_tagAt ..) some
  | remove => exact Edit.run_done (SiteEdit.run_remove ..) none
  | removeAt => exact Edit.run_answer (SiteEdit.run_removeAt ..) some
  | removeFrom | removeAll => exact Edit.run_done (SiteEdit.run_removeFrom ..) none
  | elsewhere => rfl

/-- The reason that is given for what the operation removes or tags. -/
def reason? : SiteOperation → Option FailureReason
  | set _ _ reason | tag _ reason | tagAt _ reason | remove _ reason | removeAt _ reason
  | removeFrom _ reason | removeAll reason => some reason
  | add _ | addToFront _ | elsewhere _ => none

/-- The operation adds a target to the site. -/
def adds : SiteOperation → Bool
  | add _ | addToFront _ | set .. => true
  | _ => false

/-- The target that the operation adds, as it returns it. -/
def added (op : SiteOperation) (s : SiteScope) : List TargetId :=
  if op.adds then
    match (op.edit.run s).1 with
    | .ok (some t) => [t]
    | _ => []
  else []

end SiteOperation

namespace SiteScope

/-- From `s` to `s'` the targets `new` came to the site, and `gone` were given up for a reason. -/
structure Turnover (s s' : SiteScope) (new gone : List TargetId) (reason : FailureReason) : Prop where
  placed : (s'.site.live ++ gone).Perm (s.site.live ++ new)
  order : (s'.site.live.filter (· ∉ new)).Sublist s.site.live
  removed : s'.site.removed = s.site.removed ++ gone
  totalAdded : s'.site.totalAdded = s.site.totalAdded + new.length
  distinct : new.Nodup
  fresh : ∀ t ∈ new, s.targets.get? t = none
  there : ∀ t, t ∈ new ∨ s.targets.get? t ≠ none → s'.targets.get? t ≠ none
  kept : ∀ t x, s.targets.get? t = some x → t ∉ s.site.live → s'.targets.get? t = some x
  retired : ∀ t ∈ gone, ∀ x, s'.targets.get? t = some x → x.constants = [] ∧ x.failureReason = reason

variable {s s' : SiteScope}

theorem Turnover.refl (s : SiteScope) (reason : FailureReason) : s.Turnover s [] [] reason where
  placed := .refl _
  order := List.filter_sublist
  removed := (List.append_nil _).symm
  totalAdded := rfl
  distinct := .nil
  fresh := nofun
  there _ h := h.resolve_left List.not_mem_nil
  kept _ _ h _ := h
  retired := nofun

/-- Retiring targets in a scope that was rearranged before, and perhaps got a new target. -/
theorem Turnover.retireAll {new gone : List TargetId} (reason : FailureReason)
    (stored : new = [] ∧ s'.targets = s.targets ∨
      ∃ x, new = [s.targets.next] ∧ s'.targets = s.targets.alloc x)
    (removed : s'.site.removed = s.site.removed)
    (totalAdded : s'.site.totalAdded = s.site.totalAdded + new.length)
    (placed : (s'.site.live ++ gone).Perm (s.site.live ++ new))
    (order : (s'.site.live.filter (· ∉ new)).Sublist s.site.live) :
    s.Turnover (s'.retireAll gone reason) new gone reason := by
  have site := (Region.retireAll_node s' gone reason).1
  have targets := get?_retireAll s' gone reason
  have known (t : TargetId) (x : CallTarget) (hx : s.targets.get? t = some x) :
      t ∉ new ∧ s'.targets.get? t = some x := by
    rcases stored with ⟨rfl, same⟩ | ⟨y, rfl, grown⟩
    · exact ⟨List.not_mem_nil, same ▸ hx⟩
    · obtain ⟨other, kept⟩ := Arena.get?_alloc_of_some hx y
      exact ⟨mt List.mem_singleton.1 other, grown ▸ kept⟩
  have new_there (t : TargetId) (ht : t ∈ new) :
      s.targets.get? t = none ∧ s'.targets.get? t ≠ none := by
    rcases stored with ⟨rfl, -⟩ | ⟨y, rfl, grown⟩
    · cases ht
    · obtain rfl := List.mem_singleton.1 ht
      exact ⟨s.targets.get?_next, by rw [grown, Arena.get?_alloc, if_pos rfl]; nofun⟩
  refine ⟨by rwa [site], by rwa [site], by rw [site, removed], by rw [site, totalAdded], ?_,
    fun t ht => (new_there t ht).1, fun t ht => ?_, fun t x hx dead => ?_, fun t ht x hx => ?_⟩
  · rcases stored with ⟨rfl, -⟩ | ⟨_, rfl, -⟩
    · exact .nil
    · exact List.nodup_singleton _
  · have there : s'.targets.get? t ≠ none := by
      rcases ht with ht | ht
      · exact (new_there t ht).2
      · obtain ⟨x, hx⟩ := Option.ne_none_iff_exists'.1 ht
        rw [(known t x hx).2]
        nofun
    rw [targets]
    split
    · simpa using there
    · exact there
  · obtain ⟨old, hx⟩ := known t x hx
    have stays : t ∉ gone := fun ht =>
      (List.mem_append.1 (placed.mem_iff.1 (List.mem_append_right _ ht))).elim dead old
    rw [targets, if_neg stays, hx]
  · rw [targets, if_pos ht] at hx
    obtain ⟨y, -, rfl⟩ := Option.map_eq_some_iff.1 hx
    exact ⟨rfl, rfl⟩

/-- Taking targets out of the live ones, which keep their order. -/
theorem Turnover.drop (live gone : List TargetId) (reason : FailureReason)
    (placed : (live ++ gone).Perm s.site.live) (order : live.Sublist s.site.live) :
    s.Turnover (SiteScope.retireAll { s with site := { s.site with live } } gone reason) [] gone reason :=
  .retireAll reason (.inl ⟨rfl, rfl⟩) rfl rfl (by simpa using placed) (List.filter_sublist.trans order)

/-- Storing a target and giving it a place among the live ones. -/
theorem Turnover.create (live gone : List TargetId) (x : CallTarget) (reason : FailureReason)
    (placed : (live ++ gone).Perm (s.site.live ++ [s.targets.next]))
    (order : (live.filter (· ∉ [s.targets.next])).Sublist s.site.live) :
    s.Turnover (SiteScope.retireAll { s with
      site := { s.site with live, totalAdded := s.site.totalAdded + 1 }
      targets := s.targets.alloc { x with callSite := s.site.id } } gone reason)
      [s.targets.next] gone reason :=
  .retireAll reason (.inr ⟨_, rfl, rfl⟩) rfl rfl placed order

theorem turnover_add (s : SiteScope) (x : CallTarget) (reason : FailureReason) :
    s.Turnover (s.add x).2 [(s.add x).1] [] reason := by
  refine Turnover.create (s.site.live ++ [s.targets.next]) [] x reason (by rw [List.append_nil]) ?_
  simp

theorem turnover_addToFront (s : SiteScope) (x : CallTarget) (reason : FailureReason) :
    s.Turnover (s.addToFront x).2 [(s.addToFront x).1] [] reason := by
  refine Turnover.create (s.targets.next :: s.site.live) [] x reason ?_ ?_
  · rw [List.append_nil]
    exact (List.perm_append_singleton ..).symm
  · simp

theorem liveAt_eq_ok_iff {site : CallSite} {index : Nat} {t : TargetId} :
    site.liveAt index = .ok t ↔ site.live[index]? = some t := by
  unfold CallSite.liveAt
  cases site.live[index]? <;> simp

/-- A target that is set takes the place of the displaced one, and all others keep theirs. -/
theorem turnover_set {index : Nat} {x : CallTarget} {reason : FailureReason} {t : TargetId}
    (h : s.set index x reason = .ok (t, s')) :
    ∃ displaced, s.site.live[index]? = some displaced ∧ s'.site.live = s.site.live.set index t ∧
      s.Turnover s' [t] [displaced] reason := by
  obtain ⟨displaced, found, h⟩ := bind_eq_ok.1 h
  cases h
  have there := liveAt_eq_ok_iff.1 found
  exact ⟨displaced, there, rfl, Turnover.create (s.site.live.set index s.targets.next) [displaced] x
    reason (perm_set there _) (filter_set_sublist ..)⟩

theorem turnover_tag {t : TargetId} {reason : FailureReason} (h : s.tag t reason = .ok s') :
    s.Turnover s' [] [] reason := by
  unfold tag checkLive at h
  split at h
  next live =>
    cases h
    refine { Turnover.refl s reason with
      there := fun u hu => ?_
      kept := fun u x hx dead => ?_
      retired := nofun }
    · have there := hu.resolve_left List.not_mem_nil
      simp only [note, Arena.get?_modify]
      split
      · simpa using there
      · exact there
    · have other : t ≠ u := by
        rintro rfl
        exact dead (by simpa using live)
      simp only [note, Arena.get?_modify, if_neg other, hx]
  · cases h

theorem turnover_tagAt {index : Nat} {t : TargetId} {reason : FailureReason}
    (h : s.tagAt index reason = .ok (t, s')) : s.Turnover s' [] [] reason := by
  obtain ⟨u, -, h⟩ := bind_eq_ok.1 h
  obtain ⟨s₁, tagged, h⟩ := bind_eq_ok.1 h
  cases h
  exact turnover_tag tagged

/-- What another site stores is no concern of this one. -/
theorem turnover_elsewhere (s : SiteScope) (x : CallTarget) (reason : FailureReason) :
    s.Turnover { s with targets := s.targets.alloc x } [] [] reason := by
  refine { Turnover.refl s reason with
    there := fun t ht => ?_
    kept := fun t y hy _ => (Arena.get?_alloc_of_some hy x).2
    retired := nofun }
  obtain ⟨y, hy⟩ := Option.ne_none_iff_exists'.1 (ht.resolve_left List.not_mem_nil)
  rw [(Arena.get?_alloc_of_some hy x).2]
  nofun

theorem turnover_remove {t : TargetId} {reason : FailureReason} (h : s.remove t reason = .ok s') :
    s.Turnover s' [] [t] reason := by
  unfold remove checkLive at h
  split at h
  next live =>
    cases h
    exact Turnover.drop (s.site.live.erase t) [t] reason
      ((List.perm_append_singleton ..).trans (List.perm_cons_erase (by simpa using live)).symm)
      List.erase_sublist
  · cases h

theorem turnover_removeAt {index : Nat} {t : TargetId} {reason : FailureReason}
    (h : s.removeAt index reason = .ok (t, s')) : s.Turnover s' [] [t] reason := by
  obtain ⟨u, found, h⟩ := bind_eq_ok.1 h
  cases h
  obtain ⟨within, rfl⟩ := List.getElem?_eq_some_iff.1 (liveAt_eq_ok_iff.1 found)
  exact Turnover.drop (s.site.live.eraseIdx index) [_] reason
    ((List.perm_append_singleton ..).trans (List.getElem_cons_eraseIdx_perm within))
    (List.eraseIdx_sublist ..)

theorem turnover_removeFrom {index : Nat} {reason : FailureReason}
    (h : s.removeFrom index reason = .ok s') :
    s.Turnover s' [] (s.site.live.drop index) reason := by
  unfold removeFrom at h
  split at h
  · cases h
  · cases h
    exact Turnover.drop (s.site.live.take index) _ reason (by rw [List.take_append_drop])
      (List.take_sublist ..)

end SiteScope

namespace SiteOperation

variable {s s' : SiteScope} {op : SiteOperation}

/-- What an operation that succeeds does to the targets of the site. -/
theorem turnover_apply {answer : Option TargetId} (h : op.apply s = .ok (answer, s')) :
    ∃ gone reason, s.Turnover s' (if op.adds then answer.toList else []) gone reason ∧
      (gone ≠ [] → op.reason? = some reason) := by
  cases op with
  | add x =>
    cases h
    exact ⟨[], .inlineableTarget, SiteScope.turnover_add .., nofun⟩
  | addToFront x =>
    cases h
    exact ⟨[], .inlineableTarget, SiteScope.turnover_addToFront .., nofun⟩
  | set index x reason =>
    obtain ⟨⟨t, s'⟩, set, same⟩ := map_eq_ok_iff.1 h
    cases same
    obtain ⟨displaced, -, -, turnover⟩ := SiteScope.turnover_set set
    exact ⟨[displaced], reason, turnover, fun _ => rfl⟩
  | tag t reason =>
    obtain ⟨s', tagged, same⟩ := map_eq_ok_iff.1 h
    cases same
    exact ⟨[], reason, SiteScope.turnover_tag tagged, nofun⟩
  | tagAt index reason =>
    obtain ⟨⟨t, s'⟩, tagged, same⟩ := map_eq_ok_iff.1 h
    cases same
    exact ⟨[], reason, SiteScope.turnover_tagAt tagged, nofun⟩
  | remove t reason =>
    obtain ⟨s', removed, same⟩ := map_eq_ok_iff.1 h
    cases same
    exact ⟨[t], reason, SiteScope.turnover_remove removed, fun _ => rfl⟩
  | removeAt index reason =>
    obtain ⟨⟨t, s'⟩, removed, same⟩ := map_eq_ok_iff.1 h
    cases same
    exact ⟨[t], reason, SiteScope.turnover_removeAt removed, fun _ => rfl⟩
  | removeFrom index reason =>
    obtain ⟨s', removed, same⟩ := map_eq_ok_iff.1 h
    cases same
    exact ⟨_, reason, SiteScope.turnover_removeFrom removed, fun _ => rfl⟩
  | removeAll reason =>
    change (s.removeFrom 0 reason).map _ = _ at h
    obtain ⟨s', removed, same⟩ := map_eq_ok_iff.1 h
    cases same
    exact ⟨_, reason, SiteScope.turnover_removeFrom removed, fun _ => rfl⟩
  | elsewhere x =>
    cases h
    exact ⟨[], .inlineableTarget, SiteScope.turnover_elsewhere s x _, nofun⟩

/-- What an operation does to the targets of the site, also where it fails. -/
theorem turnover_edit (s : SiteScope) (op : SiteOperation) :
    ∃ gone reason, s.Turnover (op.edit.run s).2 (op.added s) gone reason ∧
      (gone ≠ [] → op.reason? = some reason) := by
  unfold added
  rw [op.run_edit]
  cases h : op.apply s with
  | error e =>
    refine ⟨[], .inlineableTarget, ?_, nofun⟩
    rw [Edit.outcome, ite_self]
    exact .refl s _
  | ok result =>
    obtain ⟨answer, s'⟩ := result
    obtain ⟨gone, reason, turnover, given⟩ := turnover_apply h
    refine ⟨gone, reason, ?_, given⟩
    cases answer <;> exact turnover

end SiteOperation

namespace SiteScope

variable {s s' s'' : SiteScope} {ids new gone : List TargetId} {reason : FailureReason}

/-- The site accounts for the targets `ids`: each of them is live or removed, once. -/
structure Accounted (s : SiteScope) (ids : List TargetId) : Prop where
  distinct : ids.Nodup
  placed : (s.site.live ++ s.site.removed).Perm ids
  counted : s.site.live.length + s.site.removed.length = s.site.totalAdded
  there : ∀ t ∈ ids, s.targets.get? t ≠ none

theorem Accounted.turnover (h : s.Accounted ids) (turn : s.Turnover s' new gone reason) :
    s'.Accounted (ids ++ new) where
  distinct := by
    refine List.nodup_append'.2 ⟨h.distinct, turn.distinct, fun t old ht => ?_⟩
    exact h.there t old (turn.fresh t ht)
  placed := by
    have moved : (s'.site.live ++ s'.site.removed).Perm (s'.site.live ++ gone ++ s.site.removed) := by
      rw [turn.removed, List.append_assoc]
      exact List.perm_append_comm.append_left _
    have exchanged : (s.site.live ++ new ++ s.site.removed).Perm
        (s.site.live ++ s.site.removed ++ new) := by
      rw [List.append_assoc, List.append_assoc]
      exact List.perm_append_comm.append_left _
    exact moved.trans ((turn.placed.append_right _).trans (exchanged.trans (h.placed.append_right _)))
  counted := by
    have lengths := turn.placed.length_eq
    have counted := h.counted
    have totalAdded := turn.totalAdded
    simp only [List.length_append, turn.removed] at lengths ⊢
    omega
  there t ht := by
    rcases List.mem_append.1 ht with old | ht
    · exact turn.there t (.inr (h.there t old))
    · exact turn.there t (.inl ht)

theorem Accounted.not_live (h : s.Accounted ids) {t : TargetId} (removed : t ∈ s.site.removed) :
    t ∉ s.site.live := fun live =>
  (List.nodup_append'.1 (h.placed.nodup_iff.2 h.distinct)).2.2 live removed

theorem Accounted.known (h : s.Accounted ids) {t : TargetId}
    (ht : t ∈ s.site.live ∨ t ∈ s.site.removed) : ∃ x, s.targets.get? t = some x :=
  Option.ne_none_iff_exists'.1 (h.there t (h.placed.mem_iff.1 (List.mem_append.2 ht)))

/-- From `s` to `s'` removed targets stay so, and the live ones keep their order. -/
structure Onwards (s s' : SiteScope) : Prop where
  removed : s.site.removed <+: s'.site.removed
  order : (s'.site.live.filter (· ∈ s.site.live)).Sublist s.site.live

theorem Onwards.refl (s : SiteScope) : s.Onwards s := ⟨List.prefix_rfl, List.filter_sublist⟩

/-- What was live before is not new. -/
theorem Onwards.turnover (h : s.Onwards s') (known : ∀ t ∈ s.site.live, s'.targets.get? t ≠ none)
    (turn : s'.Turnover s'' new gone reason) : s.Onwards s'' where
  removed := h.removed.trans ⟨gone, turn.removed.symm⟩
  order := by
    have old : s''.site.live.filter (· ∈ s.site.live) =
        (s''.site.live.filter (· ∉ new)).filter (· ∈ s.site.live) := by
      rw [List.filter_filter]
      refine List.filter_congr fun t _ => ?_
      have fresh : t ∈ s.site.live → t ∉ new := fun live ht => known t live (turn.fresh t ht)
      by_cases live : t ∈ s.site.live
      · simp [live, fresh live]
      · simp [live]
    rw [old]
    exact (turn.order.filter _).trans h.order

/-- The scope after operations, those that failed included. -/
def after (s : SiteScope) (ops : List SiteOperation) : SiteScope :=
  ops.foldl (fun s op => (op.edit.run s).2) s

/-- The targets that operations added, in the order in which they were returned. -/
def returned (s : SiteScope) : List SiteOperation → List TargetId
  | [] => []
  | op :: ops => op.added s ++ returned (op.edit.run s).2 ops

theorem after_append (s : SiteScope) (ops more : List SiteOperation) :
    s.after (ops ++ more) = (s.after ops).after more := List.foldl_append

theorem Accounted.after (h : s.Accounted ids) (ops : List SiteOperation) :
    (s.after ops).Accounted (ids ++ s.returned ops) := by
  induction ops generalizing s ids with
  | nil => rwa [returned, List.append_nil]
  | cons op ops ih =>
    obtain ⟨gone, reason, turn, -⟩ := op.turnover_edit s
    rw [returned, ← List.append_assoc]
    exact ih (h.turnover turn)

/-- Whatever is done with a site, it goes onwards. -/
theorem Accounted.onwards (h : s.Accounted ids) (ops : List SiteOperation) : s.Onwards (s.after ops) := by
  induction ops using List.reverseRecOn with
  | nil => exact .refl s
  | append_singleton ops op ih =>
    obtain ⟨gone, reason, turn, -⟩ := op.turnover_edit (s.after ops)
    rw [after_append]
    refine ih.turnover (fun t live => ?_) turn
    exact (h.after ops).there t (List.mem_append_left _ (h.placed.mem_iff.1 (List.mem_append_left _ live)))

/-- A target is removed by the one operation that found it live, and keeps the reason given there. -/
theorem Accounted.removal (h : s.Accounted ids) (untouched : s.site.removed = [])
    (ops : List SiteOperation) {t : TargetId} (removed : t ∈ (s.after ops).site.removed) :
    ∃ before op rest reason, ops = before ++ op :: rest ∧ t ∉ (s.after before).site.removed ∧
      t ∈ (s.after (before ++ [op])).site.removed ∧ op.reason? = some reason ∧
      ∃ x, (s.after ops).targets.get? t = some x ∧ x.constants = [] ∧ x.failureReason = reason := by
  induction ops using List.reverseRecOn with
  | nil =>
    change t ∈ s.site.removed at removed
    rw [untouched] at removed
    cases removed
  | append_singleton ops op ih =>
    obtain ⟨gone, reason, turn, given⟩ := op.turnover_edit (s.after ops)
    have accounted := (h.after ops).turnover turn
    have step : s.after (ops ++ [op]) = (op.edit.run (s.after ops)).2 := s.after_append ops [op]
    rw [step] at removed ⊢
    have parts := removed
    rw [turn.removed] at parts
    rcases List.mem_append.1 parts with old | ht
    · obtain ⟨before, op', rest, reason', rfl, earlier, then', given', x, hx, retired⟩ := ih old
      exact ⟨before, op', rest ++ [op], reason', by simp, earlier, then', given', x,
        turn.kept t x hx ((h.after _).not_live old), retired⟩
    · have once : t ∉ (s.after ops).site.removed := fun old => by
        have distinct := (List.nodup_append'.1 (accounted.placed.nodup_iff.2 accounted.distinct)).2.1
        rw [turn.removed] at distinct
        exact (List.nodup_append'.1 distinct).2.2 old ht
      obtain ⟨x, hx⟩ := accounted.known (.inr removed)
      exact ⟨ops, op, [], reason, rfl, once, step ▸ removed, given (List.ne_nil_of_mem ht), x, hx,
        turn.retired t ht x hx⟩

/-- A call site before its first operation. -/
def ofCall (call : Call) (targets : Arena .target CallTarget) (journal : Journal) : SiteScope :=
  ⟨.ofCall call, targets, journal⟩

/-- **The books of a call site.** Whatever is done with a site that starts empty, in whatever order: the
targets that were ever returned are live or removed, each once. The removed ones stay removed and keep the
reason of the operation that removed them, but no constants; the live ones keep their order, but for a
target that is set, which takes the place of the displaced one. An operation that fails in place has
changed nothing. -/
theorem books_balance (call : Call) (targets : Arena .target CallTarget) (journal : Journal)
    (ops : List SiteOperation) :
    let start := ofCall call targets journal
    let s := start.after ops
    s.Accounted (start.returned ops) ∧
    (∀ more, s.Onwards (s.after more) ∧ ∀ t ∈ s.site.removed, t ∉ (s.after more).site.live) ∧
    (∀ t ∈ s.site.removed, ∃ before op rest reason, ops = before ++ op :: rest ∧
      t ∉ (start.after before).site.removed ∧ t ∈ (start.after (before ++ [op])).site.removed ∧
      op.reason? = some reason ∧
      ∃ x, s.targets.get? t = some x ∧ x.constants = [] ∧ x.failureReason = reason) ∧
    (∀ index x reason t s', (SiteOperation.set index x reason).edit.run s = (.ok (some t), s') →
      ∃ displaced, s.site.live[index]? = some displaced ∧ s'.site.live = s.site.live.set index t ∧
        s'.site.removed = s.site.removed ++ [displaced]) ∧
    ∀ op : SiteOperation, op.edit.run s = Edit.outcome s (op.apply s) ∧
      ∀ e s', op.edit.run s = (.error e, s') → s' = s := by
  intro start s
  have empty : start.Accounted [] := ⟨.nil, .nil, rfl, nofun⟩
  have accounted : s.Accounted (start.returned ops) := empty.after ops
  refine ⟨accounted, fun more => ?_, fun t ht => empty.removal rfl ops ht, ?_, fun op => ?_⟩
  · have onwards := accounted.onwards more
    exact ⟨onwards, fun t ht => (accounted.after more).not_live (onwards.removed.subset ht)⟩
  · intro index x reason t s' run
    rw [SiteOperation.run_edit] at run
    obtain ⟨⟨u, s₁⟩, set, same⟩ :=
      map_eq_ok_iff.1 (Edit.outcome_eq_ok_iff.1 run)
    cases same
    obtain ⟨displaced, there, live, turn⟩ := turnover_set set
    exact ⟨displaced, there, live, turn.removed⟩
  · have run := op.run_edit s
    exact ⟨run, fun e s' failed => Edit.eq_of_outcome_eq_error (run.symm.trans failed)⟩

/-- A target of a method. -/
def plain (method : Nat) : CallTarget := { callSite := ⟨0⟩, method := ⟨method⟩, frequency := .ofNat 1 }

/-- Of two targets the first is displaced by a third, which cannot be done with it again. While another
site stores a target, the second one is given up as well. -/
def exchange : List SiteOperation :=
  [.add (plain 1), .add (plain 2), .set 0 (plain 3) .recursive, .tag ⟨0⟩ .exceedsBudget,
    .elsewhere (plain 4), .removeFrom 1 .exceedsCallSize]

/-- Three targets were returned. One is live, in the place of the first, and the others are removed. -/
theorem books_balance_exchange :
    let start := ofCall { id := ⟨0⟩, kind := .direct, caller := ⟨0⟩ } {} { recording := true }
    let s := start.after exchange
    s.Accounted [⟨0⟩, ⟨1⟩, ⟨2⟩] ∧ s.site.live = [⟨2⟩] ∧ s.site.removed = [⟨0⟩, ⟨1⟩] ∧
      s.targets.size = 4 ∧ s.journal.events.size = 2 ∧
      (s.targets.get? ⟨0⟩).map (·.failureReason) = some .recursive := by
  have accounted := (books_balance { id := ⟨0⟩, kind := .direct, caller := ⟨0⟩ } {}
    { recording := true } exchange).1
  exact ⟨accounted, by decide +kernel⟩

end SiteScope

end Inlining
