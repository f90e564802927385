import Inlining.Proofs.Removal

/-!
# The journal tells everything

What a journal that records events says about targets and reasons is all there is to say. Posting its
events to an empty ledger, one after the other, never meets a target that is not live, and ends with
exactly the live and removed targets of every site; and each reason was counted once for every event
that carries it, against the tree top of the site of that event (`journal_complete`).

Every stroke touches at most one site. `SiteScope.Posts` says for one site what its new events are and
that its lists follow from them; `Compilation.Journaled`, which says it for all sites, is therefore
stable.
-/

namespace Inlining

namespace Event

/-- The reason that an event carries. -/
def reason? : Event → Option FailureReason
  | .targetTagged _ _ reason | .targetRemoved _ _ reason | .siteFailed _ reason => some reason
  | .targetAdded .. | .framePushed .. | .framePopped .. => none

/-- The site that an event is about. -/
def site? : Event → Option SiteId
  | .targetAdded site .. | .targetTagged site .. | .targetRemoved site .. | .siteFailed site .. =>
    some site
  | .framePushed .. | .framePopped .. => none

end Event

/-- The live and removed targets of every site, as events tell of them. -/
@[ext] structure Ledger where
  live : SiteId → List TargetId := fun _ => []
  removed : SiteId → List TargetId := fun _ => []

namespace Ledger

/-- Posts an event. A target can only be removed where it is live. -/
def post (l : Ledger) : Event → Option Ledger
  | .targetAdded i t _ _ => some { l with live := Function.update l.live i (l.live i ++ [t]) }
  | .targetRemoved i t _ =>
    if (l.live i).contains t then
      some
        { live := Function.update l.live i ((l.live i).erase t)
          removed := Function.update l.removed i (l.removed i ++ [t]) }
    else none
  | .targetTagged .. | .siteFailed .. | .framePushed .. | .framePopped .. => some l

/-- Posts events one after the other. -/
def postAll (l : Ledger) (events : List Event) : Option Ledger := events.foldlM post l

theorem postAll_append (l : Ledger) (events events' : List Event) :
    l.postAll (events ++ events') = (l.postAll events).bind (·.postAll events') :=
  List.foldlM_append ..

/-- The ledger in which one site has other targets. -/
def withSite (l : Ledger) (i : SiteId) (live removed : List TargetId) : Ledger where
  live := Function.update l.live i live
  removed := Function.update l.removed i removed

theorem withSite_self (l : Ledger) (i : SiteId) : l.withSite i (l.live i) (l.removed i) = l := by
  simp [withSite]

end Ledger

/-- The ledger that a region amounts to. -/
def Region.ledger (r : Region) : Ledger where
  live i := ((r.sites.get? i).map (·.live)).getD []
  removed i := ((r.sites.get? i).map (·.removed)).getD []

/-- The tree top that a site hangs below. -/
def Region.treeTop? (r : Region) (i : SiteId) : Option TreeTopId :=
  (r.sites.get? i).bind (·.location.treeTop)

/-- What is counted for an event, if anything is. -/
def Region.note? (r : Region) (e : Event) : Option (FailureReason × Option TreeTopId) :=
  e.reason?.map fun reason => (reason, e.site?.bind r.treeTop?)

namespace Journal

/-- From `j` to `j'` the events `es` were recorded, if events are. -/
structure Gains (j j' : Journal) (es : List Event) : Prop where
  recording : j'.recording = j.recording
  events : j'.events.toList = j.events.toList ++ if j.recording then es else []

variable {j j' j'' : Journal} {es es' : List Event}

theorem Gains.refl (j : Journal) : j.Gains j [] := ⟨rfl, by simp⟩

theorem Gains.trans (h : j.Gains j' es) (h' : j'.Gains j'' es') : j.Gains j'' (es ++ es') where
  recording := h'.recording.trans h.recording
  events := by
    rw [h'.events, h.events, h.recording]
    split <;> simp

theorem gains_record (j : Journal) (e : Event) : j.Gains (j.record e) [e] := by
  unfold record
  split
  next on => exact ⟨rfl, by simp [on]⟩
  next off => exact ⟨rfl, by simp [off]⟩

theorem gains_count (j : Journal) (reason : FailureReason) (top : Option TreeTopId) :
    j.Gains (j.count reason top) [] := ⟨rfl, by simp [count]⟩

theorem counted_record (j : Journal) (e : Event) : (j.record e).counted = j.counted := by
  unfold record
  split <;> rfl

end Journal

namespace SiteScope

/-- From `s` to `s'` the journal gained the events `es`, and what they tell happened to the site. -/
structure Posts (s s' : SiteScope) (es : List Event) : Prop where
  call : s'.site.toCall = s.site.toCall
  gains : s.journal.Gains s'.journal es
  about : ∀ e ∈ es, e.site? = some s.site.id
  counted : s'.journal.counted.reverse = s.journal.counted.reverse ++
    es.filterMap fun e => e.reason?.map fun reason => (reason, s.site.location.treeTop)
  posted : ∀ l : Ledger, (l.withSite s.site.id s.site.live s.site.removed).postAll es =
    some (l.withSite s.site.id s'.site.live s'.site.removed)

variable {s s' s'' : SiteScope} {es es' : List Event}

theorem Posts.refl (s : SiteScope) : s.Posts s [] :=
  ⟨rfl, .refl _, by simp, by simp, fun _ => rfl⟩

theorem Posts.trans (h : s.Posts s' es) (h' : s'.Posts s'' es') : s.Posts s'' (es ++ es') where
  call := h'.call.trans h.call
  gains := h.gains.trans h'.gains
  about := by
    have id : s'.site.id = s.site.id := congrArg Call.id h.call
    intro e he
    rcases List.mem_append.1 he with he | he
    · exact h.about e he
    · exact (h'.about e he).trans (congrArg some id)
  counted := by
    have top : s'.site.location.treeTop = s.site.location.treeTop :=
      congrArg (fun k : Call => k.location.treeTop) h.call
    rw [h'.counted, h.counted, top, List.filterMap_append, List.append_assoc]
  posted l := by
    have id : s'.site.id = s.site.id := congrArg Call.id h.call
    have after := h'.posted l
    rw [id] at after
    rw [Ledger.postAll_append, h.posted, Option.bind_some, after]

/-- What neither the journal nor the lists of targets see posts nothing. -/
theorem Posts.congr (h : s.Posts s' es) (call : s''.site.toCall = s'.site.toCall)
    (live : s''.site.live = s'.site.live) (removed : s''.site.removed = s'.site.removed)
    (journal : s''.journal = s'.journal) : s.Posts s'' es where
  call := call.trans h.call
  gains := journal ▸ h.gains
  about := h.about
  counted := journal ▸ h.counted
  posted l := live ▸ removed ▸ h.posted l

theorem posts_setFailureReason (s : SiteScope) (reason : FailureReason) :
    s.Posts (s.setFailureReason reason) [] := (Posts.refl s).congr rfl rfl rfl rfl

theorem posts_visited (s : SiteScope) : s.Posts s.visited [] := (Posts.refl s).congr rfl rfl rfl rfl

/-- One event is recorded, after its reason was counted if it has one. -/
theorem posts_event {e : Event} (about : e.site? = some s.site.id)
    (call : s'.site.toCall = s.site.toCall)
    (journal : s'.journal =
      (e.reason?.elim s.journal (s.journal.count · s.site.location.treeTop)).record e)
    (posted : ∀ l : Ledger, (l.withSite s.site.id s.site.live s.site.removed).post e =
      some (l.withSite s.site.id s'.site.live s'.site.removed)) : s.Posts s' [e] where
  call := call
  gains := by
    rw [journal]
    cases e.reason? with
    | none => exact s.journal.gains_record e
    | some reason => exact (s.journal.gains_count ..).trans (Journal.gains_record _ e)
  about := by simpa using about
  counted := by
    rw [journal, Journal.counted_record]
    cases h : e.reason? <;> simp [Journal.count, h]
  posted l := by simp [Ledger.postAll, posted]

theorem posts_take (s : SiteScope) (p : Program) (ruledOut : List MethodId)
    (k : Candidate) : ∃ es, s.Posts (s.take p ruledOut k) es := by
  unfold take
  split
  · exact ⟨[], .refl s⟩
  · exact ⟨_, posts_event (e := .targetAdded s.site.id s.targets.next k.method k.guard) rfl rfl rfl
      fun l => by simp [Ledger.post, Ledger.withSite, add]⟩

theorem posts_takeAll (s : SiteScope) (p : Program) (ruledOut : List MethodId)
    (ks : List Candidate) : ∃ es, s.Posts (ks.foldl (·.take p ruledOut) s) es := by
  induction ks generalizing s with
  | nil => exact ⟨[], .refl s⟩
  | cons k ks ih =>
    obtain ⟨es, one⟩ := s.posts_take p ruledOut k
    obtain ⟨es', rest⟩ := ih (s.take p ruledOut k)
    exact ⟨_, one.trans rest⟩

theorem posts_conclude (s : SiteScope) (reason : FailureReason) :
    ∃ es, s.Posts (s.conclude reason) es := by
  have failed (s : SiteScope) :
      s.Posts (s.note s.site.failureReason (.siteFailed s.site.id s.site.failureReason))
        [.siteFailed s.site.id s.site.failureReason] := posts_event rfl rfl rfl fun _ => rfl
  unfold conclude
  split
  · dsimp only
    split
    · exact ⟨_, (s.posts_setFailureReason reason).trans (failed _)⟩
    · exact ⟨_, failed s⟩
  · exact ⟨[], s.posts_setFailureReason _⟩

/-- Resolving a site posts the targets that it takes, or that it fails. -/
theorem posts_resolved (s : SiteScope) (env : Environment) (stack : CallStack) :
    ∃ es, s.Posts (s.resolved env stack) es := by
  obtain ⟨es, taken⟩ := s.visited.posts_takeAll env.program s.visited.ruledOut
    (env.resolve s.site.toCall stack s.visited.alreadyInlined).candidates
  obtain ⟨es', concluded⟩ := posts_conclude _
    (env.resolve s.site.toCall stack s.visited.alreadyInlined).failureReason
  exact ⟨_, s.posts_visited.trans (taken.trans concluded)⟩

theorem posts_retire {t : TargetId} (live : t ∈ s.site.live) (reason : FailureReason) :
    s.Posts (retire { s with site := { s.site with live := s.site.live.erase t } } t reason)
      [.targetRemoved s.site.id t reason] :=
  posts_event rfl rfl rfl fun l => by simp [Ledger.post, Ledger.withSite, retire, note, live]

theorem posts_giveUp {t : TargetId} (live : t ∈ s.site.live) (reason : FailureReason) :
    ∃ es, s.Posts (s.giveUp t reason) es := by
  have retired := posts_retire live reason
  unfold giveUp
  dsimp only
  split
  · exact ⟨_, retired.trans (posts_setFailureReason _ reason)⟩
  · exact ⟨_, retired⟩

/-- The live targets in front of the others are removed one after the other. The lists of the site are
changed at once, but that is not what the events say. -/
theorem posts_retireAll {ts rest : List TargetId} (live : s.site.live = ts ++ rest)
    (reason : FailureReason) :
    ∃ es, s.Posts (retireAll { s with site := { s.site with live := rest } } ts reason) es := by
  induction ts generalizing s with
  | nil => exact ⟨[], (Posts.refl s).congr rfl live.symm rfl rfl⟩
  | cons t ts ih =>
    have first := posts_retire (s := s) (t := t) (by simp [live]) reason
    have others : s.site.live.erase t = ts ++ rest := by simp [live]
    obtain ⟨es, after⟩ :=
      ih (s := retire { s with site := { s.site with live := s.site.live.erase t } } t reason) others
    exact ⟨_, first.trans after⟩

theorem posts_giveUpAll (s : SiteScope) (reason : FailureReason) :
    ∃ es, s.Posts (s.giveUpAll reason) es := by
  have all : s.site.live = s.site.live ++ [] := s.site.live.append_nil.symm
  obtain ⟨es, retired⟩ := posts_retireAll all reason
  exact ⟨_, retired.trans (posts_setFailureReason _ reason)⟩

end SiteScope

/-- The journal tells what became of every site. -/
structure Compilation.Journaled (c : Compilation) : Prop where
  recording : c.journal.recording = true
  ids : ∀ {i k}, c.region.forest.call? i = some k → k.id = i
  about : ∀ e ∈ c.journal.events.toList, ∀ i, e.site? = some i → c.region.forest.call? i ≠ none
  posted : ({} : Ledger).postAll c.journal.events.toList = some c.region.ledger
  counted : c.journal.counted.reverse = c.journal.events.toList.filterMap c.region.note?

namespace Region

variable {r r' : Region}

/-- A ledger is a part of the forest. -/
theorem ledger_eq (r : Region) : r.ledger = ⟨r.forest.live, r.forest.removed⟩ := rfl

theorem treeTop?_eq (r : Region) (i : SiteId) :
    r.treeTop? i = (r.forest.call? i).bind (·.location.treeTop) := by
  simp [treeTop?, forest, Option.bind_map]

/-- What is counted for an event only depends on the call of its site. -/
theorem note?_congr {e : Event} (same : ∀ i, e.site? = some i → r'.forest.call? i = r.forest.call? i) :
    r'.note? e = r.note? e := by
  have top : e.site?.bind r'.treeTop? = e.site?.bind r.treeTop? := by
    cases h : e.site? with
    | none => rfl
    | some i => simp only [Option.bind_some, treeTop?_eq, same i h]
  simp only [note?, top]

end Region

namespace Compilation.Journaled

variable {c c' : Compilation}

/-- What changes neither a site nor the journal. -/
theorem of_sites (h : c.Journaled) (sites : c'.region.sites = c.region.sites)
    (journal : c'.journal = c.journal) : c'.Journaled := by
  have call : c'.region.forest.call? = c.region.forest.call? := by simp [Region.forest, sites]
  have ledger : c'.region.ledger = c.region.ledger := by simp [Region.ledger, sites]
  have note : c'.region.note? = c.region.note? :=
    funext fun e => Region.note?_congr fun i _ => congrFun call i
  exact {
    recording := journal ▸ h.recording
    ids := call ▸ h.ids
    about := journal ▸ call ▸ h.about
    posted := by rw [journal, ledger, h.posted]
    counted := by rw [journal, note, h.counted] }

/-- Events that are about no site tell nothing about targets. -/
theorem record (h : c.Journaled) {e : Event} (frame : e.site? = none) :
    ({ c with journal := c.journal.record e } : Compilation).Journaled := by
  have gains := c.journal.gains_record e
  have events : (c.journal.record e).events.toList = c.journal.events.toList ++ [e] := by
    rw [gains.events, if_pos h.recording]
  have silent : e.reason? = none ∧ ∀ l : Ledger, l.post e = some l := by
    cases e with
    | framePushed | framePopped => exact ⟨rfl, fun _ => rfl⟩
    | _ => cases frame
  exact {
    recording := gains.recording.trans h.recording
    ids := h.ids
    about := fun e' he' i hi => by
      rcases List.mem_append.1 (events ▸ he') with old | new
      · exact h.about e' old i hi
      · rw [List.mem_singleton.1 new, frame] at hi
        cases hi
    posted := by
      rw [events, Ledger.postAll_append, h.posted]
      simpa [Ledger.postAll] using silent.2 c.region.ledger
    counted := by
      rw [events, Journal.counted_record, h.counted, List.filterMap_append]
      simp [Region.note?, silent.1] }

/-- A new site has no targets, and no event is about it. -/
theorem withSite (h : c.Journaled) {k : Call} (hk : k.id = c.region.sites.next) :
    (c.withSite k).Journaled := by
  have forest : (c.withSite k).region.forest = c.region.forest.addSite c.region.sites.next k :=
    Region.forest_addSite ..
  have call (i) : (c.withSite k).region.forest.call? i =
      if i = c.region.sites.next then some k else c.region.forest.call? i := by
    simp [forest, Forest.addSite, Function.update_apply]
  have kept {i} (hi : c.region.forest.call? i ≠ none) :
      (c.withSite k).region.forest.call? i = c.region.forest.call? i := by
    rw [call, if_neg]
    rintro rfl
    exact hi c.region.call_next
  have ledger : (c.withSite k).region.ledger = c.region.ledger := by
    rw [Region.ledger_eq, Region.ledger_eq, forest]
    rfl
  exact {
    recording := h.recording
    ids := fun {i k'} hk' => by
      rw [call] at hk'
      split at hk'
      next e => rw [e, ← hk, Option.some.inj hk']
      next => exact h.ids hk'
    about := fun e he i hi => by
      rw [kept (h.about e he i hi)]
      exact h.about e he i hi
    posted := by rw [ledger]; exact h.posted
    counted := h.counted.trans (List.filterMap_congr fun e he =>
      (Region.note?_congr fun i hi => kept (h.about e he i hi)).symm) }

/-- What happens to one site is told by the new events. -/
theorem update (h : c.Journaled) {id : SiteId} {s : CallSite} {scope : SiteScope}
    (hs : c.region.sites.get? id = some s) (posts : ∃ es, (c.scope s).Posts scope es) :
    (c.update id scope).Journaled := by
  obtain ⟨es, posts⟩ := posts
  have hk := Region.forest_call hs
  have hid : s.id = id := h.ids hk
  have call : (c.update id scope).region.forest.call? = c.region.forest.call? :=
    Region.call_put hs posts.call
  have note : (c.update id scope).region.note? = c.region.note? :=
    funext fun e => Region.note?_congr fun i _ => congrFun call i
  have top : c.region.treeTop? id = s.location.treeTop := by simp [Region.treeTop?, hs]
  have before : c.region.ledger.withSite s.id s.live s.removed = c.region.ledger := by
    rw [hid, ← Region.forest_live hs, ← Region.forest_removed hs]
    exact Ledger.withSite_self ..
  have after : c.region.ledger.withSite s.id scope.site.live scope.site.removed =
      (c.update id scope).region.ledger := by
    have lists := Region.forest_put_site hs scope
    ext1 <;> funext i
    · refine Eq.trans ?_ (lists i).2.1.symm
      simp [Ledger.withSite, Function.update_apply, hid, Region.ledger_eq, eq_comm]
    · refine Eq.trans ?_ (lists i).2.2.symm
      simp [Ledger.withSite, Function.update_apply, hid, Region.ledger_eq, eq_comm]
  have events : (c.update id scope).journal.events.toList = c.journal.events.toList ++ es := by
    have recording : (c.scope s).journal.recording = true := h.recording
    exact posts.gains.events.trans (by rw [if_pos recording]; rfl)
  exact {
    recording := posts.gains.recording.trans h.recording
    ids := call ▸ h.ids
    about := fun e he i hi => by
      rw [call]
      rcases List.mem_append.1 (events ▸ he) with old | new
      · exact h.about e old i hi
      · rw [posts.about e new] at hi
        obtain rfl : s.id = i := Option.some.inj hi
        rw [hid, hk]
        exact nofun
    posted := by
      have post : (c.region.ledger.withSite s.id s.live s.removed).postAll es =
        some (c.region.ledger.withSite s.id scope.site.live scope.site.removed) := posts.posted _
      rw [before, after] at post
      rw [events, Ledger.postAll_append, h.posted]
      exact post
    counted := by
      rw [events, note, List.filterMap_append]
      refine posts.counted.trans (congrArg₂ _ h.counted (List.filterMap_congr fun e he => ?_))
      simp [Region.note?, posts.about e he, Compilation.scope, hid, top] }

end Compilation.Journaled

section Sessions

variable {env : Environment} {p : Program} {config : Configuration} {earlier : List InlinedRecord}
  {c : Compilation}

/-- Whatever happens to a site is told. -/
theorem stable_journaled : Stable env Compilation.Journaled where
  effect {c c'} h effect := by
    cases effect with
    | enter | leave => exact h.record rfl
    | call hk =>
      have fresh := congrArg Call.id hk
      exact (h.withSite fresh).update (c.get?_withSite fresh)
        (SiteScope.posts_resolved _ env _)
    | again hs => exact h.update hs (SiteScope.posts_resolved _ env _)
    | folds => exact h.of_sites (Region.sites_recordFolds ..) rfl
    | settle => exact h.of_sites (Region.sites_settle ..) rfl
    | number | spend | charge => exact h.of_sites rfl rfl
    | cut _ cut =>
      cases cut with
      | target hs live => exact h.update hs (SiteScope.posts_giveUp live _)
      | site hs => exact h.update hs (SiteScope.posts_giveUpAll ..)
      | callee => exact h.of_sites rfl rfl
  broken h broke := by
    cases broke with
    | call hk =>
      have fresh := congrArg Call.id hk
      exact (h.withSite fresh).update (Compilation.get?_withSite fresh)
        ⟨[], SiteScope.posts_visited _⟩
    | again hs => exact h.update hs ⟨[], SiteScope.posts_visited _⟩
  adopt _ _ h := h.of_sites rfl rfl
  mark h _ _ := h.of_sites rfl rfl
  replay _ h _ := h.of_sites rfl rfl
  invalidate _ h := h.of_sites rfl rfl

theorem Visits.journaled (h : Visits p config earlier c) (traced : config.traceEvents = true) :
    c.Journaled := by
  refine h.stable (fun _ => stable_journaled) ⟨traced, fun hk => ?_, nofun, ?_, rfl⟩
  · simp [Compilation.forest_start] at hk
  · rw [Region.ledger_eq, Compilation.forest_start]
    rfl

/-- **The journal tells everything.** In every session that records events, after failed requests too,
the events post without fail, to exactly the live and removed targets of every site. Each counter is
the number of events that carry its reason, for a tree top of those about a site that hangs below it. -/
theorem journal_complete (h : Visits p config earlier c) (traced : config.traceEvents = true) :
    ({} : Ledger).postAll c.journal.events.toList = some c.region.ledger ∧
      (∀ r, c.journal.counter r = c.journal.events.toList.countP (·.reason? == some r)) ∧
      ∀ r top, c.journal.counterAt r top = c.journal.events.toList.countP fun e =>
        e.reason? == some r && e.site?.bind c.region.treeTop? == some top := by
  have journaled := h.journaled traced
  have counted (matches? : FailureReason × Option TreeTopId → Bool) :
      c.journal.counted.countP matches? =
        c.journal.events.toList.countP fun e => ((c.region.note? e).map matches?).getD false := by
    rw [← List.countP_reverse, journaled.counted, List.countP_filterMap]
  refine ⟨journaled.posted, fun r => (counted _).trans ?_, fun r top => (counted _).trans ?_⟩
  · congr 1
    funext e
    simp only [Region.note?]
    cases e.reason? <;> simp
  · congr 1
    funext e
    simp only [Region.note?]
    cases e.reason? <;> rfl

end Sessions

/-- The journal of a session in which `render` was given up, with the circle drawn in it. -/
theorem journal_complete_render :
    ({} : Ledger).postAll renderRemoved.journal.events.toList = some renderRemoved.region.ledger ∧
      renderRemoved.region.ledger.live ⟨0⟩ = [] ∧ renderRemoved.region.ledger.removed ⟨0⟩ = [⟨0⟩] ∧
      renderRemoved.journal.events.toList.countP (·.reason? == some .exceedsCallSize) = 2 := by
  have visits : Visits shapes narrow [] renderRemoved := .run .start (drawing ⟨1⟩) (.explore ⟨0⟩)
  obtain ⟨posted, counters, -⟩ := journal_complete visits (by rfl)
  refine ⟨posted, by decide +kernel, by decide +kernel, ?_⟩
  rw [← counters]
  decide +kernel

end Inlining
