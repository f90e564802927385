import Inlining.Json.Printer
import Inlining.Report.Basic

/-!
# Reports as JSON

A report is written with its fields in a fixed order; reasons that are absent and lists that
are empty are left out where reading supplies them again. It is read back with the decoders
at the end of the module.
-/

namespace Inlining

/-- The member of a list that is left out when it is empty. -/
def Json.listMember {α : Type} (key : String) (f : α → Json) (xs : List α) :
    List (String × Json) :=
  if xs.isEmpty then [] else [(key, .list f xs)]

/-- The member of an optional value that is left out when there is none. -/
def Json.optionalMember {α : Type} (key : String) (f : α → Json) (x : Option α) :
    List (String × Json) :=
  x.toList.map fun x => (key, f x)

def RegionStats.toJson (s : RegionStats) : Json :=
  .obj [("call_sites", .nat s.callSites), ("call_targets", .nat s.callTargets),
    ("live_targets", .nat s.liveTargets), ("removed_targets", .nat s.removedTargets),
    ("required_consts", .nat s.requiredConstants), ("assumptions", .nat s.assumptions)]

def Event.toJson : Event → Json
  | .targetAdded site target method guard =>
    .obj [("event", .str "target_added"), ("site", site.toJson), ("target", target.toJson),
      ("method", method.toJson), ("guard", guard.toJson)]
  | .targetTagged site target reason =>
    .obj [("event", .str "target_tagged"), ("site", site.toJson), ("target", target.toJson),
      ("reason", reason.toJson)]
  | .targetRemoved site target reason =>
    .obj [("event", .str "target_removed"), ("site", site.toJson), ("target", target.toJson),
      ("reason", reason.toJson)]
  | .siteFailed site reason =>
    .obj [("event", .str "site_failed"), ("site", site.toJson), ("reason", reason.toJson)]
  | .framePushed method depth =>
    .obj [("event", .str "frame_pushed"), ("method", method.toJson), ("depth", .nat depth)]
  | .framePopped method depth committed =>
    .obj [("event", .str "frame_popped"), ("method", method.toJson), ("depth", .nat depth),
      ("committed", .bool committed)]

def ConstantReport.toJson (c : ConstantReport) : Json :=
  .obj [("byte_code_index", .int c.index), ("value", c.value.toJson),
    ("assumptions", .list .str c.assumptions)]

mutual

def SiteReport.toJson : SiteReport → Json
  | .mk s targets removed =>
    .obj <|
      [("id", s.id.toJson), ("kind", .str s.kind.name), ("signature", .str s.signature),
        ("bc_info", s.position.toJson), ("depth", .nat s.depth),
        ("visit_count", .nat s.visitCount)] ++
      Json.optionalMember "failure_reason" FailureReason.toJson s.failureReason ++
      [("targets", .array (TargetReport.allToJson targets))] ++
      if removed.isEmpty then [] else [("removed_targets", .array (TargetReport.allToJson removed))]

def TargetReport.toJson : TargetReport → Json
  | .mk t callees =>
    .obj <|
      [("id", t.id.toJson), ("method", t.method.toJson), ("signature", .str t.signature),
        ("guard", t.guard.toJson), ("speculative", .bool t.speculative),
        ("size", .nat t.size.val), ("full_size", .nat t.fullSize.val),
        ("frequency_adjustment", Single.toJson t.frequency),
        ("already_inlined", .bool t.alreadyInlined)] ++
      Json.optionalMember "failure_reason" FailureReason.toJson t.failureReason ++
      Json.listMember "required_consts" ConstantReport.toJson t.constants ++
      (if callees.isEmpty then [] else [("callees", .array (SiteReport.allToJson callees))]) ++
      Json.listMember "deleted_callees" Handle.toJson t.deletedCallees

def TargetReport.allToJson : List TargetReport → List Json
  | [] => []
  | t :: ts => t.toJson :: TargetReport.allToJson ts

def SiteReport.allToJson : List SiteReport → List Json
  | [] => []
  | s :: ss => s.toJson :: SiteReport.allToJson ss

end

def Report.toJson (r : Report) : Json :=
  .obj <|
    [("methods", .list .str r.methods), ("sites", .list SiteReport.toJson r.sites),
      ("total_size", .nat r.totalSize.val),
      ("failure_counts", .obj (r.failureCounts.map fun (reason, n) => (reason.name, .nat n))),
      ("stats", r.stats.toJson)] ++
    Json.listMember "events" Event.toJson r.events

/-- The report as a JSON text over several lines. -/
def Report.jsonText (r : Report) : String := r.toJson.prettyText

/-! ## Reading reports -/

def RegionStats.decoder : Json.Decoder RegionStats := .object fun f => do
  return {
    callSites := ← f.required "call_sites" .nat64
    callTargets := ← f.required "call_targets" .nat64
    liveTargets := ← f.required "live_targets" .nat64
    removedTargets := ← f.required "removed_targets" .nat64
    requiredConstants := ← f.required "required_consts" .nat64
    assumptions := ← f.required "assumptions" .nat64 }

/-- An event names what happened in the member `event`. -/
def Event.decoder : Json.Decoder Event := .tagged "event" fun tag f => do
  match tag with
  | "target_added" =>
    return .targetAdded (← f.required "site" Handle.decoder)
      (← f.required "target" Handle.decoder) (← f.required "method" Handle.decoder)
      (← f.required "guard" Guard.decoder)
  | "target_tagged" =>
    return .targetTagged (← f.required "site" Handle.decoder)
      (← f.required "target" Handle.decoder) (← f.required "reason" FailureReason.decoder)
  | "target_removed" =>
    return .targetRemoved (← f.required "site" Handle.decoder)
      (← f.required "target" Handle.decoder) (← f.required "reason" FailureReason.decoder)
  | "site_failed" =>
    return .siteFailed (← f.required "site" Handle.decoder)
      (← f.required "reason" FailureReason.decoder)
  | "frame_pushed" =>
    return .framePushed (← f.required "method" Handle.decoder) (← f.required "depth" .nat32)
  | "frame_popped" =>
    return .framePopped (← f.required "method" Handle.decoder) (← f.required "depth" .nat32)
      (← f.required "committed" .bool)
  | _ => none

def ConstantReport.decoder : Json.Decoder ConstantReport := .object fun f => do
  return {
    index := ← f.required "byte_code_index" .int32
    value := ← f.required "value" Constant.decoder
    assumptions := ← f.required "assumptions" (.list .string) }

def SiteSummary.ofFields (f : Json.Fields) : Option SiteSummary := do
  return {
    id := ← f.required "id" Handle.decoder
    kind := ← f.required "kind" (.named SiteKind.name SiteKind.all)
    signature := ← f.required "signature" .string
    position := ← f.required "bc_info" BytecodePosition.decoder
    depth := ← f.required "depth" .nat32
    visitCount := ← f.required "visit_count" .nat32
    failureReason := ← f.optional "failure_reason" FailureReason.decoder }

def TargetSummary.ofFields (f : Json.Fields) : Option TargetSummary := do
  return {
    id := ← f.required "id" Handle.decoder
    method := ← f.required "method" Handle.decoder
    signature := ← f.required "signature" .string
    guard := ← f.required "guard" Guard.decoder
    speculative := ← f.withDefault "speculative" .bool false
    size := ← f.required "size" Size.decoder
    fullSize := ← f.required "full_size" Size.decoder
    frequency := ← f.required "frequency_adjustment" .single
    alreadyInlined := ← f.required "already_inlined" .bool
    failureReason := ← f.optional "failure_reason" FailureReason.decoder
    constants := ← f.withDefault "required_consts" (.list ConstantReport.decoder) []
    deletedCallees := ← f.withDefault "deleted_callees" (.list Handle.decoder) [] }

/-- A target in whose body `site` reads the sites. -/
def TargetReport.decoder (site : Json.Decoder SiteReport) : Json.Decoder TargetReport :=
  .object fun f => do
    let summary ← TargetSummary.ofFields f
    return .mk summary (← f.withDefault "callees" (.list site) [])

/-- A site below which at most `sites - 1` sites are nested. -/
def SiteReport.decoderWithin : (sites : Nat) → Json.Decoder SiteReport
  | 0 => fun _ _ => none
  | sites + 1 => .object fun f => do
    let summary ← SiteSummary.ofFields f
    let target := TargetReport.decoder (decoderWithin sites)
    let targets ← f.required "targets" (.list target)
    let removed ← f.withDefault "removed_targets" (.list target) []
    return .mk summary targets removed

/-- A site; each nested site takes several levels of its own. -/
def SiteReport.decoder : Json.Decoder SiteReport := fun n => decoderWithin n n

/-- How often each reason was counted; the last member for a reason counts. -/
def FailureReason.countsDecoder : Json.Decoder (List (FailureReason × Nat)) := .object fun f => do
  let counts ← f.members.mapM fun (key, x) => do
    let reason ← FailureReason.all.find? (·.name == key)
    let count ← Json.Decoder.nat64 f.levels x
    return (reason, count)
  return FailureReason.all.filterMap fun r => counts.findRev? (·.1 == r)

def Report.decoder : Json.Decoder Report := .object fun f => do
  return {
    methods := ← f.required "methods" (.list .string)
    sites := ← f.required "sites" (.list SiteReport.decoder)
    totalSize := ← f.required "total_size" Size.decoder
    failureCounts := ← f.required "failure_counts" FailureReason.countsDecoder
    stats := ← f.required "stats" RegionStats.decoder
    events := ← f.withDefault "events" (.list Event.decoder) [] }

end Inlining
