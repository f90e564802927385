import Inlining.Report.Basic

/-!
# Reports as text

One line a compiled method, one a site, target or constant, indented by two blanks a level,
and the totals at the end.
-/

namespace Inlining

/-- Two blanks a level. -/
def indentation (level : Nat) : String := String.ofList (List.replicate (2 * level) ' ')

namespace SiteSummary

/-- The line of a site. -/
def line (s : SiteSummary) (level : Nat) : String :=
  indentation level ++ s.id.text ++ " " ++ s.kind.name ++ " " ++ s.signature ++ " @" ++
    s.position.text ++ (s.failureReason.elim "" fun r => " failed: " ++ r.name) ++ "\n"

end SiteSummary

namespace TargetSummary

/-- The line of a target; a cross marks a removed one. -/
def line (t : TargetSummary) (level : Nat) (removed : Bool) : String :=
  indentation level ++ (if removed then "x " else "") ++ t.id.text ++ " " ++ t.signature ++
    " [" ++ t.guard.text ++ "] size " ++ toString t.size.val ++ "/" ++ toString t.fullSize.val ++
    (if t.speculative then " speculative" else "") ++
    (t.failureReason.elim "" fun r => (if removed then " removed: " else " tagged: ") ++ r.name) ++
    "\n"

/-- The lines of the constants of a target. -/
def constantLines (t : TargetSummary) (level : Nat) : String :=
  String.join <| t.constants.map fun c =>
    indentation level ++ "  const @" ++ toString c.index ++ " = " ++ c.value.text ++ " (" ++
      ", ".intercalate c.assumptions ++ ")\n"

end TargetSummary

mutual

/-- The lines of a site and of all below it. -/
def SiteReport.lines (level : Nat) : SiteReport → String
  | .mk summary targets removed =>
    summary.line level ++ TargetReport.linesOfAll (level + 1) false targets ++
      TargetReport.linesOfAll (level + 1) true removed

def TargetReport.lines (level : Nat) (isRemoved : Bool) : TargetReport → String
  | .mk summary callees =>
    summary.line level isRemoved ++ summary.constantLines level ++
      SiteReport.linesOfAll (level + 1) callees

def TargetReport.linesOfAll (level : Nat) (isRemoved : Bool) : List TargetReport → String
  | [] => ""
  | t :: ts => t.lines level isRemoved ++ TargetReport.linesOfAll level isRemoved ts

def SiteReport.linesOfAll (level : Nat) : List SiteReport → String
  | [] => ""
  | s :: ss => s.lines level ++ SiteReport.linesOfAll level ss

end

namespace Report

/-- The line of the totals. -/
def totalLine (r : Report) : String :=
  "total size " ++ toString r.totalSize.val ++ ", " ++ toString r.stats.callSites ++
    " call sites, " ++ toString r.stats.liveTargets ++ " live / " ++
    toString r.stats.removedTargets ++ " removed targets\n"

/-- The lines of the counters. -/
def failureLines (r : Report) : String :=
  if r.failureCounts.isEmpty then ""
  else "failures:\n" ++ String.join (r.failureCounts.map fun (reason, count) =>
    "  " ++ reason.name ++ ": " ++ toString count ++ "\n")

/-- The report as an indented tree. -/
def text (r : Report) : String :=
  String.join (r.methods.map fun m => "compiled " ++ m ++ "\n") ++
    SiteReport.linesOfAll 1 r.sites ++ r.totalLine ++ r.failureLines

end Report

end Inlining
