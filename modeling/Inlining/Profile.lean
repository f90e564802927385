import Inlining.Binary.Basic
import Inlining.Handle
import Inlining.Saturating

/-!
# Call profiles

A profile counts, for one call, the receiver classes and the method references that flowed
into it. Recording adds to the entry of the class, or appends one. `dominant` lists the
entries whose share of all calls reaches a ratio, the most frequent first and equally
frequent ones by handle; shares are 32-bit quotients of 32-bit roundings of the counts.
-/

namespace Inlining

/-- Counts by handle, in the order in which the handles were first recorded. -/
abbrev Tally (kind : HandleKind) := List (Handle kind × SampleCount)

namespace Tally

variable {kind : HandleKind}

/-- Adds to the count of a handle. -/
def record (key : Handle kind) (count : SampleCount) : Tally kind → Tally kind
  | [] => [(key, count)]
  | (k, c) :: rest => if k = key then (k, c + count) :: rest else (k, c) :: record key count rest

/-- The sum of all counts. -/
def total (t : Tally kind) : SampleCount := (t.map (·.2)).sum

/-- The order of frequency: greater counts first, equal counts by handle. -/
def before (a b : Handle kind × SampleCount) : Bool :=
  b.2.val < a.2.val || a.2.val == b.2.val && a.1.index ≤ b.1.index

/-- The share of a count in a total. -/
def share (count total : SampleCount) : Single := Binary.ofNat count.val / Binary.ofNat total.val

/-- The handles whose share reaches `ratio`, at most `limit` of them, with their shares; none
if fewer than `samples` calls were recorded. -/
def dominant (t : Tally kind) (ratio : Single) (samples : SampleCount) (limit : Nat) :
    List (Handle kind × Single) :=
  if t.total = 0 ∨ t.total < samples then []
  else
    (((t.mergeSort before).map fun (key, count) => (key, share count t.total)).filter
      fun entry => ratio.le entry.2).take limit

end Tally

/-- What was observed at one call. -/
structure CallProfile where
  receivers : Tally .classType := []
  references : Tally .methodRef := []
deriving DecidableEq

namespace CallProfile

/-- Counts calls with a receiver class. -/
def record (p : CallProfile) (receiver : ClassId) (count : SampleCount) : CallProfile :=
  { p with receivers := Tally.record receiver count p.receivers }

/-- Counts calls through a method reference. -/
def recordReference (p : CallProfile) (reference : MethodRefId) (count : SampleCount) :
    CallProfile :=
  { p with references := Tally.record reference count p.references }

/-- The profile in which the given counts were recorded one after the other. -/
def ofCounts (receivers : List (ClassId × SampleCount))
    (references : List (MethodRefId × SampleCount)) : CallProfile :=
  let p := receivers.foldl (fun p (c, n) => p.record c n) ⟨[], []⟩
  references.foldl (fun p (r, n) => p.recordReference r n) p

/-- The number of receiver entries. -/
def diversity (p : CallProfile) : Nat := p.receivers.length

/-- The most frequent receiver class if its share reaches the ratio. -/
def dominantReceiver? (p : CallProfile) (ratio : Single) (samples : SampleCount) :
    Option (ClassId × Single) :=
  (p.receivers.dominant ratio samples 1).head?

/-- The most frequent method reference if its share reaches the ratio. -/
def dominantReference? (p : CallProfile) (ratio : Single) (samples : SampleCount) :
    Option (MethodRefId × Single) :=
  (p.references.dominant ratio samples 1).head?

end CallProfile

end Inlining
