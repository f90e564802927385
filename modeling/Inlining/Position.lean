import Inlining.Handle

/-!
# Positions of calls

A call has a position in the bytecode and, unless it is known from a profile only, one in the
caller's trees.
-/

namespace Inlining

/-- A bytecode position. The caller index is negative for code of the outermost method and
names an inlined call otherwise. -/
structure BytecodePosition where
  callerIndex : Int := -1
  index : Int := 0
deriving DecidableEq, Repr, Inhabited

namespace BytecodePosition

def isOutermost (p : BytecodePosition) : Bool := p.callerIndex < 0

/-- The position as reports show it, such as `-1:12`. -/
def text (p : BytecodePosition) : String := toString p.callerIndex ++ ":" ++ toString p.index

def toJson (p : BytecodePosition) : Json :=
  .obj [("caller_index", .int p.callerIndex), ("byte_code_index", .int p.index)]

def decoder : Json.Decoder BytecodePosition := .object fun f => do
  return {
    callerIndex := ← f.required "caller_index" .int32
    index := ← f.required "byte_code_index" .int32 }

end BytecodePosition

/-- Where a call node hangs in the caller's trees. -/
structure TreeLocation where
  treeTop : Option TreeTopId := none
  parent : Option NodeId := none
  callNode : Option NodeId := none
deriving DecidableEq, Repr, Inhabited

end Inlining
