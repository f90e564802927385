import Inlining.Json.Decode

/-!
# Handles

Everything an exploration talks about is named by a small number with a kind: methods and
classes of the program, positions in a caller's trees, and the sites, targets and
assumptions that the exploration itself creates. The kind is part of the type, so a class
is never looked up among the methods, and decides the letter that the handle is shown with.
-/

namespace Inlining

/-- What a handle names. -/
inductive HandleKind where
  | method
  | classType
  | symbol
  | treeTop
  | node
  | block
  | methodRef
  | assumption
  | site
  | target
deriving DecidableEq, Repr

/-- The letters in front of a handle's number when it is shown. -/
def HandleKind.label : HandleKind → String
  | .method => "m"
  | .classType => "c"
  | .symbol => "#"
  | .treeTop => "tt"
  | .node => "n"
  | .block => "b"
  | .methodRef => "ref"
  | .assumption => "a"
  | .site => "site"
  | .target => "target"

/-- The name of one thing of kind `kind`. -/
structure Handle (kind : HandleKind) where
  index : Nat
deriving DecidableEq, Repr, Inhabited

namespace Handle

variable {kind : HandleKind}

/-- The handle as messages and reports show it, such as `m7`. -/
def text (h : Handle kind) : String := kind.label ++ toString h.index

instance : ToString (Handle kind) := ⟨text⟩

/-- A handle in JSON is its number. -/
def toJson (h : Handle kind) : Json := .nat h.index

def decoder : Json.Decoder (Handle kind) := Json.Decoder.nat32.map Handle.mk

end Handle

/-- A method known to the program. -/
abbrev MethodId := Handle .method

/-- A class or interface of the program. -/
abbrev ClassId := Handle .classType

/-- A symbol reference: a method symbol, an automatic or a temporary. -/
abbrev SymbolId := Handle .symbol

/-- A tree top of a caller. -/
abbrev TreeTopId := Handle .treeTop

/-- A node of a caller's trees. -/
abbrev NodeId := Handle .node

/-- A basic block of a method body. -/
abbrev BlockId := Handle .block

/-- A method reference that a function-pointer call goes through. -/
abbrev MethodRefId := Handle .methodRef

/-- An assumption that folded constants depend on. -/
abbrev AssumptionId := Handle .assumption

/-- A call site of the explored region. -/
abbrev SiteId := Handle .site

/-- A call target of the explored region. -/
abbrev TargetId := Handle .target

end Inlining
