import Inlining.Configuration
import Inlining.Constant
import Inlining.Position
import Inlining.Profile

/-!
# Program descriptions

What a program is described by: its classes, its methods with their calls, folds, blocks and
profiles, and its method references. A description is read from JSON and says nothing about
whether the handles in it name anything; that is checked where a program is made of it.
-/

namespace Inlining

/-- A class or interface. -/
structure ClassDecl where
  id : ClassId
  name : String
  superclass : Option ClassId := none
  interfaces : List ClassId := []
  isInterface : Bool := false
  isAbstract : Bool := false
deriving DecidableEq

namespace ClassDecl

/-- The superclass and the interfaces. -/
def parents (c : ClassDecl) : List ClassId := c.superclass.toList ++ c.interfaces

/-- The class can have instances of its own. -/
def isConcrete (c : ClassDecl) : Bool := !c.isInterface && !c.isAbstract

end ClassDecl

/-- How a method is invoked. -/
inductive MethodKind where
  | static
  | virtual
  | interface
  | special
deriving DecidableEq, Repr

instance : Inhabited MethodKind := ⟨.virtual⟩

namespace MethodKind

def all : List MethodKind := [static, virtual, interface, special]

def name : MethodKind → String
  | static => "static"
  | virtual => "virtual"
  | interface => "interface"
  | special => "special"

end MethodKind

/-- The static shape of a call. -/
inductive CallShape where
  | direct
  | virtual
  | interface
  | functionPointer
deriving DecidableEq, Repr

namespace CallShape

def all : List CallShape := [direct, virtual, interface, functionPointer]

def name : CallShape → String
  | direct => "direct"
  | virtual => "virtual"
  | interface => "interface"
  | functionPointer => "function_pointer"

end CallShape

/-- How much is known about the class of an argument. -/
inductive Knowledge where
  /-- the class is exactly the one named -/
  | fixed
  /-- the class is at or below the one named -/
  | resolved
deriving DecidableEq, Repr

namespace Knowledge

def all : List Knowledge := [fixed, resolved]

def name : Knowledge → String
  | fixed => "fixed"
  | resolved => "resolved"

end Knowledge

/-- What is known about the class of one argument. -/
structure ArgumentFact where
  classId : ClassId
  knowledge : Knowledge
deriving DecidableEq, Repr

/-- What is known about the arguments of a call, the receiver first. -/
abbrev ArgumentFacts := List (Option ArgumentFact)

/-- What is known about the receiver. -/
def ArgumentFacts.receiver? (facts : ArgumentFacts) : Option ArgumentFact := facts.head?.join

/-- What control flow says about a block. -/
structure BlockFacts where
  inLoop : Bool := false
  alwaysReached : Bool := false
deriving DecidableEq, Repr, Inhabited

/-- A constant folded while a body is generated, with what the fold assumes. -/
structure SpeculativeFold where
  index : Int
  value : Constant
  assumptions : List String := []
deriving DecidableEq

/-- A call in a method body. -/
structure CallDecl where
  index : Int
  shape : CallShape
  method : Option MethodId := none
  receiverClass : Option ClassId := none
  slot : Option Int := none
  methodRef : Option MethodRefId := none
  block : BlockId := ⟨0⟩
  forceInline : Bool := false
  backEdge : Bool := false
  allConstants : Bool := false
  receiverFact : Option ArgumentFact := none
  treeTop : Option TreeTopId := none
  node : Option NodeId := none
deriving DecidableEq

/-- The profile of one call in a method body. -/
structure ProfileDecl where
  index : Int
  receivers : List (ClassId × SampleCount) := []
  references : List (MethodRefId × SampleCount) := []
deriving DecidableEq

/-- A method and its body. -/
structure MethodDecl where
  id : MethodId
  name : String
  declaringClass : ClassId
  kind : MethodKind := .virtual
  slot : Option Int := none
  symbol : Option SymbolId := none
  size : Size := 0
  inlinable : Bool := true
  isAbstract : Bool := false
  calls : List CallDecl := []
  folds : List SpeculativeFold := []
  blocks : List BlockFacts := []
  profiles : List ProfileDecl := []
deriving DecidableEq

/-- A method reference. -/
structure ReferenceDecl where
  id : MethodRefId
  method : MethodId
deriving DecidableEq

/-- A whole program as it is described. -/
structure Description where
  classes : List ClassDecl := []
  methods : List MethodDecl := []
  references : List ReferenceDecl := []
deriving DecidableEq

def ClassDecl.decoder : Json.Decoder ClassDecl := .object fun f => do
  return {
    id := ← f.required "id" Handle.decoder
    name := ← f.required "name" .string
    superclass := ← f.optional "superclass" Handle.decoder
    interfaces := ← f.withDefault "interfaces" (.list Handle.decoder) []
    isInterface := ← f.withDefault "is_interface" .bool false
    isAbstract := ← f.withDefault "is_abstract" .bool false }

def ArgumentFact.decoder : Json.Decoder ArgumentFact := .object fun f => do
  return {
    classId := ← f.required "class" Handle.decoder
    knowledge := ← f.required "knowledge" (.named Knowledge.name Knowledge.all) }

def BlockFacts.decoder : Json.Decoder BlockFacts := .object fun f => do
  return {
    inLoop := ← f.withDefault "in_a_loop" .bool false
    alwaysReached := ← f.withDefault "always_reached" .bool false }

def SpeculativeFold.decoder : Json.Decoder SpeculativeFold := .object fun f => do
  return {
    index := ← f.required "byte_code_index" .int32
    value := ← f.required "value" Constant.decoder
    assumptions := ← f.withDefault "assumptions" (.list .string) [] }

def CallDecl.decoder : Json.Decoder CallDecl := .object fun f => do
  return {
    index := ← f.required "bci" .int32
    shape := ← f.required "shape" (.named CallShape.name CallShape.all)
    method := ← f.optional "method" Handle.decoder
    receiverClass := ← f.optional "receiver_class" Handle.decoder
    slot := ← f.optional "vft_slot" .int32
    methodRef := ← f.optional "method_ref" Handle.decoder
    block := ← f.withDefault "block" Handle.decoder ⟨0⟩
    forceInline := ← f.withDefault "force_inline" .bool false
    backEdge := ← f.withDefault "back_edge" .bool false
    allConstants := ← f.withDefault "all_consts" .bool false
    receiverFact := ← f.optional "receiver_prex" ArgumentFact.decoder
    treeTop := ← f.optional "tree_top" Handle.decoder
    node := ← f.optional "node" Handle.decoder }

def ProfileDecl.decoder : Json.Decoder ProfileDecl := .object fun f => do
  return {
    index := ← f.required "bci" .int32
    receivers := ← f.withDefault "receivers" (.list (.pair Handle.decoder SampleCount.decoder)) []
    references :=
      ← f.withDefault "references" (.list (.pair Handle.decoder SampleCount.decoder)) [] }

def MethodDecl.decoder : Json.Decoder MethodDecl := .object fun f => do
  return {
    id := ← f.required "id" Handle.decoder
    name := ← f.required "name" .string
    declaringClass := ← f.required "class" Handle.decoder
    kind := ← f.withDefault "kind" (.named MethodKind.name MethodKind.all) .virtual
    slot := ← f.optional "vft_slot" .int32
    symbol := ← f.optional "symbol" Handle.decoder
    size := ← f.withDefault "size" Size.decoder 0
    inlinable := ← f.withDefault "inlinable" .bool true
    isAbstract := ← f.withDefault "is_abstract" .bool false
    calls := ← f.withDefault "calls" (.list CallDecl.decoder) []
    folds := ← f.withDefault "folds" (.list SpeculativeFold.decoder) []
    blocks := ← f.withDefault "blocks" (.list BlockFacts.decoder) []
    profiles := ← f.withDefault "profiles" (.list ProfileDecl.decoder) [] }

def ReferenceDecl.decoder : Json.Decoder ReferenceDecl := .object fun f => do
  return {
    id := ← f.required "id" Handle.decoder
    method := ← f.required "method" Handle.decoder }

def Description.decoder : Json.Decoder Description := .object fun f => do
  return {
    classes := ← f.withDefault "classes" (.list ClassDecl.decoder) []
    methods := ← f.withDefault "methods" (.list MethodDecl.decoder) []
    references := ← f.withDefault "references" (.list ReferenceDecl.decoder) [] }

/-- The description in a JSON text. -/
def Description.ofText? (text : String) : Option Description :=
  (Json.parse? text).bind (Json.decode? decoder)

end Inlining
