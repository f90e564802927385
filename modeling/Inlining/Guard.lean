import Inlining.Handle

/-!
# Guards

A binding that holds only for some receivers is protected by a run-time test. A guard names
the test and what it compares against. A strategy is the reason for a binding; which guard a
strategy needs is decided in the module on configurations.
-/

namespace Inlining

/-- What a guard protects against. -/
inductive GuardKind where
  | none
  | nonNull
  | hierarchy
  | profiled
  | interface
  | methodReference
deriving DecidableEq, Repr, Inhabited

namespace GuardKind

def all : List GuardKind := [none, nonNull, hierarchy, profiled, interface, methodReference]

def name : GuardKind → String
  | none => "none"
  | nonNull => "non_null"
  | hierarchy => "hierarchy"
  | profiled => "profiled"
  | interface => "interface"
  | methodReference => "method_reference"

/-- The kind as reports show it. -/
def title : GuardKind → String
  | none => "None"
  | nonNull => "NonNull"
  | hierarchy => "Hierarchy"
  | profiled => "Profiled"
  | interface => "Interface"
  | methodReference => "MethodReference"

def toJson (k : GuardKind) : Json := .str k.name

def decoder : Json.Decoder GuardKind := .named name all

end GuardKind

/-- The test that a guard runs. -/
inductive GuardTest where
  | none
  | nullTest
  | subclassTest
  | vftTest
  | methodTest
  | referenceTest
deriving DecidableEq, Repr, Inhabited

namespace GuardTest

def all : List GuardTest := [none, nullTest, subclassTest, vftTest, methodTest, referenceTest]

def name : GuardTest → String
  | none => "none"
  | nullTest => "null_test"
  | subclassTest => "subclass_test"
  | vftTest => "vft_test"
  | methodTest => "method_test"
  | referenceTest => "reference_test"

/-- The test as reports show it. -/
def title : GuardTest → String
  | none => "None"
  | nullTest => "NullTest"
  | subclassTest => "SubclassTest"
  | vftTest => "VftTest"
  | methodTest => "MethodTest"
  | referenceTest => "ReferenceTest"

def toJson (t : GuardTest) : Json := .str t.name

def decoder : Json.Decoder GuardTest := .named name all

end GuardTest

/-- A guard: its kind, its test, and the class or method reference that the test compares
against. -/
structure Guard where
  kind : GuardKind := .none
  test : GuardTest := .none
  thisClass : Option ClassId := Option.none
  reference : Option MethodRefId := Option.none
deriving DecidableEq, Repr, Inhabited

namespace Guard

/-- No guard at all. -/
def unguarded : Guard := {}

/-- Only a test that the receiver is not null. -/
def nullCheck : Guard := { kind := .nonNull, test := .nullTest }

/-- The inlined body depends on a run-time test. -/
def isGuarded (g : Guard) : Bool := g.kind != .none

/-- The test can fail for a receiver that is not null. -/
def isSpeculative (g : Guard) : Bool := g.kind != .none && g.kind != .nonNull

/-- The guard as reports show it, such as `Hierarchy/SubclassTest c3`. -/
def text (g : Guard) : String :=
  g.kind.title ++ "/" ++ g.test.title ++
    (g.thisClass.elim "" fun c => " " ++ c.text) ++ (g.reference.elim "" fun r => " " ++ r.text)

def toJson (g : Guard) : Json :=
  .obj [("kind", g.kind.toJson), ("test", g.test.toJson),
    ("this_class", .option Handle.toJson g.thisClass),
    ("reference", .option Handle.toJson g.reference)]

def decoder : Json.Decoder Guard := .object fun f => do
  return {
    kind := ← f.required "kind" GuardKind.decoder
    test := ← f.required "test" GuardTest.decoder
    thisClass := ← f.optional "this_class" Handle.decoder
    reference := ← f.optional "reference" Handle.decoder }

end Guard

/-- Why a binding holds. -/
inductive Strategy where
  /-- the call is bound statically -/
  | direct
  /-- the receiver's class is exactly the given one -/
  | fixedReceiver (receiver : ClassId)
  /-- nobody overrides the method -/
  | notOverridden
  /-- nobody at or below the given class overrides the method -/
  | notOverriddenInSubhierarchy (receiver : ClassId)
  /-- the given class dominates the profile -/
  | profiledReceiver (receiver : ClassId)
  /-- there is one implementation at or below the given class -/
  | singleImplementer (base : ClassId)
  /-- the call must be inlined; the class declares the bound method -/
  | forcedInline (declaring : Option ClassId)
  /-- the call goes through a known method reference -/
  | constantReference (reference : MethodRefId)
  /-- the given method reference dominates the profile -/
  | profiledReference (reference : MethodRefId)
deriving DecidableEq, Repr

/-- A strategy without what it is about. -/
inductive StrategyKind where
  | direct
  | fixedReceiver
  | notOverridden
  | notOverriddenInSubhierarchy
  | profiledReceiver
  | singleImplementer
  | forcedInline
  | constantReference
  | profiledReference
deriving DecidableEq, Repr

namespace StrategyKind

def all : List StrategyKind :=
  [direct, fixedReceiver, notOverridden, notOverriddenInSubhierarchy, profiledReceiver,
    singleImplementer, forcedInline, constantReference, profiledReference]

def name : StrategyKind → String
  | direct => "direct"
  | fixedReceiver => "fixed_receiver"
  | notOverridden => "not_overridden"
  | notOverriddenInSubhierarchy => "not_overridden_in_subhierarchy"
  | profiledReceiver => "profiled_receiver"
  | singleImplementer => "single_implementer"
  | forcedInline => "forced_inline"
  | constantReference => "constant_reference"
  | profiledReference => "profiled_reference"

end StrategyKind

namespace Strategy

/-- The kind of a strategy. -/
def kind : Strategy → StrategyKind
  | direct => .direct
  | fixedReceiver _ => .fixedReceiver
  | notOverridden => .notOverridden
  | notOverriddenInSubhierarchy _ => .notOverriddenInSubhierarchy
  | profiledReceiver _ => .profiledReceiver
  | singleImplementer _ => .singleImplementer
  | forcedInline _ => .forcedInline
  | constantReference _ => .constantReference
  | profiledReference _ => .profiledReference

/-- The class or method reference that a strategy is about, as a member of an object. -/
def operand : Strategy → List (String × Json)
  | direct | notOverridden => []
  | fixedReceiver c | notOverriddenInSubhierarchy c | profiledReceiver c | singleImplementer c =>
    [("class", c.toJson)]
  | forcedInline c => [("class", .option Handle.toJson c)]
  | constantReference r | profiledReference r => [("reference", r.toJson)]

def toJson (s : Strategy) : Json := .obj (("strategy", .str s.kind.name) :: s.operand)

/-- A strategy names its kind in the member `strategy`. -/
def decoder : Json.Decoder Strategy := .tagged "strategy" fun tag f => do
  match ← StrategyKind.all.find? (·.name == tag) with
  | .direct => return direct
  | .fixedReceiver => return fixedReceiver (← f.required "class" Handle.decoder)
  | .notOverridden => return notOverridden
  | .notOverriddenInSubhierarchy =>
    return notOverriddenInSubhierarchy (← f.required "class" Handle.decoder)
  | .profiledReceiver => return profiledReceiver (← f.required "class" Handle.decoder)
  | .singleImplementer => return singleImplementer (← f.required "class" Handle.decoder)
  | .forcedInline => return forcedInline (← f.optional "class" Handle.decoder)
  | .constantReference => return constantReference (← f.required "reference" Handle.decoder)
  | .profiledReference => return profiledReference (← f.required "reference" Handle.decoder)

end Strategy

end Inlining
