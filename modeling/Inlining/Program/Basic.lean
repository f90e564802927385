import Inlining.Fault
import Inlining.Json.Reader
import Inlining.Program.Hierarchy

/-!
# Programs

A program is a description that passed `Description.check`: nothing is declared twice, every
handle in it names something, and no class inherits from itself. The check stops at the first
fault, in the order classes, methods, calls, references. The rest of the module are the
queries of an exploration about method bodies.
-/

namespace Inlining

/-- Accepts if the condition holds. -/
def demand {ε : Type} (condition : Bool) (fault : ε) : Except ε Unit :=
  if condition then .ok () else .error fault

theorem demand_eq_ok {ε : Type} {condition : Bool} {fault : ε} :
    demand condition fault = .ok () ↔ condition = true := by
  cases condition <;> simp [demand]

namespace Description

variable (d : Description)

/-- No class is declared twice; `earlier` are the classes before. -/
def checkDistinct (earlier : List ClassId) : List ClassDecl → Except DescriptionFault Unit
  | [] => .ok ()
  | c :: rest => do
    demand (!earlier.contains c.id) (.classTwice c.id)
    checkDistinct (c.id :: earlier) rest

/-- The parents of a class are declared, and the way up does not return. -/
def checkClass (c : ClassDecl) : Except DescriptionFault Unit := do
  c.parents.forM fun parent => demand (d.class? parent).isSome (.unknownClass parent)
  demand (d.superclassChain c.id).Nodup (.inheritanceCycle c.id)

/-- The class of a method is declared, and no earlier method has its slot or its handle. -/
def checkMethods (earlier : List MethodDecl) : List MethodDecl → Except DescriptionFault Unit
  | [] => .ok ()
  | m :: rest => do
    demand (d.class? m.declaringClass).isSome (.unknownClass m.declaringClass)
    match m.slot with
    | none => pure ()
    | some slot =>
      demand (!earlier.any fun e => e.declaringClass == m.declaringClass && e.slot == some slot)
        (.slotTwice m.declaringClass slot)
    demand (!earlier.any (·.id == m.id)) (.methodTwice m.id)
    checkMethods (m :: earlier) rest

/-- What a call names is declared, and a call that is not by method reference names a method. -/
def checkCall (caller : MethodId) (call : CallDecl) : Except DescriptionFault Unit := do
  call.method.toList.forM fun m => demand (d.method? m).isSome (.unknownMethod m)
  call.receiverClass.toList.forM fun c => demand (d.class? c).isSome (.unknownClass c)
  call.methodRef.toList.forM fun r =>
    demand (d.references.any (·.id == r)) (.unknownReference r)
  demand (call.shape == .functionPointer || call.method.isSome)
    (.undeclaredCall caller call.index)

/-- The method behind a method reference; a later entry replaces an earlier one. -/
def methodBehind? (r : MethodRefId) : Option MethodId :=
  (d.references.findRev? (·.id == r)).map (·.method)

/-- The method behind a method reference is declared. -/
def checkReference (r : MethodRefId) : Except DescriptionFault Unit :=
  (d.methodBehind? r).toList.forM fun m =>
    demand (d.method? m).isSome (.danglingReference r m)

/-- Finds the first fault of a description. -/
def check : Except DescriptionFault Unit := do
  checkDistinct [] d.classes
  d.classes.forM d.checkClass
  d.checkMethods [] d.methods
  d.methods.forM fun m => m.calls.forM (d.checkCall m.id)
  d.references.forM fun r => d.checkReference r.id

end Description

/-- A description without faults. -/
structure Program extends Description where
  accepted : toDescription.check = .ok ()

namespace Program

/-- Makes a program of a description, or says why not. -/
def ofDescription (d : Description) : Except DescriptionFault Program :=
  match h : d.check with
  | .ok () => .ok ⟨d, h⟩
  | .error fault => .error fault

/-- Makes a program of the description in a JSON text. -/
def ofText (text : String) : Except DescriptionFault Program :=
  match Description.ofText? text with
  | none => .error .invalidJson
  | some d => ofDescription d

end Program

/-- A call as an exploration meets it. -/
structure CallInstruction where
  shape : CallShape
  position : BytecodePosition := {}
  location : TreeLocation := {}
  block : BlockId := ⟨0⟩
  declaredMethod : Option MethodId := none
  declaredSymbol : Option SymbolId := none
  receiverClass : Option ClassId := none
  slot : Int := -1
  poolIndex : Int := -1
  methodRef : Option MethodRefId := none
  facts : Option ArgumentFacts := none
  forceInline : Bool := false
  backEdge : Bool := false
  allConstants : Bool := false
deriving DecidableEq

namespace Description

variable (d : Description)

def classOf? (m : MethodId) : Option ClassId := (d.method? m).map (·.declaringClass)

/-- How a method is invoked; an undeclared one counts as virtual. -/
def kindOf (m : MethodId) : MethodKind := ((d.method? m).map (·.kind)).getD .virtual

def methodName? (m : MethodId) : Option String := (d.method? m).map (·.name)

def className? (c : ClassId) : Option String := (d.class? c).map (·.name)

def sizeOf? (m : MethodId) : Option Size := (d.method? m).map (·.size)

/-- The method has a body that may be inlined. -/
def isInlinable (m : MethodId) : Bool :=
  (d.method? m).any fun decl => decl.inlinable && !decl.isAbstract

def foldsOf (m : MethodId) : List SpeculativeFold := ((d.method? m).map (·.folds)).getD []

def blockCount (m : MethodId) : Nat := ((d.method? m).map (·.blocks.length)).getD 0

/-- The facts about a block; a block that is not described is in no loop and always reached. -/
def blockFacts (m : MethodId) (b : BlockId) : BlockFacts :=
  ((d.method? m).bind (·.blocks[b.index]?)).getD { inLoop := false, alwaysReached := true }

/-- A described call as an exploration meets it. Slot and symbol come from the declared
method where the call does not say. -/
def instruction (call : CallDecl) : CallInstruction :=
  let declared := call.method.bind d.method?
  { shape := call.shape
    position := { index := call.index }
    location := { treeTop := call.treeTop, callNode := call.node }
    block := call.block
    declaredMethod := call.method
    declaredSymbol := declared.bind (·.symbol)
    receiverClass := call.receiverClass
    slot := (call.slot.or (declared.bind (·.slot))).getD (-1)
    methodRef := call.methodRef
    facts := call.receiverFact.map fun fact => [some fact]
    forceInline := call.forceInline
    backEdge := call.backEdge
    allConstants := call.allConstants }

/-- The calls in the body of a method. -/
def instructionsOf (m : MethodId) : List CallInstruction :=
  ((d.method? m).map fun decl => decl.calls.map d.instruction).getD []

/-- The profile of the call at a bytecode index; a later one replaces an earlier one. -/
def profileOf? (m : MethodId) (index : Int) : Option CallProfile := do
  let decl ← d.method? m
  let profile ← decl.profiles.findRev? (·.index == index)
  return .ofCounts profile.receivers profile.references

/-- The first method with the given name, either its own or behind that of its class and a
point. -/
def methodNamed? (name : String) : Option MethodId :=
  (d.methods.find? fun m =>
    m.name == name ||
      ((d.class? m.declaringClass).any fun c => c.name ++ "." ++ m.name == name)).map (·.id)

/-- A method as reports show it: its name behind that of its class. -/
def signatureOf (m : MethodId) : String :=
  let name := (d.methodName? m).getD m.text
  match (d.classOf? m).bind d.className? with
  | none => name
  | some c => c ++ "." ++ name

end Description

end Inlining
