import SemanticCheck.Host.Class
import SemanticCheck.Lookup.Error

/-!
# The host table

The classes, free functions and packages of the platform, and the choice of a method for a call. The
arguments of a call only choose among methods of the right name and arity: when none of these accepts
them, the first one is taken.
-/

namespace SemanticCheck

/-- Classes stand with the latest added first, functions in the order they were added. -/
structure Host where
  classes : List HostClass := []
  functions : List HostMethod := []
  packages : List String := []
  deriving Repr

/-- A call to be answered by the platform. -/
structure MethodRequest where
  owner : Option String
  name : String
  args : List Ty
  isStatic : Bool
  deriving Repr

namespace MethodRequest

def function (name : String) (args : List Ty) : MethodRequest := ⟨none, name, args, true⟩

def onClass (owner name : String) (args : List Ty) : MethodRequest := ⟨some owner, name, args, true⟩

def onInstance (owner name : String) (args : List Ty) : MethodRequest :=
  ⟨some owner, name, args, false⟩

def text (r : MethodRequest) : String :=
  match r.owner with
  | some owner => qualify owner r.name
  | none => r.name

def unsolved (r : MethodRequest) : ResolutionError := .unsolvedMethod r.text

/-- Whether a method has the name and arity asked for, and is static where that is needed. -/
def matchedBy (r : MethodRequest) (m : HostMethod) : Bool :=
  m.name == r.name && m.arity == r.args.length && (!r.isStatic || m.isStatic)

/-- The first match that accepts the arguments, or else the first match. -/
def select (r : MethodRequest) (candidates : List HostMethod) : Except ResolutionError HostMethod :=
  let matching := candidates.filter r.matchedBy
  match (matching.find? (·.accepts r.args)).or matching.head? with
  | some m => .ok m
  | none => .error r.unsolved

end MethodRequest

/-- A member of a host class found by name. -/
inductive HostMember where
  | field (owner : String) (f : HostField)
  | method (m : HostMethod)
  deriving Repr

namespace HostMember

def name : HostMember → String
  | field _ f => f.name
  | method m => m.name

def qualifiedName : HostMember → String
  | field owner f => qualify owner f.name
  | method m => m.qualifiedName

def type : HostMember → Ty
  | field _ f => f.type
  | method m => m.type

end HostMember

namespace Host

def empty : Host := {}

/-- The packages that a run of segments opens one after the other, inside `outer`. -/
def packagesFrom (outer : String) : List String → List String
  | [] => []
  | segment :: rest => qualify outer segment :: packagesFrom (qualify outer segment) rest

def packagesOf (c : HostClass) : List String :=
  match c.package? with
  | some package => packagesFrom "" ((splitDots package.toList).map String.ofList)
  | none => []

/-- Adds a class and the packages around it. A class of the same name is replaced. -/
def addClass (host : Host) (c : HostClass) : Host :=
  { host with classes := c :: host.classes, packages := host.packages ++ packagesOf c }

def addFunction (host : Host) (name : String) (params : List Ty) (result : Ty) : Host :=
  { host with functions := host.functions ++ [⟨"", name, params, result, true⟩] }

def class? (host : Host) (name : String) : Option HostClass :=
  host.classes.find? (·.name == name)

def function? (host : Host) (name : String) : Option HostMethod :=
  host.functions.find? (·.name == name)

/-- A member by the name of its class, a dot and its own name; a field before a method. -/
def member? (host : Host) (name : String) : Option HostMember := do
  let (owner, simple) ← splitLastDot name
  let c ← host.class? owner
  match c.fields.find? (·.name == simple) with
  | some f => some (.field c.name f)
  | none => (c.methods.find? (·.name == simple)).map .method

def hasPackage (host : Host) (name : String) : Bool := host.packages.contains name

/-- The methods a call can reach: an instance also has those of its ancestors. -/
def visibleMethods (host : Host) (c : HostClass) (isStatic : Bool) : List HostMethod :=
  if isStatic then c.methods
  else c.methods ++ (c.ancestors.filterMap host.class?).flatMap (·.methods)

def method (host : Host) (r : MethodRequest) : Except ResolutionError HostMethod :=
  match r.owner with
  | none => r.select host.functions
  | some owner =>
    match host.class? owner with
    | some c => r.select (host.visibleMethods c r.isStatic)
    | none => .error r.unsolved

end Host

end SemanticCheck
