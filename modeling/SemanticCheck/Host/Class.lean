import SemanticCheck.Text.Name
import SemanticCheck.Types.Ty

/-!
# Classes of the host platform

What the platform provides is described, not declared: a class has a name, the names of its ancestors
from the nearest up, fields and methods. A method without an owner is a free function.
-/

namespace SemanticCheck

structure HostField where
  name : String
  type : Ty
  isStatic : Bool
  deriving Repr

structure HostMethod where
  owner : String
  name : String
  params : List Ty
  result : Ty
  isStatic : Bool
  deriving Repr

structure HostClass where
  name : String
  ancestors : List String
  fields : List HostField
  methods : List HostMethod
  deriving Repr

namespace HostMethod

def arity (m : HostMethod) : Nat := m.params.length

/-- Whether each argument may be stored in the parameter of the same place. -/
def accepts (m : HostMethod) (args : List Ty) : Bool :=
  m.arity == args.length && (args.zip m.params).all fun (arg, param) => arg.assignableTo param

def type (m : HostMethod) : Ty := .function m.params m.result

def qualifiedName (m : HostMethod) : String := qualify m.owner m.name

end HostMethod

namespace HostClass

/-- A class with nothing but the root above it. -/
def ofName (name : String) : HostClass :=
  ⟨name, if name = objectName then [] else [objectName], [], []⟩

/-- Puts these ancestors before the ones already known. -/
def extending (c : HostClass) (ancestors : List String) : HostClass :=
  { c with ancestors := ancestors ++ c.ancestors.filter (!ancestors.contains ·) }

def withField (c : HostClass) (name : String) (type : Ty) (isStatic : Bool) : HostClass :=
  { c with fields := c.fields ++ [⟨name, type, isStatic⟩] }

def withMethod (c : HostClass) (name : String) (params : List Ty) (result : Ty) (isStatic : Bool) :
    HostClass :=
  { c with methods := c.methods ++ [⟨c.name, name, params, result, isStatic⟩] }

/-- The name after the last dot. -/
def simpleName (c : HostClass) : String :=
  match splitLastDot c.name with
  | some (_, last) => last
  | none => c.name

/-- What stands before the last dot of the name. -/
def package? (c : HostClass) : Option String := (splitLastDot c.name).map (·.1)

def type (c : HostClass) : Ty := .reference c.name c.ancestors

end HostClass

end SemanticCheck
