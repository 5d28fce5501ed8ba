import SemanticCheck.Code.Stmt
import SemanticCheck.Code.Relation

/-!
# Files and what they declare

A declaration is known by its name in its context: the namespace of the file, or the type it is a
member of.
-/

namespace SemanticCheck

/-! ## Members of types -/

structure Property where
  name : String
  type : TypeExpr
  pos : Option Position
  deriving DecidableEq, Repr

/-- A property of the namespace, used as a member of a type. -/
structure PropertyReference where
  name : String
  pos : Option Position
  deriving DecidableEq, Repr

structure Parameter where
  type : TypeExpr
  name : String
  pos : Option Position
  deriving DecidableEq, Repr

/-- A function, or a method when it stands in a type. -/
structure Routine where
  name : String
  result : TypeExpr
  params : List Parameter
  body : Stmt
  pos : Option Position

inductive TypeMember where
  | property (p : Property)
  | reference (r : PropertyReference)
  | method (m : Routine)

namespace TypeMember

def name : TypeMember → String
  | property p => p.name
  | reference r => r.name
  | method m => m.name

def pos : TypeMember → Option Position
  | property p => p.pos
  | reference r => r.pos
  | method m => m.pos

def property? : TypeMember → Option Property
  | property p => some p
  | _ => none

def reference? : TypeMember → Option PropertyReference
  | reference r => some r
  | _ => none

def method? : TypeMember → Option Routine
  | method m => some m
  | _ => none

end TypeMember

structure TypeDefinition where
  name : String
  members : List TypeMember
  pos : Option Position

namespace TypeDefinition

def properties (t : TypeDefinition) : List Property := t.members.filterMap (·.property?)

def references (t : TypeDefinition) : List PropertyReference := t.members.filterMap (·.reference?)

def methods (t : TypeDefinition) : List Routine := t.members.filterMap (·.method?)

/-- The first method of a name. -/
def method? (t : TypeDefinition) (name : String) : Option Routine :=
  t.methods.find? (·.name == name)

end TypeDefinition

/-! ## Members of files -/

/-- An entry point, with the name its arguments have in the body. -/
structure Program where
  name : String
  param : String
  body : Stmt
  pos : Option Position

inductive Member where
  | type (t : TypeDefinition)
  | property (p : Property)
  | function (f : Routine)
  | program (p : Program)
  | relation (r : Relation)

namespace Member

def name : Member → String
  | type t => t.name
  | property p => p.name
  | function f => f.name
  | program p => p.name
  | relation r => r.name

def pos : Member → Option Position
  | type t => t.pos
  | property p => p.pos
  | function f => f.pos
  | program p => p.pos
  | relation r => r.pos

def type? : Member → Option TypeDefinition
  | type t => some t
  | _ => none

def property? : Member → Option Property
  | property p => some p
  | _ => none

def function? : Member → Option Routine
  | function f => some f
  | _ => none

def program? : Member → Option Program
  | program p => some p
  | _ => none

def relation? : Member → Option Relation
  | relation r => some r
  | _ => none

end Member

/-! ## Imports -/

inductive ImportTarget where
  | type (name : String) (localAlias : Option String)
  | field (type field : String) (localAlias : Option String)
  | all
  deriving DecidableEq, Repr

structure Import where
  package : QualifiedName
  target : ImportTarget
  pos : Option Position
  deriving DecidableEq, Repr

namespace Import

/-- The name an import makes visible; one of a whole package names nothing by itself. -/
def localName? (i : Import) : Option String :=
  match i.target with
  | .type name localAlias => some (localAlias.getD name)
  | .field _ field localAlias => some (localAlias.getD field)
  | .all => none

/-- The key of the imported declaration. -/
def targetName? (i : Import) : Option String :=
  match i.target with
  | .type name _ => some (qualify i.package.text name)
  | .field type field _ => some (i.package.text ++ "." ++ type ++ "." ++ field)
  | .all => none

end Import

/-! ## Files -/

structure SourceFile where
  namespaceName : QualifiedName
  imports : List Import
  members : List Member
  pos : Option Position

namespace SourceFile

/-- The context of everything the file declares at top level. -/
def context (f : SourceFile) : String := f.namespaceName.text

end SourceFile

end SemanticCheck
