import SemanticCheck.Lookup.Chain
import SemanticCheck.Host.JavaLang

/-!
# Names as a file reads them

A name written in a file stands for the first of its candidates that the chain knows: what an import
names explicitly, then the file's own namespace, then the bare name, then whole imported packages and
last the implicit package.
-/

namespace SemanticCheck

/-- A file, and the chain its names are looked up in. -/
structure Scope where
  chain : Chain
  file : SourceFile

/-- A list without the later copies of an element. -/
def firstOccurrences : List String → List String
  | [] => []
  | x :: rest => x :: (firstOccurrences rest).filter (· != x)

namespace Import

/-- The key an explicit import gives a name. A field is no type. -/
def explicitTarget? (i : Import) (name : String) (typesOnly : Bool) : Option String :=
  let counts :=
    match i.target with
    | .type .. => true
    | .field .. => !typesOnly
    | .all => false
  if counts && i.localName? == some name then i.targetName? else none

/-- The key a name has in a package that is imported whole. -/
def wildcardTarget? (i : Import) (name : String) : Option String :=
  match i.target with
  | .all => some (qualify i.package.text name)
  | _ => none

end Import

namespace SourceFile

/-- The keys a name may stand for, the most specific first. -/
def candidates (f : SourceFile) (name : String) (typesOnly : Bool) : List String :=
  firstOccurrences <|
    (if hasDot name then [name] else [])
      ++ f.imports.filterMap (·.explicitTarget? name typesOnly)
      ++ [qualify f.context name, name]
      ++ f.imports.filterMap (·.wildcardTarget? name)
      ++ [qualify Host.implicitPackage name]

end SourceFile

namespace Scope

def type? (s : Scope) (name : String) : Option TypeDef :=
  (s.file.candidates name true).findSome? s.chain.type?

def value? (s : Scope) (name : String) : Option Symbol :=
  (s.file.candidates name false).findSome? s.chain.symbol?

/-- The type an annotation stands for. -/
def denote (s : Scope) : TypeExpr → Except ResolutionError Ty
  | .primitive name _ =>
    match Primitive.ofName? name with
    | some p => .ok (.primitive p)
    | none => if name = "string" then .ok .string else .error (.unknownPrimitive name)
  | .reference name _ =>
    match s.type? name with
    | some t => .ok t.type
    | none => .error (.unknownType name)
  | .array component _ => (s.denote component).map .array
  | .void _ => .ok .void

/-- Parameters and result of a routine. The first annotation that fails decides, parameters first. -/
def signature (s : Scope) (r : Routine) : Except ResolutionError (List Ty × Ty) := do
  let params ← r.params.mapM fun p => s.denote p.type
  let result ← s.denote r.result
  return (params, result)

end Scope

/-! ## Types of what is found -/

def Declared.scope {α : Type} (d : Declared α) (chain : Chain) : Scope := ⟨chain, d.file⟩

/-- The type of a symbol. Annotations are read in the file that declares it. -/
def Symbol.typeIn (chain : Chain) : Symbol → Except ResolutionError Ty
  | .type t => .ok t.type
  | .property d => (d.scope chain).denote d.item.type
  | .function d => ((d.scope chain).signature d.item).map fun (params, result) => .function params result
  | .program _ => .ok (.function [.array .string] .void)
  | .host m => .ok m.type
  | .localName _ ty => .ok ty

/-- A method of a declared type. -/
inductive MethodDef where
  | source (d : Declared TypeDefinition) (m : Routine)
  | host (m : HostMethod)

namespace MethodDef

def name : MethodDef → String
  | source _ m => m.name
  | host m => m.name

def qualifiedName : MethodDef → String
  | source d m => qualify (TypeDef.source d).qualifiedName m.name
  | host m => m.qualifiedName

def signature (chain : Chain) : MethodDef → Except ResolutionError (List Ty × Ty)
  | source d m => (d.scope chain).signature m
  | host m => .ok (m.params, m.result)

end MethodDef

namespace TypeDef

/-- The type of an instance field. In source, a property of the type before one it refers to. -/
def fieldType? (chain : Chain) (field : String) : TypeDef → Option (Except ResolutionError Ty)
  | source d =>
    match d.item.properties.find? (·.name == field) with
    | some p => some ((d.scope chain).denote p.type)
    | none =>
      (d.item.references.find? (·.name == field)).map fun r =>
        let key := qualify d.file.context r.name
        match chain.property? key with
        | some p => (Symbol.property p).typeIn chain
        | none => .error (.unresolvedProperty key)
  | host c => (c.fields.find? fun f => f.name == field && !f.isStatic).map fun f => .ok f.type

/-- The type of a static field. Types from source have none. -/
def staticFieldType? (field : String) : TypeDef → Option Ty
  | source _ => none
  | host c => (c.fields.find? fun f => f.name == field && f.isStatic).map (·.type)

/-- The methods of a name, in declaration order. -/
def methods (name : String) : TypeDef → List MethodDef
  | source d => (d.item.methods.filter (·.name == name)).map (.source d)
  | host c => (c.methods.filter (·.name == name)).map .host

end TypeDef

end SemanticCheck
