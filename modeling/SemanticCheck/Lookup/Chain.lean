import SemanticCheck.Lookup.Batch
import SemanticCheck.Host.Table

/-!
# Chains of lookups

A batch is looked at first, then what stands behind it: another batch, the host platform, or nothing.
-/

namespace SemanticCheck

/-- A declared type, from source or from the host. -/
inductive TypeDef where
  | source (d : Declared TypeDefinition)
  | host (c : HostClass)

/-- What a name can stand for. -/
inductive Symbol where
  | type (t : TypeDef)
  | property (d : Declared Property)
  | function (d : Declared Routine)
  | program (d : Declared Program)
  | host (m : HostMember)
  | localName (name : String) (type : Ty)

namespace TypeDef

def name : TypeDef → String
  | source d => d.item.name
  | host c => c.simpleName

def qualifiedName : TypeDef → String
  | source d => qualify d.file.context d.item.name
  | host c => c.name

/-- A type from source stands directly below the root. -/
def type : TypeDef → Ty
  | t@(source _) => .reference t.qualifiedName [objectName]
  | host c => c.type

end TypeDef

namespace Symbol

def name : Symbol → String
  | type t => t.name
  | property d => d.item.name
  | function d => d.item.name
  | program d => d.item.name
  | host m => m.name
  | localName n _ => n

def qualifiedName : Symbol → String
  | type t => t.qualifiedName
  | property d => qualify d.file.context d.item.name
  | function d => qualify d.file.context d.item.name
  | program d => qualify d.file.context d.item.name
  | host m => m.qualifiedName
  | localName n _ => n

/-- Where the symbol is declared, for one from source. -/
def place? : Symbol → Option Place
  | type (.source d) => some d.place
  | property d => some d.place
  | function d => some d.place
  | program d => some d.place
  | _ => none

/-- The preorder index of the declaring node in its file, for a symbol from source. -/
def nodeIndex? : Symbol → Option Nat
  | type (.source d) => some d.nodeIndex
  | property d => some d.nodeIndex
  | function d => some d.nodeIndex
  | program d => some d.nodeIndex
  | _ => none

def type? : Symbol → Option TypeDef
  | type t => some t
  | _ => none

end Symbol

/-! ## One batch -/

/-- A type before a property, a property before a function, a function before a program. -/
def BatchIndex.symbol? (index : BatchIndex) (name : String) : Option Symbol :=
  ((index.types.lookup name).map (.type <| .source ·))
    |>.or ((index.properties.lookup name).map .property)
    |>.or ((index.functions.lookup name).map .function)
    |>.or ((index.programs.lookup name).map .program)

/-! ## Chains -/

inductive Chain where
  | nothing
  | emptyHost
  | host (h : Host)
  /-- Whether packages are also looked for behind the batch is up to it. -/
  | source (batch : Batch) (delegatesPackages : Bool) (outer : Chain)

namespace Chain

/-- What stands behind the first link. -/
def outer : Chain → Chain
  | source _ _ outer => outer
  | _ => nothing

def isNothing : Chain → Bool
  | nothing => true
  | _ => false

/-- The chain from its `n`-th link on. -/
def link : Nat → Chain → Chain
  | 0, chain => chain
  | n + 1, chain => link n chain.outer

def type? : Chain → String → Option TypeDef
  | nothing, _ | emptyHost, _ => none
  | host h, name => (h.class? name).map .host
  | source batch _ outer, name =>
    match batch.index.types.lookup name with
    | some d => some (.source d)
    | none => outer.type? name

/-- The property at top level with the given key. Hosts have none. -/
def property? : Chain → String → Option (Declared Property)
  | nothing, _ | emptyHost, _ | host _, _ => none
  | source batch _ outer, name =>
    match batch.index.properties.lookup name with
    | some d => some d
    | none => outer.property? name

def symbol? : Chain → String → Option Symbol
  | nothing, _ | emptyHost, _ => none
  | host h, name =>
    match h.class? name with
    | some c => some (.type (.host c))
    | none =>
      match h.function? name with
      | some f => some (.host (.method f))
      | none => (h.member? name).map .host
  | source batch _ outer, name =>
    match batch.index.symbol? name with
    | some s => some s
    | none => outer.symbol? name

/-- The method for a call. Only a host has any. -/
def method : Chain → MethodRequest → Except ResolutionError HostMethod
  | nothing, r | emptyHost, r => .error r.unsolved
  | host h, r => h.method r
  | source _ _ outer, r => outer.method r

def hasPackage : Chain → String → Bool
  | nothing, _ | emptyHost, _ => false
  | host h, name => h.hasPackage name
  | source batch delegates outer, name =>
    batch.index.packages.contains name || (delegates && outer.hasPackage name)

/-- A one-line summary of a batch at the front. -/
def summary : Chain → String
  | source batch _ outer =>
    let index := batch.index
    "SrcSymbolResolver \x7b types: " ++ toString index.types.length
      ++ ", properties: " ++ toString index.properties.length
      ++ ", functions: " ++ toString index.functions.length
      ++ ", programs: " ++ toString index.programs.length
      ++ ", has_outer: " ++ toString (!outer.isNothing) ++ " \x7d"
  | _ => ""

end Chain

end SemanticCheck
