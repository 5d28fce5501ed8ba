import SemanticCheck.Code.File
import SemanticCheck.Code.Tree

/-!
# Programs as trees of nodes

Everything a file is made of is a node. The children of a node stand in source order, and what is
reported about a file follows that order. A declaration among them knows its context, and one at top
level also its number among the members of its file.
-/

namespace SemanticCheck

/-- A member of a file, in its place. -/
structure Declaration where
  context : String
  number : Nat
  member : Member

/-- A member of a type, in its place. -/
structure OwnedMember where
  namespaceText : String
  owner : String
  member : TypeMember

inductive Node where
  | file (f : SourceFile)
  | imported (i : Import)
  | declaration (d : Declaration)
  | owned (m : OwnedMember)
  | parameter (p : Parameter)
  | relationField (f : RelationField)
  | statement (s : Stmt)
  | elif (e : Elif)
  | caught (c : Catch)
  | expression (e : Expr)
  | argument (a : Argument)
  | typeIdentifier (t : TypeIdentifier)
  | typeExpr (a : TypeExpr)

namespace Declaration

def name (d : Declaration) : String := d.member.name

def qualifiedName (d : Declaration) : String := qualify d.context d.member.name

end Declaration

namespace OwnedMember

def name (m : OwnedMember) : String := m.member.name

/-- A reference points at a property of the namespace, anything else belongs to the type. -/
def context (m : OwnedMember) : String :=
  match m.member with
  | .reference _ => m.namespaceText
  | _ => m.owner

def qualifiedName (m : OwnedMember) : String := qualify m.context m.member.name

end OwnedMember

namespace Node

def kind : Node → String
  | file _ => "file"
  | imported _ => "import"
  | declaration d =>
    match d.member with
    | .type _ => "type"
    | .property _ => "property"
    | .function _ => "function"
    | .program _ => "program"
    | .relation _ => "relation"
  | owned m =>
    match m.member with
    | .property _ => "property"
    | .reference _ => "property reference"
    | .method _ => "method"
  | parameter _ => "parameter"
  | relationField _ => "relation field"
  | statement _ => "statement"
  | elif _ => "elif"
  | caught _ => "catch"
  | expression _ => "expression"
  | argument _ => "argument"
  | typeIdentifier _ => "type identifier"
  | typeExpr _ => "type annotation"

def pos : Node → Option Position
  | file f => f.pos
  | imported i => i.pos
  | declaration d => d.member.pos
  | owned m => m.member.pos
  | parameter p => p.pos
  | relationField f => f.pos
  | statement s => s.pos
  | elif e => e.pos
  | caught c => c.pos
  | expression e => e.pos
  | argument a => a.pos
  | typeIdentifier t => t.pos
  | typeExpr a => a.pos

end Node

abbrev NodeTree := Tree Node

/-! ## The tree of each piece -/

def TypeExpr.tree : TypeExpr → NodeTree
  | a@(.array component _) => .node (.typeExpr a) [component.tree]
  | a => .node (.typeExpr a) []

def TypeIdentifier.tree (t : TypeIdentifier) : NodeTree := .node (.typeIdentifier t) []

mutual

def Expr.tree : Expr → NodeTree
  | e@(.literal ..) => .node (.expression e) []
  | e@(.name ..) => .node (.expression e) []
  | e@(.interpolation parts _) => .node (.expression e) (Expr.trees parts)
  | e@(.staticField subject _ _) => .node (.expression e) [subject.tree]
  | e@(.field subject _ _) => .node (.expression e) [subject.tree]
  | e@(.methodCall subject _ args _) => .node (.expression e) (subject.tree :: Argument.trees args)
  | e@(.call callee args _) => .node (.expression e) (callee.tree :: Argument.trees args)
  | e@(.index array index _) => .node (.expression e) [array.tree, index.tree]
  | e@(.creation _ args _) => .node (.expression e) (Argument.trees args)
  | e@(.negation operand _) => .node (.expression e) [operand.tree]
  | e@(.binary _ left right _) => .node (.expression e) [left.tree, right.tree]

def Expr.trees : List Expr → List NodeTree
  | [] => []
  | e :: rest => e.tree :: Expr.trees rest

def Argument.tree : Argument → NodeTree
  | a@(.mk _ value _) => .node (.argument a) [value.tree]

def Argument.trees : List Argument → List NodeTree
  | [] => []
  | a :: rest => a.tree :: Argument.trees rest

end

mutual

def Stmt.tree : Stmt → NodeTree
  | s@(.block body _) => .node (.statement s) (Stmt.trees body)
  | s@(.expression value _) => .node (.statement s) [value.tree]
  | s@(.variable _ value written _) =>
    .node (.statement s) (written.toList.map (·.tree) ++ [value.tree])
  | s@(.conditional condition thenBody elifs elseBody _) =>
    .node (.statement s)
      (condition.tree :: thenBody.tree :: (Elif.trees elifs ++ Stmt.optionTrees elseBody))
  | s@(.returns value _) => .node (.statement s) (value.toList.map (·.tree))
  | s@(.throws value _) => .node (.statement s) [value.tree]
  | s@(.tryCatch body catches _) => .node (.statement s) (body.tree :: Catch.trees catches)

def Stmt.trees : List Stmt → List NodeTree
  | [] => []
  | s :: rest => s.tree :: Stmt.trees rest

def Stmt.optionTrees : Option Stmt → List NodeTree
  | none => []
  | some s => [s.tree]

def Elif.tree : Elif → NodeTree
  | e@(.mk condition body _) => .node (.elif e) [condition.tree, body.tree]

def Elif.trees : List Elif → List NodeTree
  | [] => []
  | e :: rest => e.tree :: Elif.trees rest

def Catch.tree : Catch → NodeTree
  | c@(.mk type _ body _) => .node (.caught c) [type.tree, body.tree]

def Catch.trees : List Catch → List NodeTree
  | [] => []
  | c :: rest => c.tree :: Catch.trees rest

end

def Parameter.tree (p : Parameter) : NodeTree := .node (.parameter p) [p.type.tree]

def RelationField.tree (f : RelationField) : NodeTree := .node (.relationField f) [f.target.tree]

def Routine.parts (r : Routine) : List NodeTree :=
  r.result.tree :: (r.params.map (·.tree) ++ [r.body.tree])

def OwnedMember.tree (m : OwnedMember) : NodeTree :=
  .node (.owned m) <|
    match m.member with
    | .property p => [p.type.tree]
    | .reference _ => []
    | .method r => r.parts

def Declaration.tree (d : Declaration) : NodeTree :=
  .node (.declaration d) <|
    match d.member with
    | .type t => t.members.map fun m => (OwnedMember.mk d.context d.qualifiedName m).tree
    | .property p => [p.type.tree]
    | .function f => f.parts
    | .program p => [p.body.tree]
    | .relation r => r.fields.map (·.tree)

namespace SourceFile

/-- The members, each with its context and its number. -/
def declarations (f : SourceFile) : List Declaration :=
  f.members.zipIdx.map fun (m, n) => ⟨f.context, n, m⟩

def tree (f : SourceFile) : NodeTree :=
  .node (.file f) (f.imports.map (fun i => .node (.imported i) []) ++ f.declarations.map (·.tree))

/-- The preorder index of the member with the given number. -/
def memberIndex (f : SourceFile) (number : Nat) : Nat :=
  1 + f.imports.length + Tree.sizes ((f.declarations.take number).map (·.tree))

end SourceFile

/-! ## Marks -/

/-- What is attached to a node once it is made: where it was read, and the node around it. -/
structure NodeMark where
  pos : Option Position := none
  parent : Option Nat := none
  deriving DecidableEq, Repr

namespace NodeMark

/-- Attaches a position. A second one is refused. -/
def attach? (mark : NodeMark) (pos : Position) : Option NodeMark :=
  match mark.pos with
  | some _ => none
  | none => some { mark with pos := some pos }

/-- Records the node around. A second one is refused. -/
def bind? (mark : NodeMark) (parent : Nat) : Option NodeMark :=
  match mark.parent with
  | some _ => none
  | none => some { mark with parent := some parent }

end NodeMark

end SemanticCheck
