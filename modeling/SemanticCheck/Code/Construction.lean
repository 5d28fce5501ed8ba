import SemanticCheck.Code.Made

/-!
# Making the nodes of a file

A file is made from the inside out: the parts of a node from left to right, then the node itself. Every
piece of a program becomes one node, at the position it has.
-/

namespace SemanticCheck

open Made (build)

def TypeExpr.make : TypeExpr → Maker (Made .typeExpr)
  | .primitive name pos => build (.primitive name) pos
  | .reference name pos => build (.typeReference name) pos
  | .array component pos => do build (.array (← component.make)) pos
  | .void pos => build .void pos

def TypeIdentifier.make (t : TypeIdentifier) : Maker (Made .typeIdentifier) :=
  build (.typeIdentifier t.package t.name) t.pos

mutual

def Expr.make : Expr → Maker (Made .expression)
  | .literal value pos => build (.literal value) pos
  | .name name pos => build (.name name) pos
  | .interpolation parts pos => do build (.interpolation (← Expr.makeAll parts)) pos
  | .staticField subject field pos => do build (.staticField (← subject.make) field) pos
  | .field subject field pos => do build (.field (← subject.make) field) pos
  | .methodCall subject method args pos => do
    build (.methodCall (← subject.make) method (← Argument.makeAll args)) pos
  | .call callee args pos => do build (.call (← callee.make) (← Argument.makeAll args)) pos
  | .index array index pos => do build (.index (← array.make) (← index.make)) pos
  | .creation typeName args pos => do build (.creation typeName (← Argument.makeAll args)) pos
  | .negation operand pos => do build (.negation (← operand.make)) pos
  | .binary op left right pos => do build (.binary op (← left.make) (← right.make)) pos

def Expr.makeAll : List Expr → Maker (List (Made .expression))
  | [] => return []
  | e :: rest => return (← e.make) :: (← Expr.makeAll rest)

def Argument.make : Argument → Maker (Made .argument)
  | .mk name value pos => do build (.argument name (← value.make)) pos

def Argument.makeAll : List Argument → Maker (List (Made .argument))
  | [] => return []
  | a :: rest => return (← a.make) :: (← Argument.makeAll rest)

end

mutual

def Stmt.make : Stmt → Maker (Made .statement)
  | .block body pos => do build (.block (← Stmt.makeAll body)) pos
  | .expression value pos => do build (.evaluation (← value.make)) pos
  | .variable name value written pos => do
    let written ← written.mapM (·.make)
    build (.variable name (← value.make) written) pos
  | .conditional condition thenBody elifs elseBody pos => do
    let condition ← condition.make
    let thenBody ← thenBody.make
    let elifs ← Elif.makeAll elifs
    let elseBody ← Stmt.makeOptional elseBody
    build (.conditional condition thenBody elifs elseBody) pos
  | .returns value pos => do build (.returns (← value.mapM (·.make))) pos
  | .throws value pos => do build (.throws (← value.make)) pos
  | .tryCatch body catches pos => do build (.tryCatch (← body.make) (← Catch.makeAll catches)) pos

def Stmt.makeAll : List Stmt → Maker (List (Made .statement))
  | [] => return []
  | s :: rest => return (← s.make) :: (← Stmt.makeAll rest)

def Stmt.makeOptional : Option Stmt → Maker (Option (Made .statement))
  | none => return none
  | some s => return some (← s.make)

def Elif.make : Elif → Maker (Made .elif)
  | .mk condition body pos => do build (.elif (← condition.make) (← body.make)) pos

def Elif.makeAll : List Elif → Maker (List (Made .elif))
  | [] => return []
  | e :: rest => return (← e.make) :: (← Elif.makeAll rest)

def Catch.make : Catch → Maker (Made .caught)
  | .mk type name body pos => do build (.caught (← type.make) name (← body.make)) pos

def Catch.makeAll : List Catch → Maker (List (Made .caught))
  | [] => return []
  | c :: rest => return (← c.make) :: (← Catch.makeAll rest)

end

def Parameter.make (p : Parameter) : Maker (Made .parameter) := do
  build (.parameter (← p.type.make) p.name) p.pos

def RelationField.make (f : RelationField) : Maker (Made .relationField) := do
  build (.relationField f.name (← f.target.make) f.cardinality) f.pos

def Routine.make (r : Routine) : Maker (RoutineForm Made) := do
  let result ← r.result.make
  let params ← r.params.mapM (·.make)
  let body ← r.body.make
  return ⟨r.name, result, params, body⟩

def Property.make (p : Property) : Maker (Made .property) := do
  build (.property p.name (← p.type.make)) p.pos

def TypeMember.make : TypeMember → Maker (TypeMemberForm Made)
  | .property p => return .property (← p.make)
  | .reference r => return .reference (← build (.reference r.name) r.pos)
  | .method m => do
    let routine ← m.make
    return .method (← build (.method routine) m.pos)

def Member.make : Member → Maker (FileMemberForm Made)
  | .type t => do
    let members ← t.members.mapM (·.make)
    return .type (← build (.type t.name members) t.pos)
  | .property p => return .property (← p.make)
  | .function f => do
    let routine ← f.make
    return .function (← build (.function routine) f.pos)
  | .program p => do
    let body ← p.body.make
    return .program (← build (.program p.name p.param body) p.pos)
  | .relation r => do
    let fields ← r.fields.mapM (·.make)
    return .relation (← build (.relation r.name fields) r.pos)

def Import.make (i : Import) : Maker (Made .imported) := build (.imported i.package i.target) i.pos

def SourceFile.make (f : SourceFile) : Maker (Made .file) := do
  let imports ← f.imports.mapM (·.make)
  let members ← f.members.mapM (·.make)
  build (.file f.namespaceName imports members) f.pos

end SemanticCheck
