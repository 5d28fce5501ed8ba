import SemanticCheck.Code.File

/-!
# What nodes are made of

A node has a kind and, by its kind, data and parts. Two questions are asked of the parts, each answered
kind by kind: which nodes are the children, in source order, and which nodes are told about the node
that was made around them.
-/

namespace SemanticCheck

inductive NodeKind where
  | file | imported | type | property | reference | function | method | program | parameter
  | relation | relationField | statement | elif | caught | expression | argument | typeIdentifier
  | typeExpr
  deriving DecidableEq, Repr

def NodeKind.text : NodeKind → String
  | file => "file"
  | imported => "import"
  | type => "type"
  | property => "property"
  | reference => "property reference"
  | function => "function"
  | method => "method"
  | program => "program"
  | parameter => "parameter"
  | relation => "relation"
  | relationField => "relation field"
  | statement => "statement"
  | elif => "elif"
  | caught => "catch"
  | expression => "expression"
  | argument => "argument"
  | typeIdentifier => "type identifier"
  | typeExpr => "type annotation"

/-- A node of whatever kind. -/
structure AnyNode (κ : NodeKind → Type) where
  kind : NodeKind
  node : κ kind

/-! ## Forms -/

inductive FileMemberForm (κ : NodeKind → Type) where
  | type (t : κ .type)
  | property (p : κ .property)
  | function (f : κ .function)
  | program (p : κ .program)
  | relation (r : κ .relation)

inductive TypeMemberForm (κ : NodeKind → Type) where
  | property (p : κ .property)
  | reference (r : κ .reference)
  | method (m : κ .method)

structure RoutineForm (κ : NodeKind → Type) where
  name : String
  result : κ .typeExpr
  params : List (κ .parameter)
  body : κ .statement

/-- The data and the parts of a node of each kind. -/
inductive Form (κ : NodeKind → Type) : NodeKind → Type where
  | file (namespaceName : QualifiedName) (imports : List (κ .imported))
      (members : List (FileMemberForm κ)) : Form κ .file
  | imported (package : QualifiedName) (target : ImportTarget) : Form κ .imported
  | type (name : String) (members : List (TypeMemberForm κ)) : Form κ .type
  | property (name : String) (type : κ .typeExpr) : Form κ .property
  | reference (name : String) : Form κ .reference
  | function (routine : RoutineForm κ) : Form κ .function
  | method (routine : RoutineForm κ) : Form κ .method
  | program (name param : String) (body : κ .statement) : Form κ .program
  | parameter (type : κ .typeExpr) (name : String) : Form κ .parameter
  | relation (name : String) (fields : List (κ .relationField)) : Form κ .relation
  | relationField (name : String) (target : κ .typeExpr) (cardinality : Cardinality) :
      Form κ .relationField
  | block (body : List (κ .statement)) : Form κ .statement
  | evaluation (value : κ .expression) : Form κ .statement
  | «variable» (name : String) (value : κ .expression) (written : Option (κ .typeExpr)) :
      Form κ .statement
  | conditional (condition : κ .expression) (thenBody : κ .statement) (elifs : List (κ .elif))
      (elseBody : Option (κ .statement)) : Form κ .statement
  | returns (value : Option (κ .expression)) : Form κ .statement
  | throws (value : κ .expression) : Form κ .statement
  | tryCatch (body : κ .statement) (catches : List (κ .caught)) : Form κ .statement
  | elif (condition : κ .expression) (body : κ .statement) : Form κ .elif
  | caught (type : κ .typeIdentifier) (name : String) (body : κ .statement) : Form κ .caught
  | literal (value : Literal) : Form κ .expression
  | name (name : String) : Form κ .expression
  | interpolation (parts : List (κ .expression)) : Form κ .expression
  | staticField (subject : κ .typeIdentifier) (field : String) : Form κ .expression
  | field (subject : κ .expression) (field : String) : Form κ .expression
  | methodCall (subject : κ .expression) (method : String) (args : List (κ .argument)) :
      Form κ .expression
  | call (callee : κ .expression) (args : List (κ .argument)) : Form κ .expression
  | index (array index : κ .expression) : Form κ .expression
  | creation (typeName : String) (args : List (κ .argument)) : Form κ .expression
  | negation (operand : κ .expression) : Form κ .expression
  | binary (op : BinaryOperator) (left right : κ .expression) : Form κ .expression
  | argument (name : Option String) (value : κ .expression) : Form κ .argument
  | typeIdentifier (package : Option QualifiedName) (name : String) : Form κ .typeIdentifier
  | primitive (name : String) : Form κ .typeExpr
  | typeReference (name : String) : Form κ .typeExpr
  | array (component : κ .typeExpr) : Form κ .typeExpr
  | void : Form κ .typeExpr

section

variable {κ : NodeKind → Type}

/-! ## Children -/

def FileMemberForm.node : FileMemberForm κ → AnyNode κ
  | type t => ⟨_, t⟩
  | property p => ⟨_, p⟩
  | function f => ⟨_, f⟩
  | program p => ⟨_, p⟩
  | relation r => ⟨_, r⟩

def TypeMemberForm.node : TypeMemberForm κ → AnyNode κ
  | property p => ⟨_, p⟩
  | reference r => ⟨_, r⟩
  | method m => ⟨_, m⟩

/-- Neighbouring nodes of one kind. -/
def nodesOf {k : NodeKind} (nodes : List (κ k)) : List (AnyNode κ) := nodes.map fun node => ⟨k, node⟩

def RoutineForm.children (r : RoutineForm κ) : List (AnyNode κ) :=
  ⟨_, r.result⟩ :: (nodesOf r.params ++ [⟨_, r.body⟩])

namespace Form

/-- The immediate children, in source order. -/
def children {k : NodeKind} : Form κ k → List (AnyNode κ)
  | file _ imports members => nodesOf imports ++ members.map (·.node)
  | imported .. | reference _ | typeIdentifier .. => []
  | type _ members => members.map (·.node)
  | property _ annotation => [⟨_, annotation⟩]
  | function routine | method routine => routine.children
  | program _ _ body => [⟨_, body⟩]
  | parameter annotation _ => [⟨_, annotation⟩]
  | relation _ fields => nodesOf fields
  | relationField _ target _ => [⟨_, target⟩]
  | block body => nodesOf body
  | evaluation value | throws value => [⟨_, value⟩]
  | «variable» _ value written => nodesOf written.toList ++ [⟨_, value⟩]
  | conditional condition thenBody elifs elseBody =>
    [⟨_, condition⟩, ⟨_, thenBody⟩] ++ nodesOf elifs ++ nodesOf elseBody.toList
  | returns value => nodesOf value.toList
  | tryCatch body catches => ⟨_, body⟩ :: nodesOf catches
  | elif condition body => [⟨_, condition⟩, ⟨_, body⟩]
  | caught exception _ body => [⟨_, exception⟩, ⟨_, body⟩]
  | literal _ | name _ => []
  | interpolation parts => nodesOf parts
  | staticField subject _ => [⟨_, subject⟩]
  | field subject _ => [⟨_, subject⟩]
  | methodCall subject _ args => ⟨_, subject⟩ :: nodesOf args
  | call callee args => ⟨_, callee⟩ :: nodesOf args
  | index subject place => [⟨_, subject⟩, ⟨_, place⟩]
  | creation _ args => nodesOf args
  | negation operand => [⟨_, operand⟩]
  | binary _ left right => [⟨_, left⟩, ⟨_, right⟩]
  | argument _ value => [⟨_, value⟩]
  | primitive _ | typeReference _ | void => []
  | array component => [⟨_, component⟩]

end Form

/-! ## Parts that are bound -/

section

variable (bind : ∀ {k}, κ k → Option (κ k))

def FileMemberForm.bindWith : FileMemberForm κ → Option (FileMemberForm κ)
  | type t => return type (← bind t)
  | property p => return property (← bind p)
  | function f => return function (← bind f)
  | program p => return program (← bind p)
  | relation r => return relation (← bind r)

def TypeMemberForm.bindWith : TypeMemberForm κ → Option (TypeMemberForm κ)
  | property p => return property (← bind p)
  | reference r => return reference (← bind r)
  | method m => return method (← bind m)

def RoutineForm.bindWith (r : RoutineForm κ) : Option (RoutineForm κ) := do
  let result ← bind r.result
  let params ← r.params.mapM bind
  let body ← bind r.body
  return { r with result, params, body }

/-- Binds each part that a node of the kind has, and fails where one of them cannot be bound. -/
def Form.bindParts {k : NodeKind} : Form κ k → Option (Form κ k)
  | file namespaceName imports members => do
    let imports ← imports.mapM bind
    let members ← members.mapM (·.bindWith bind)
    return file namespaceName imports members
  | type n members => return type n (← members.mapM (·.bindWith bind))
  | property n annotation => return property n (← bind annotation)
  | function routine => return function (← routine.bindWith bind)
  | method routine => return method (← routine.bindWith bind)
  | program n param body => return program n param (← bind body)
  | parameter annotation n => return parameter (← bind annotation) n
  | relation n fields => return relation n (← fields.mapM bind)
  | relationField n target cardinality => return relationField n (← bind target) cardinality
  | block body => return block (← body.mapM bind)
  | evaluation value => return evaluation (← bind value)
  | «variable» n value written => do
    let written ← written.mapM bind
    let value ← bind value
    return «variable» n value written
  | conditional condition thenBody elifs elseBody => do
    let condition ← bind condition
    let thenBody ← bind thenBody
    let elifs ← elifs.mapM bind
    let elseBody ← elseBody.mapM bind
    return conditional condition thenBody elifs elseBody
  | returns value => return returns (← value.mapM bind)
  | throws value => return throws (← bind value)
  | tryCatch body catches => do
    let body ← bind body
    let catches ← catches.mapM bind
    return tryCatch body catches
  | elif condition body => return elif (← bind condition) (← bind body)
  | caught exception n body => return caught (← bind exception) n (← bind body)
  | interpolation parts => return interpolation (← parts.mapM bind)
  | staticField subject n => return staticField (← bind subject) n
  | field subject n => return field (← bind subject) n
  | methodCall subject n args => do
    let subject ← bind subject
    let args ← args.mapM bind
    return methodCall subject n args
  | call callee args => do
    let callee ← bind callee
    let args ← args.mapM bind
    return call callee args
  | index subject place => return index (← bind subject) (← bind place)
  | creation typeName args => return creation typeName (← args.mapM bind)
  | negation operand => return negation (← bind operand)
  | binary op left right => return binary op (← bind left) (← bind right)
  | argument n value => return argument n (← bind value)
  | array component => return array (← bind component)
  | form@(imported ..) | form@(reference _) | form@(literal _) | form@(name _)
  | form@(typeIdentifier ..) | form@(primitive _) | form@(typeReference _) | form@void => some form

end

end

end SemanticCheck
