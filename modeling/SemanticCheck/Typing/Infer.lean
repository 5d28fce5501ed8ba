import SemanticCheck.Lookup.Scope
import SemanticCheck.Types.Env
import SemanticCheck.Typing.Error

/-!
# Types of expressions

The type of an expression depends on the scope of its file and the types of the local names. It is
computed from the parts of the expression, and the first part that has no type decides the failure.
-/

namespace SemanticCheck

abbrev Typed (α : Type) := Except TypingError α

namespace TypingError

def fail {α : Type} (e : TypeError) : Typed α := .error (.type e)

end TypingError

open TypingError (fail)

/-- A failed resolution, as the failure of an expression. -/
def resolved {α : Type} (r : Except ResolutionError α) : Typed α := r.mapError .resolution

def Literal.type : Literal → Ty
  | int _ => .int
  | double _ => .primitive .double
  | string _ => .string
  | bool _ => .boolean

/-! ## Operators -/

def incompatible (op : String) (left right : Ty) : Typed Ty :=
  fail (.incompatibleOperands op left.text right.text)

/-- A sum with a text on either side joins texts. Otherwise both sides are numbers. -/
def mathType (op : MathOperator) (left right : Ty) : Typed Ty :=
  if op == .sum && (left.isString || right.isString) && !left.isVoid && !right.isVoid then .ok .string
  else
    match left.primitive?, right.primitive? with
    | some l, some r =>
      match l.promote? r with
      | some p => .ok (.primitive p)
      | none => incompatible op.symbol left right
    | _, _ => incompatible op.symbol left right

def logicType (op : LogicOperator) (left right : Ty) : Typed Ty :=
  if left.isBoolean && right.isBoolean then .ok .boolean else incompatible op.symbol left right

/-- Numbers compare with numbers. Two other values can be equal when one fits where the other is
expected. -/
def relationalType (op : RelationalOperator) (left right : Ty) : Typed Ty :=
  if (left.isNumeric && right.isNumeric)
      || (op.isEquality && (left.assignableTo right || right.assignableTo left)) then
    .ok .boolean
  else incompatible op.symbol left right

def BinaryOperator.type : BinaryOperator → Ty → Ty → Typed Ty
  | math op => mathType op
  | logic op => logicType op
  | relational op => relationalType op

def negationType (operand : Ty) : Typed Ty :=
  if operand.isBoolean then .ok .boolean else fail (.notBoolean "operand of `not`" operand.text)

def componentOf (array : Ty) : Typed Ty :=
  match array.component? with
  | some component => .ok component
  | none => fail (.notAnArray array.text)

/-- An index is a primitive that widens to `int`. -/
def checkIndex (index : Ty) : Typed Unit :=
  if index.primitive?.any (·.widensTo .int) then .ok () else fail (.invalidArrayIndex index.text)

/-! ## Calls -/

/-- The result of calling a value. Only the number of arguments is looked at. -/
def invoke (name : String) (callee : Ty) (args : List Ty) : Typed Ty :=
  match callee.signature? with
  | some (params, result) =>
    if params.length = args.length then .ok result
    else fail (.wrongNumberOfArguments name params.length args.length)
  | none => fail (.notInvokable callee.text)

/-- A request for any method that shares the name of the given one. -/
def HostMethod.request (m : HostMethod) (args : List Ty) : MethodRequest :=
  if m.owner.isEmpty then .function m.name args else .onClass m.owner m.name args

namespace Scope

/-- The result of a call that the host answers. -/
def hostCall (s : Scope) (r : MethodRequest) : Typed Ty :=
  match s.chain.method r with
  | .ok m => .ok m.result
  | .error _ => fail (.unsolvedMethod r.text)

/-- A call of a method of the type itself. Types from source have no such methods. -/
def staticCall (s : Scope) (owner : TypeDef) (method : String) (args : List Ty) : Typed Ty :=
  match owner with
  | .source _ => fail (.unknownMethod method owner.qualifiedName)
  | .host c => s.hostCall (.onClass c.name method args)

/-- The declared type that a value of reference type belongs to. -/
def ownerOf (s : Scope) (name : String) : Typed TypeDef :=
  match s.chain.type? name with
  | some t => .ok t
  | none => fail (.notAType name)

/-- A call on a value of a type from source: one of its own methods, or one of the root. -/
def sourceCall (s : Scope) (owner : TypeDef) (method : String) (subject : Ty) (args : List Ty) :
    Typed Ty :=
  match (owner.methods method).head? with
  | some declared => do
    let (params, result) ← resolved (declared.signature s.chain)
    invoke declared.qualifiedName (.function params result) args
  | none =>
    match s.chain.method (.onInstance objectName method args) with
    | .ok m => .ok m.result
    | .error _ => fail (.unknownMethod method subject.text)

def instanceCall (s : Scope) (subject : Ty) (method : String) (args : List Ty) : Typed Ty :=
  match subject.referenceName? with
  | none => fail (.unknownMethod method subject.text)
  | some name => do
    let owner ← s.ownerOf name
    match owner with
    | .source _ => s.sourceCall owner method subject args
    | .host c => s.hostCall (.onInstance c.name method args)

/-- The type a type identifier names. -/
def identified (s : Scope) (t : TypeIdentifier) : Typed TypeDef :=
  match s.type? t.qualifiedName with
  | some found => .ok found
  | none => fail (.notAType t.qualifiedName)

/-- The type that a bare name stands for where no local hides it. -/
def staticSubject? (s : Scope) (env : TypeEnv) (subject : Expr) : Option TypeDef :=
  match subject.name? with
  | some name => if (env.lookup? name).isSome then none else (s.value? name).bind (·.type?)
  | none => none

/-- A call of something declared under a name: a type makes a value, a host method is chosen again
for these arguments, and an unknown name can only be a function of the host. -/
def namedCall (s : Scope) (name : String) (args : List Ty) : Typed Ty :=
  match s.value? name with
  | some (.type t) => .ok t.type
  | some (.host (.method m)) => s.hostCall (m.request args)
  | some symbol => do
    let callee ← resolved (symbol.typeIn s.chain)
    invoke name callee args
  | none => s.hostCall (.function name args)

/-- A call whose callee is not a value of its own: a method of a named type, or a declared name. -/
def directCall? (s : Scope) (env : TypeEnv) (args : List Ty) : Expr → Option (Typed Ty)
  | .staticField subject field _ => some do
    let owner ← s.identified subject
    s.staticCall owner field args
  | .name name _ => if (env.lookup? name).isSome then none else some (s.namedCall name args)
  | _ => none

/-! ## Names and fields -/

def valueType (s : Scope) (env : TypeEnv) (name : String) : Typed Ty :=
  match env.lookup? name with
  | some type => .ok type
  | none =>
    match s.value? name with
    | some symbol => resolved (symbol.typeIn s.chain)
    | none => fail (.unresolvedSymbol name)

def staticFieldType (s : Scope) (subject : TypeIdentifier) (field : String) : Typed Ty := do
  let owner ← s.identified subject
  match owner.staticFieldType? field with
  | some type => .ok type
  | none => fail (.unknownField field owner.qualifiedName)

def fieldType (s : Scope) (subject : Ty) (field : String) : Typed Ty :=
  match subject with
  | .reference name _ => do
    let owner ← s.ownerOf name
    match owner.fieldType? s.chain field with
    | some found => resolved found
    | none => fail (.unknownField field subject.text)
  | .array _ => if field = "length" then .ok .int else fail (.unknownField field subject.text)
  | _ => fail (.unknownField field subject.text)

def creationType (s : Scope) (typeName : String) : Typed Ty :=
  match s.type? typeName with
  | some t => .ok t.type
  | none => fail (.notAType typeName)

/-! ## Expressions -/

mutual

def typeOf (s : Scope) (env : TypeEnv) : Expr → Typed Ty
  | .literal value _ => .ok value.type
  | .name name _ => s.valueType env name
  | .interpolation parts _ => do
    let _ ← typesOf s env parts
    return .string
  | .staticField subject field _ => s.staticFieldType subject field
  | .field subject field _ => do
    let subjectType ← typeOf s env subject
    s.fieldType subjectType field
  | .methodCall subject method args _ => do
    let argTypes ← argumentTypes s env args
    match s.staticSubject? env subject with
    | some owner => s.staticCall owner method argTypes
    | none => do
      let subjectType ← typeOf s env subject
      s.instanceCall subjectType method argTypes
  | .call callee args _ => do
    let argTypes ← argumentTypes s env args
    match s.directCall? env argTypes callee with
    | some result => result
    | none => do
      let calleeType ← typeOf s env callee
      invoke calleeType.text calleeType argTypes
  | .index array index _ => do
    let arrayType ← typeOf s env array
    let component ← componentOf arrayType
    let indexType ← typeOf s env index
    checkIndex indexType
    return component
  | .creation typeName args _ => do
    let _ ← argumentTypes s env args
    s.creationType typeName
  | .negation operand _ => do
    let operandType ← typeOf s env operand
    negationType operandType
  | .binary op left right _ => do
    let leftType ← typeOf s env left
    let rightType ← typeOf s env right
    op.type leftType rightType

def typesOf (s : Scope) (env : TypeEnv) : List Expr → Typed (List Ty)
  | [] => .ok []
  | e :: rest => do
    let type ← typeOf s env e
    let types ← typesOf s env rest
    return type :: types

def argumentTypes (s : Scope) (env : TypeEnv) : List Argument → Typed (List Ty)
  | [] => .ok []
  | .mk _ value _ :: rest => do
    let type ← typeOf s env value
    let types ← argumentTypes s env rest
    return type :: types

end

end Scope

end SemanticCheck
