import SemanticCheck.Validation.Finding
import SemanticCheck.Validation.State

/-!
# What can be wrong with a node by itself

Each kind of node has its own check. A check looks at the node and at what the walk knows on entering it,
records what it finds and answers whether the node is in order; its children have checks of their own.
-/

namespace SemanticCheck

/-- Whether a node is in order, with what was recorded about it left in the state. -/
abbrev Check := StateM ValidationState Bool

def report (pos : Option Position) (finding : Finding) : Check := do
  modify fun st => { st with log := st.log.record pos finding.message }
  return false

/-- In order if the condition holds, reported otherwise. -/
def require (condition : Bool) (pos : Option Position) (finding : Finding) : Check :=
  if condition then return true else report pos finding

section Run

variable {α β : Type} (st : ValidationState)

@[simp] theorem run_pure (a : α) : (pure a : StateM ValidationState α) st = (a, st) := rfl

@[simp] theorem run_bind (c : StateM ValidationState α) (f : α → StateM ValidationState β) :
    (c >>= f) st = f (c st).1 (c st).2 := rfl

@[simp] theorem run_get : (get : StateM ValidationState ValidationState) st = (st, st) := rfl

@[simp] theorem run_modify (f : ValidationState → ValidationState) :
    (modify f : StateM ValidationState PUnit) st = ((), f st) := rfl

end Run

@[simp] theorem report_apply (pos : Option Position) (finding : Finding) (st : ValidationState) :
    report pos finding st = (false, { st with log := st.log.record pos finding.message }) := rfl

@[simp] theorem require_true (pos : Option Position) (finding : Finding) (st : ValidationState) :
    require true pos finding st = (true, st) := rfl

@[simp] theorem require_false (pos : Option Position) (finding : Finding) :
    require false pos finding = report pos finding := rfl

/-! ## Declarations -/

namespace Site

def checkImport (site : Site) (i : Import) : Check :=
  let key := i.targetName?.getD ""
  match i.target with
  | .all =>
    require (site.chain.hasPackage i.package.text) i.pos (.missingPackage i.package.text)
  | .type .. => require (site.chain.type? key).isSome i.pos (.missingType key)
  | .field .. => require (site.chain.symbol? key).isSome i.pos (.missingSymbol key)

/-- A name belongs to the declaration that a lookup finds for it. What stands inside a type has no
place of its own, so no name is found to be its. -/
def checkUnique (site : Site) (name : String) (place : Option Place) (pos : Option Position) : Check :=
  match (site.chain.symbol? name).bind (·.place?) with
  | some owner => require (some owner == place) pos (.duplicateDefinition name)
  | none => return true

/-- A name is taken by the first member of the type that has it. -/
def checkMember (name : String) (pos : Option Position) : Check := do
  match (← get).members with
  | none => return true
  | some seen =>
    if seen.names.contains name then report pos (.duplicateMember name seen.owner)
    else
      modify fun st => { st with members := some { seen with names := name :: seen.names } }
      return true

/-- A property of the namespace owns its name in the batch, any other one in its type. -/
def checkProperty (site : Site) (context name : String) (place : Option Place)
    (pos : Option Position) : Check :=
  if context = site.file.context then site.checkUnique (qualify context name) place pos
  else checkMember name pos

def checkReference (site : Site) (m : OwnedMember) : Check :=
  require (site.chain.property? m.qualifiedName).isSome m.member.pos
    (.missingProperty m.qualifiedName)

def checkRelation (r : Relation) : Check := require r.validArity r.pos .relationArity

/-- The component of an array is checked on its own. -/
def checkTypeExpr (site : Site) (a : TypeExpr) : Check :=
  match a with
  | .array .. => return true
  | a =>
    match site.scope.denote a with
    | .ok _ => return true
    | .error e => report a.pos (.unresolved e)

/-! ## Statements -/

/-- Whether values of a type can be thrown and caught. -/
def isThrowable : Ty → Bool
  | .reference name ancestors => Ty.isSubtype name ancestors Host.throwableName
  | _ => false

def checkCatch (site : Site) (c : Catch) : Check :=
  let name := c.type.qualifiedName
  match site.scope.type? name with
  | some t => require (isThrowable t.type) c.pos (.uncatchable t.qualifiedName)
  | none => report c.pos (.unknownException name)

/-- The type of an expression. One without a type is reported where it stands, or else where the
statement around it does. -/
def expressionType (site : Site) (e : Expr) (around : Option Position) :
    StateM ValidationState (Option Ty) := do
  match site.typeOf (← get).env e with
  | .ok type => return some type
  | .error error =>
    let _ ← report (e.pos.or around) (.untyped error)
    return none

/-- Goes on with the type of an expression, if it has one. -/
def checkTyped (site : Site) (e : Expr) (around : Option Position) (rule : Ty → Check) : Check := do
  match ← site.expressionType e around with
  | some type => rule type
  | none => return false

def checkCondition (site : Site) (condition : Expr) (keyword : String) (around : Option Position) :
    Check :=
  site.checkTyped condition around fun type =>
    require type.isBoolean (condition.pos.or around) (.notBoolean keyword type.text)

/-- A value fits a variable if it is no void and can be assigned to the annotated type. An annotation
that cannot be resolved is reported by itself. -/
def checkInitial (site : Site) (name : String) (written : Option TypeExpr) (pos : Option Position)
    (value : Ty) : Check :=
  if value.isVoid then report pos (.voidValue name)
  else
    match written.bind site.denoted? with
    | some declared =>
      require (value.assignableTo declared) pos (.unassignable value.text name declared.text)
    | none => return true

def checkReturned (expected : Option Ty) (pos : Option Position) (value : Ty) : Check :=
  match expected with
  | some .void => report pos .valueFromVoid
  | some expected =>
    require (value.assignableTo expected) pos (.unreturnable value.text expected.text)
  | none => return true

def checkBareReturn (expected : Option Ty) (pos : Option Position) : Check :=
  match expected with
  | some expected => require expected.isVoid pos (.missingValue expected.text)
  | none => return true

def checkThrown (pos : Option Position) (value : Ty) : Check :=
  require (isThrowable value) pos (.unthrowable value.text)

def checkStatement (site : Site) : Stmt → Check
  | .block .. | .tryCatch .. => return true
  | .expression value pos => site.checkTyped value pos fun _ => return true
  | .variable name value written pos =>
    site.checkTyped value pos (site.checkInitial name written pos)
  | .conditional condition _ _ _ pos => site.checkCondition condition "if" pos
  | .returns (some value) pos => do
    let expected := (← get).expected?
    site.checkTyped value pos (checkReturned expected pos)
  | .returns none pos => do
    let expected := (← get).expected?
    checkBareReturn expected pos
  | .throws value pos => site.checkTyped value pos (checkThrown pos)

/-! ## Nodes -/

def checkDeclaration (site : Site) (d : Declaration) : Check :=
  match d.member with
  | .relation r => checkRelation r
  | .property p => site.checkProperty d.context p.name (site.placeOf d) p.pos
  | member => site.checkUnique d.qualifiedName (site.placeOf d) member.pos

def checkOwned (site : Site) (m : OwnedMember) : Check :=
  match m.member with
  | .property p => site.checkProperty m.context p.name none p.pos
  | .reference r => do
    let fresh ← checkMember r.name r.pos
    let found ← site.checkReference m
    return fresh && found
  | .method r => checkMember r.name r.pos

def check (site : Site) : Node → Check
  | .imported i => site.checkImport i
  | .declaration d => site.checkDeclaration d
  | .owned m => site.checkOwned m
  | .statement s => site.checkStatement s
  | .elif e => site.checkCondition e.condition "elif" e.pos
  | .caught c => site.checkCatch c
  | .typeExpr a => site.checkTypeExpr a
  | .file _ | .parameter _ | .relationField _ | .expression _ | .argument _ | .typeIdentifier _ =>
    return true

end Site

end SemanticCheck
