import SemanticCheck.Text.Position
import SemanticCheck.Text.Operator

/-!
# Types and expressions as written

Every piece of a program may carry the position it was read from.
-/

namespace SemanticCheck

/-! ## Written types -/

/-- A type as written, before its names are looked up. -/
inductive TypeExpr where
  | primitive (name : String) (pos : Option Position)
  | reference (name : String) (pos : Option Position)
  | array (component : TypeExpr) (pos : Option Position)
  | void (pos : Option Position)
  deriving DecidableEq, Repr

namespace TypeExpr

def pos : TypeExpr → Option Position
  | primitive _ pos | reference _ pos | array _ pos | void pos => pos

def isVoid : TypeExpr → Bool
  | void _ => true
  | _ => false

def text : TypeExpr → String
  | primitive name _ | reference name _ => name
  | array component _ => component.text ++ "[]"
  | void _ => "void"

end TypeExpr

/-- A type named where a value is expected, such as the owner of a static field. -/
structure TypeIdentifier where
  package : Option QualifiedName
  name : String
  pos : Option Position
  deriving DecidableEq, Repr

def TypeIdentifier.qualifiedName (t : TypeIdentifier) : String :=
  match t.package with
  | some package => package.text ++ "." ++ t.name
  | none => t.name

/-! ## Expressions -/

inductive Literal where
  | int (value : Int)
  | double (value : Float)
  | string (value : String)
  | bool (value : Bool)
  deriving Repr

inductive BinaryOperator where
  | math (op : MathOperator)
  | logic (op : LogicOperator)
  | relational (op : RelationalOperator)
  deriving DecidableEq, Repr

mutual

inductive Expr where
  | literal (value : Literal) (pos : Option Position)
  /-- A bare name: a local, or a declaration. -/
  | name (name : String) (pos : Option Position)
  /-- A text with expressions in it. -/
  | interpolation (parts : List Expr) (pos : Option Position)
  | staticField (subject : TypeIdentifier) (field : String) (pos : Option Position)
  | field (subject : Expr) (field : String) (pos : Option Position)
  | methodCall (subject : Expr) (method : String) (args : List Argument) (pos : Option Position)
  | call (callee : Expr) (args : List Argument) (pos : Option Position)
  | index (array : Expr) (index : Expr) (pos : Option Position)
  | creation (typeName : String) (args : List Argument) (pos : Option Position)
  | negation (operand : Expr) (pos : Option Position)
  | binary (op : BinaryOperator) (left right : Expr) (pos : Option Position)

inductive Argument where
  | mk (name : Option String) (value : Expr) (pos : Option Position)

end

namespace Expr

def pos : Expr → Option Position
  | literal _ pos | name _ pos | interpolation _ pos | staticField _ _ pos | field _ _ pos
  | methodCall _ _ _ pos | call _ _ pos | index _ _ pos | creation _ _ pos | negation _ pos
  | binary _ _ _ pos => pos

/-- The name a bare reference consists of. -/
def name? : Expr → Option String
  | name n _ => some n
  | _ => none

end Expr

namespace Argument

def name : Argument → Option String
  | mk name _ _ => name

def value : Argument → Expr
  | mk _ value _ => value

def pos : Argument → Option Position
  | mk _ _ pos => pos

end Argument

end SemanticCheck
