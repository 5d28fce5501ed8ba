import SemanticCheck.Code.Expr

/-! # Statements -/

namespace SemanticCheck

mutual

inductive Stmt where
  | block (body : List Stmt) (pos : Option Position)
  | expression (value : Expr) (pos : Option Position)
  | variable (name : String) (value : Expr) (written : Option TypeExpr) (pos : Option Position)
  | conditional (condition : Expr) (thenBody : Stmt) (elifs : List Elif) (elseBody : Option Stmt)
      (pos : Option Position)
  | returns (value : Option Expr) (pos : Option Position)
  | throws (value : Expr) (pos : Option Position)
  | tryCatch (body : Stmt) (catches : List Catch) (pos : Option Position)

inductive Elif where
  | mk (condition : Expr) (body : Stmt) (pos : Option Position)

inductive Catch where
  | mk (type : TypeIdentifier) (name : String) (body : Stmt) (pos : Option Position)

end

def Stmt.pos : Stmt → Option Position
  | block _ pos | expression _ pos | «variable» _ _ _ pos | conditional _ _ _ _ pos | returns _ pos
  | throws _ pos | tryCatch _ _ pos => pos

namespace Elif

def condition : Elif → Expr
  | mk condition _ _ => condition

def body : Elif → Stmt
  | mk _ body _ => body

def pos : Elif → Option Position
  | mk _ _ pos => pos

end Elif

namespace Catch

def type : Catch → TypeIdentifier
  | mk type _ _ _ => type

/-- The name the caught value has in the body. -/
def name : Catch → String
  | mk _ name _ _ => name

def body : Catch → Stmt
  | mk _ _ body _ => body

def pos : Catch → Option Position
  | mk _ _ _ pos => pos

end Catch

end SemanticCheck
