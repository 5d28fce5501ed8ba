import SemanticCheck.Text.Name

/-! # Operators and the symbols they are written with -/

namespace SemanticCheck

inductive MathOperator where
  | sum | subtraction | multiplication | division
  deriving DecidableEq, Repr

inductive LogicOperator where
  | and | or
  deriving DecidableEq, Repr

inductive RelationalOperator where
  | equal | different | less | lessOrEqual | greater | greaterOrEqual
  deriving DecidableEq, Repr

namespace MathOperator

def symbol : MathOperator → String
  | sum => "+"
  | subtraction => "-"
  | multiplication => "*"
  | division => "/"

def ofSymbol (symbol : String) : Except SourceError MathOperator :=
  match [sum, subtraction, multiplication, division].find? (·.symbol == symbol) with
  | some op => .ok op
  | none => .error (.unknownOperator symbol)

end MathOperator

namespace LogicOperator

def symbol : LogicOperator → String
  | and => "and"
  | or => "or"

def ofSymbol (symbol : String) : Except SourceError LogicOperator :=
  match [and, or].find? (·.symbol == symbol) with
  | some op => .ok op
  | none => .error (.unknownOperator symbol)

end LogicOperator

namespace RelationalOperator

def symbol : RelationalOperator → String
  | equal => "=="
  | different => "!="
  | less => "<"
  | lessOrEqual => "<="
  | greater => ">"
  | greaterOrEqual => ">="

/-- Equality is asked of any two comparable values, the order only of numbers. -/
def isEquality : RelationalOperator → Bool
  | equal | different => true
  | _ => false

def ofSymbol (symbol : String) : Except SourceError RelationalOperator :=
  match [equal, different, less, lessOrEqual, greater, greaterOrEqual].find? (·.symbol == symbol) with
  | some op => .ok op
  | none => .error (.unknownOperator symbol)

end RelationalOperator

end SemanticCheck
