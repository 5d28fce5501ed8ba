import SemanticCheck.Lookup.Error

/-! # Why an expression has no type -/

namespace SemanticCheck

/-- Types stand in these causes as they are shown. -/
inductive TypeError where
  | notAnArray (found : String)
  | invalidArrayIndex (found : String)
  | incompatibleOperands (op left right : String)
  | notBoolean (context found : String)
  | notInvokable (found : String)
  | unresolvedSymbol (name : String)
  | notAType (name : String)
  | unknownField (field type : String)
  | unknownMethod (method type : String)
  | unsolvedMethod (name : String)
  | wrongNumberOfArguments (name : String) (expected found : Nat)
  | voidValue (name : String)
  deriving DecidableEq, Repr

namespace TypeError

def message : TypeError → String
  | notAnArray found => s!"Array access on a value of type `{found}`, which is not an array"
  | invalidArrayIndex found => s!"Array index must be an integer, found `{found}`"
  | incompatibleOperands op left right => s!"Operator `{op}` cannot be applied to `{left}` and `{right}`"
  | notBoolean context found => s!"Expected a boolean {context}, found `{found}`"
  | notInvokable found => s!"Value of type `{found}` cannot be invoked"
  | unresolvedSymbol name => s!"Unresolved symbol `{name}`"
  | notAType name => s!"`{name}` is not a type"
  | unknownField field type => s!"Type `{type}` has no field `{field}`"
  | unknownMethod method type => s!"Type `{type}` has no method `{method}`"
  | unsolvedMethod name => s!"Unsolved method `{name}`"
  | wrongNumberOfArguments name expected found => s!"`{name}` expects {expected} arguments, found {found}"
  | voidValue name => s!"`{name}` has type void and cannot be used as a value"

def code : TypeError → String
  | notAnArray .. => "turin_types::not_an_array"
  | invalidArrayIndex .. => "turin_types::invalid_array_index"
  | incompatibleOperands .. => "turin_types::incompatible_operands"
  | notBoolean .. => "turin_types::not_boolean"
  | notInvokable .. => "turin_types::not_invokable"
  | unresolvedSymbol .. => "turin_types::unresolved_symbol"
  | notAType .. => "turin_types::not_a_type"
  | unknownField .. => "turin_types::unknown_field"
  | unknownMethod .. => "turin_types::unknown_method"
  | unsolvedMethod .. => "turin_types::unsolved_method"
  | wrongNumberOfArguments .. => "turin_types::wrong_number_of_arguments"
  | voidValue .. => "turin_types::void_value"

def help? : TypeError → Option String
  | unresolvedSymbol _ => some "Check that the name is declared or imported"
  | _ => none

end TypeError

/-- An expression fails by itself, or because something it uses cannot be resolved. -/
inductive TypingError where
  | type (e : TypeError)
  | resolution (e : ResolutionError)
  deriving DecidableEq, Repr

def TypingError.message : TypingError → String
  | type e => e.message
  | resolution e => e.message

end SemanticCheck
