import SemanticCheck.Host.JavaLang
import SemanticCheck.Typing.Error

/-! # What validation can find wrong -/

namespace SemanticCheck

/-- Types stand in these causes as they are shown. -/
inductive Finding where
  | missingPackage (name : String)
  | missingType (name : String)
  | missingSymbol (name : String)
  | missingProperty (name : String)
  | duplicateDefinition (name : String)
  | duplicateMember (name owner : String)
  | relationArity
  | unresolved (e : ResolutionError)
  | untyped (e : TypingError)
  | notBoolean (keyword found : String)
  | voidValue (name : String)
  | unassignable (value name declared : String)
  | valueFromVoid
  | unreturnable (value expected : String)
  | missingValue (expected : String)
  | unthrowable (value : String)
  | unknownException (name : String)
  | uncatchable (name : String)
  deriving DecidableEq, Repr

def Finding.message : Finding → String
  | missingPackage name => s!"Package `{name}` does not exist"
  | missingType name => s!"Cannot find type `{name}`"
  | missingSymbol name => s!"Cannot find `{name}`"
  | missingProperty name => s!"Cannot find property `{name}`"
  | duplicateDefinition name => s!"Duplicate definition of `{name}`"
  | duplicateMember name owner => s!"Duplicate member `{name}` in type `{owner}`"
  | relationArity => "Each relation should have exactly 2 fields"
  | unresolved e => e.message
  | untyped e => e.message
  | notBoolean keyword found => (TypeError.notBoolean s!"condition for `{keyword}`" found).message
  | voidValue name => (TypeError.voidValue name).message
  | unassignable value name declared =>
    s!"Cannot assign a value of type `{value}` to `{name}` of type `{declared}`"
  | valueFromVoid => "Cannot return a value from a body returning void"
  | unreturnable value expected =>
    s!"Cannot return a value of type `{value}` where `{expected}` is expected"
  | missingValue expected => s!"Missing return value of type `{expected}`"
  | unthrowable value => s!"Only subtypes of {Host.throwableName} can be thrown, found `{value}`"
  | unknownException name => s!"Unknown exception type `{name}`"
  | uncatchable name => s!"Only subtypes of {Host.throwableName} can be caught, found `{name}`"

end SemanticCheck
