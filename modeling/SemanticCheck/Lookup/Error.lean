/-! # Why a lookup fails -/

namespace SemanticCheck

inductive ResolutionError where
  | unsolvedMethod (name : String)
  | unknownType (name : String)
  | unknownPrimitive (name : String)
  | unresolvedProperty (name : String)
  deriving DecidableEq, Repr

namespace ResolutionError

def message : ResolutionError → String
  | unsolvedMethod name => s!"Unsolved method `{name}`"
  | unknownType name => s!"Unknown type `{name}`"
  | unknownPrimitive name => s!"Unknown primitive type `{name}`"
  | unresolvedProperty name => s!"Unresolved property reference `{name}`"

def code : ResolutionError → String
  | unsolvedMethod _ => "turin_resolve::unsolved_method"
  | unknownType _ => "turin_resolve::unknown_type"
  | unknownPrimitive _ => "turin_resolve::unknown_primitive"
  | unresolvedProperty _ => "turin_resolve::unresolved_property"

def help? : ResolutionError → Option String
  | unknownType _ => some "Is the type declared in this batch or imported?"
  | _ => none

end ResolutionError

end SemanticCheck
