import SemanticCheck.Types.Primitive

/-!
# Types of values

A reference is the name of a declared type together with the names of the supertypes known for it.
Its identity is the name: `sameType` and assignability look at the ancestors of a target nowhere.
-/

namespace SemanticCheck

inductive Ty where
  | primitive (p : Primitive)
  | reference (name : String) (ancestors : List String)
  | array (component : Ty)
  | function (params : List Ty) (result : Ty)
  | void
  deriving Repr, Inhabited

/-- The root of the reference types. -/
def objectName : String := "java.lang.Object"

def stringName : String := "java.lang.String"

namespace Ty

def int : Ty := primitive .int

def boolean : Ty := primitive .boolean

def string : Ty := reference stringName [objectName]

def object : Ty := reference objectName []

/-! ## Kinds of types -/

def isVoid : Ty → Bool
  | void => true
  | _ => false

def isNumeric : Ty → Bool
  | primitive p => p.isNumeric
  | _ => false

def isBoolean : Ty → Bool
  | primitive p => p.isBoolean
  | _ => false

def isString : Ty → Bool
  | reference name _ => name == stringName
  | _ => false

def primitive? : Ty → Option Primitive
  | primitive p => some p
  | _ => none

/-- The declared type a reference names. -/
def referenceName? : Ty → Option String
  | reference name _ => some name
  | _ => none

def component? : Ty → Option Ty
  | array component => some component
  | _ => none

/-- Parameters and result of a function. -/
def signature? : Ty → Option (List Ty × Ty)
  | function params result => some (params, result)
  | _ => none

/-! ## Identity -/

mutual

/-- Structure is compared everywhere, except that a reference is its name. -/
def sameType : Ty → Ty → Bool
  | primitive p, primitive q => p == q
  | reference a _, reference b _ => a == b
  | array a, array b => sameType a b
  | function params result, function params' result' =>
    sameTypes params params' && sameType result result'
  | void, void => true
  | _, _ => false

def sameTypes : List Ty → List Ty → Bool
  | [], [] => true
  | a :: as, b :: bs => sameType a b && sameTypes as bs
  | _, _ => false

end

/-! ## Assignability -/

/-- Whether a reference with these ancestors is a subtype of the type called `target`. -/
def isSubtype (name : String) (ancestors : List String) (target : String) : Bool :=
  name == target || target == objectName || ancestors.contains target

/-- Whether a value of the first type may be stored where the second is expected. Functions are
computed and never stored. -/
def assignableTo : Ty → Ty → Bool
  | primitive p, primitive q => p.widensTo q
  | reference name ancestors, reference target _ => isSubtype name ancestors target
  | array a, array b => assignableTo a b
  | array _, reference target _ => target == objectName
  | _, _ => false

/-! ## Texts -/

mutual

def text : Ty → String
  | primitive p => p.name
  | reference name _ => name
  | array component => component.text ++ "[]"
  | function params result => "(" ++ texts params ++ ") -> " ++ result.text
  | void => "void"

/-- Parameters, with commas between them. -/
def texts : List Ty → String
  | [] => ""
  | [param] => param.text
  | param :: rest => param.text ++ ", " ++ texts rest

end

/-- The type in the platform's own notation. A function stands for its result. -/
def descriptor : Ty → String
  | primitive p => p.letter.toString
  | reference name _ =>
    "L" ++ String.ofList (name.toList.map fun c => if c = '.' then '/' else c) ++ ";"
  | array component => "[" ++ component.descriptor
  | function _ result => result.descriptor
  | void => "V"

end Ty

end SemanticCheck
