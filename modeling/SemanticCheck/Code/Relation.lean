import SemanticCheck.Code.Expr

/-!
# Relations

A relation joins two typed fields. How many fields it has is checked with the rest of the file, so a
relation as written may have any number; what is asked of the two fields fails on such a one.
-/

namespace SemanticCheck

inductive Cardinality where
  | single | many
  deriving DecidableEq, Repr

structure RelationField where
  name : String
  target : TypeExpr
  cardinality : Cardinality
  pos : Option Position
  deriving DecidableEq, Repr

structure Relation where
  name : String
  fields : List RelationField
  pos : Option Position
  deriving DecidableEq, Repr

inductive RelationKind where
  | oneToOne | oneToMany | manyToMany
  deriving DecidableEq, Repr

/-- Why a question about the two fields of a relation has no answer. -/
inductive RelationFault where
  | arity (name : String) (count : Nat)
  | notOneToMany (name : String) (kind : RelationKind) (asked : Cardinality)
  deriving DecidableEq, Repr

def Cardinality.text : Cardinality → String
  | single => "Single"
  | many => "Many"

def RelationKind.text : RelationKind → String
  | oneToOne => "one-to-one"
  | oneToMany => "one-to-many"
  | manyToMany => "many-to-many"

def RelationFault.message : RelationFault → String
  | arity name count => s!"relation `{name}` has {count} fields, accessors require exactly 2"
  | notOneToMany name kind asked =>
    s!"relation `{name}` is {kind.text}, only one-to-many relations have a {asked.text} field"

namespace Relation

def validArity (r : Relation) : Bool := r.fields.length == 2

/-- The name of the class that stands for the relation. -/
def className (r : Relation) : String := "Relation_" ++ r.name

/-- The two fields, in declaration order. -/
def ends (r : Relation) : Except RelationFault (RelationField × RelationField) :=
  match r.fields with
  | [a, b] => .ok (a, b)
  | fields => .error (.arity r.name fields.length)

def first (r : Relation) : Except RelationFault RelationField := r.ends.map (·.1)

def second (r : Relation) : Except RelationFault RelationField := r.ends.map (·.2)

def kindOf : Cardinality → Cardinality → RelationKind
  | .single, .single => .oneToOne
  | .many, .many => .manyToMany
  | _, _ => .oneToMany

def kind (r : Relation) : Except RelationFault RelationKind :=
  r.ends.map fun (a, b) => kindOf a.cardinality b.cardinality

/-- The one field of a one-to-many relation with the given cardinality. -/
def fieldWith (r : Relation) (cardinality : Cardinality) : Except RelationFault RelationField := do
  let (a, b) ← r.ends
  match kindOf a.cardinality b.cardinality with
  | .oneToMany => .ok (if a.cardinality = cardinality then a else b)
  | kind => .error (.notOneToMany r.name kind cardinality)

end Relation

end SemanticCheck
