import SemanticCheck.Types.Ty

/-!
# Types of local names

Scopes nest. A name of an inner scope hides the same name further out until the inner scope is closed;
the outermost scope stays open for good.
-/

namespace SemanticCheck

/-- The types of the names of one scope, the latest definition of a name first. -/
abbrev LocalScope := List (String × Ty)

structure TypeEnv where
  inner : LocalScope
  outer : List LocalScope
  deriving Repr, Inhabited

namespace TypeEnv

def empty : TypeEnv := ⟨[], []⟩

def depth (env : TypeEnv) : Nat := env.outer.length + 1

def scopes (env : TypeEnv) : List LocalScope := env.inner :: env.outer

def push (env : TypeEnv) : TypeEnv := ⟨[], env.scopes⟩

/-- Closes the innermost scope, unless it is the only one. -/
def pop (env : TypeEnv) : TypeEnv :=
  match env.outer with
  | [] => env
  | scope :: rest => ⟨scope, rest⟩

def define (env : TypeEnv) (name : String) (ty : Ty) : TypeEnv :=
  { env with inner := (name, ty) :: env.inner }

/-- The type of a name in the innermost scope that has it. -/
def lookup? (env : TypeEnv) (name : String) : Option Ty :=
  env.scopes.findSome? (·.lookup name)

end TypeEnv

end SemanticCheck
