import SemanticCheck.Text.Diagnostic
import SemanticCheck.Typing.Infer

/-!
# What validation keeps while it walks a file

The types of local names, the return types of the bodies it is in, the members seen of the type it is
in, and what it has found.
-/

namespace SemanticCheck

/-- A file in its batch, with the chain its names are looked up in. -/
structure Site where
  chain : Chain
  file : SourceFile
  batch : Nat
  number : Nat

/-- The names of the members passed so far in a type. -/
structure SeenMembers where
  owner : String
  names : List String
  deriving DecidableEq, Repr

structure ValidationState where
  env : TypeEnv := .empty
  /-- Innermost first; `none` where the annotation cannot be resolved. -/
  returns : List (Option Ty) := []
  members : Option SeenMembers := none
  log : Log := .empty
  deriving Inhabited

namespace Site

def scope (site : Site) : Scope := ⟨site.chain, site.file⟩

/-- Where a declaration of this file is. -/
def placeOf (site : Site) (d : Declaration) : Place := ⟨site.batch, site.number, d.number⟩

/-- The type of an annotation, if it can be resolved. -/
def denoted? (site : Site) (a : TypeExpr) : Option Ty :=
  (site.scope.denote a).toOption

def typeOf (site : Site) (env : TypeEnv) (e : Expr) : Typed Ty := site.scope.typeOf env e

end Site

/-- The return type a `return` has to fit, if it is known. -/
def ValidationState.expected? (st : ValidationState) : Option Ty := st.returns.head?.bind id

/-! ## Entering and leaving nodes -/

/-- The parameters whose annotations can be resolved, defined in order. -/
def Site.defineParams (site : Site) (params : List Parameter) (env : TypeEnv) : TypeEnv :=
  params.foldl
    (fun env p =>
      match site.denoted? p.type with
      | some type => env.define p.name type
      | none => env)
    env

def Site.openRoutine (site : Site) (r : Routine) (st : ValidationState) : ValidationState :=
  { st with
    env := site.defineParams r.params st.env.push
    returns := site.denoted? r.result :: st.returns }

/-- The caught value, defined in a scope of its own if its type is known. -/
def Site.openCatch (site : Site) (c : Catch) (st : ValidationState) : ValidationState :=
  { st with
    env :=
      match site.scope.type? c.type.qualifiedName with
      | some t => st.env.push.define c.name t.type
      | none => st.env.push }

def Site.enter (site : Site) (node : Node) (st : ValidationState) : ValidationState :=
  match node with
  | .declaration d =>
    match d.member with
    | .type _ => { st with members := some ⟨d.qualifiedName, []⟩ }
    | .function f => site.openRoutine f st
    | .program p =>
      { st with
        env := st.env.push.define p.param (.array .string)
        returns := some .void :: st.returns }
    | _ => st
  | .owned m =>
    match m.member with
    | .method r => site.openRoutine r st
    | _ => st
  | .statement (.block ..) => { st with env := st.env.push }
  | .caught c => site.openCatch c st
  | _ => st

/-- A variable is visible from the next statement on, with its annotated type or else the type of its
value. -/
def Site.defineVariable (site : Site) (name : String) (value : Expr) (written : Option TypeExpr)
    (env : TypeEnv) : TypeEnv :=
  match (written.bind site.denoted?).or (site.typeOf env value).toOption with
  | some type => env.define name type
  | none => env

def closeBody (st : ValidationState) : ValidationState :=
  { st with env := st.env.pop, returns := st.returns.tail }

def Site.leave (site : Site) (node : Node) (st : ValidationState) : ValidationState :=
  match node with
  | .declaration d =>
    match d.member with
    | .type _ => { st with members := none }
    | .function _ | .program _ => closeBody st
    | _ => st
  | .owned m =>
    match m.member with
    | .method _ => closeBody st
    | _ => st
  | .statement (.variable name value written _) =>
    { st with env := site.defineVariable name value written st.env }
  | .statement (.block ..) => { st with env := st.env.pop }
  | .caught _ => { st with env := st.env.pop }
  | _ => st

end SemanticCheck
