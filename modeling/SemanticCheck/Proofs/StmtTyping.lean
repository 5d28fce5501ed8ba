import SemanticCheck.Proofs.Annotations
import SemanticCheck.Proofs.Assignability
import SemanticCheck.Proofs.Frame
import SemanticCheck.Proofs.Reading

/-!
# Typed statements

When a statement is typed is said by rules over an explicit list of local names, with no scopes to open
or close, no log and no walk. The walk over a statement is content exactly when the statement is typed,
and leaves the local names that the rules do.
-/

namespace SemanticCheck

/-! ## The rules -/

/-- The expression has the type under the local names, the latest definition of a name first. -/
def Scope.Types (s : Scope) (Γ : LocalScope) (e : Expr) (type : Ty) : Prop :=
  s.typeOf ⟨Γ, []⟩ e = .ok type

/-- What may be returned where a type is expected. Nothing is known about an annotation that cannot be
resolved, so any typed value will do for it, and so will none. -/
inductive Scope.Returns (s : Scope) (Γ : LocalScope) : Option Ty → Option Expr → Prop
  | nothing : Returns s Γ (some .void) none
  | value {expected type : Ty} {e : Expr} : expected ≠ .void → s.Types Γ e type →
      type.assignableTo expected = true → Returns s Γ (some expected) (some e)
  | unknownNothing : Returns s Γ none none
  | unknownValue {type : Ty} {e : Expr} : s.Types Γ e type → Returns s Γ none (some e)

/-- What can be thrown and caught: objects of `java.lang.Throwable`, and of the classes below it. -/
inductive Ty.Throwable : Ty → Prop
  | itself (ancestors : List String) : Throwable (.reference "java.lang.Throwable" ancestors)
  | below (name : String) {ancestors : List String} : "java.lang.Throwable" ∈ ancestors →
      Throwable (.reference name ancestors)

mutual

/-- The statement is typed under the local names, and leaves the second list of them behind. -/
inductive StmtTyped (s : Scope) (expected : Option Ty) : LocalScope → Stmt → LocalScope → Prop
  | block {Γ Γ' body pos} : StmtsTyped s expected Γ body Γ' → StmtTyped s expected Γ (.block body pos) Γ
  | expression {Γ value type pos} : s.Types Γ value type →
      StmtTyped s expected Γ (.expression value pos) Γ
  | inferred {Γ name value type pos} : s.Types Γ value type → type ≠ .void →
      StmtTyped s expected Γ (.variable name value none pos) ((name, type) :: Γ)
  | annotated {Γ name value type written declared pos} : s.denote written = .ok declared →
      s.Types Γ value type → type ≠ .void → type.assignableTo declared = true →
      StmtTyped s expected Γ (.variable name value (some written) pos) ((name, declared) :: Γ)
  | conditional {Γ Γ₁ Γ₂ Γ₃ condition thenBody elifs elseBody pos} : s.Types Γ condition .boolean →
      StmtTyped s expected Γ thenBody Γ₁ → ElifsTyped s expected Γ₁ elifs Γ₂ →
      StmtsTyped s expected Γ₂ elseBody.toList Γ₃ →
      StmtTyped s expected Γ (.conditional condition thenBody elifs elseBody pos) Γ₃
  | returns {Γ value pos} : s.Returns Γ expected value → StmtTyped s expected Γ (.returns value pos) Γ
  | throws {Γ value type pos} : s.Types Γ value type → type.Throwable →
      StmtTyped s expected Γ (.throws value pos) Γ
  | tryCatch {Γ Γ₁ body catches pos} : StmtTyped s expected Γ body Γ₁ →
      CatchesTyped s expected Γ₁ catches → StmtTyped s expected Γ (.tryCatch body catches pos) Γ₁

inductive StmtsTyped (s : Scope) (expected : Option Ty) : LocalScope → List Stmt → LocalScope → Prop
  | nil {Γ} : StmtsTyped s expected Γ [] Γ
  | cons {Γ Γ₁ Γ₂ first rest} : StmtTyped s expected Γ first Γ₁ → StmtsTyped s expected Γ₁ rest Γ₂ →
      StmtsTyped s expected Γ (first :: rest) Γ₂

inductive ElifsTyped (s : Scope) (expected : Option Ty) : LocalScope → List Elif → LocalScope → Prop
  | nil {Γ} : ElifsTyped s expected Γ [] Γ
  | cons {Γ Γ₁ Γ₂ condition body pos rest} : s.Types Γ condition .boolean →
      StmtTyped s expected Γ body Γ₁ → ElifsTyped s expected Γ₁ rest Γ₂ →
      ElifsTyped s expected Γ (.mk condition body pos :: rest) Γ₂

inductive CatchesTyped (s : Scope) (expected : Option Ty) : LocalScope → List Catch → Prop
  | nil {Γ} : CatchesTyped s expected Γ []
  | cons {Γ Γ' type name body pos caught rest} : s.type? type.qualifiedName = some caught →
      caught.type.Throwable → StmtTyped s expected ((name, caught.type) :: Γ) body Γ' →
      CatchesTyped s expected Γ rest → CatchesTyped s expected Γ (.mk type name body pos :: rest)

end

/-! ## Local names, with scopes and without -/

def Sees (env : TypeEnv) (Γ : LocalScope) : Prop := ∀ name, env.lookup? name = Γ.lookup name

namespace Sees

variable {env : TypeEnv} {Γ : LocalScope}

theorem typeOf (h : Sees env Γ) (s : Scope) (e : Expr) : s.typeOf env e = s.typeOf ⟨Γ, []⟩ e := by
  refine typeOf_congr_env (fun name => ?_) e
  rw [h name]
  simp [TypeEnv.lookup?, TypeEnv.scopes]

theorem push (h : Sees env Γ) : Sees env.push Γ := by
  intro name
  rw [← h name]
  rfl

theorem define (h : Sees env Γ) (name : String) (type : Ty) :
    Sees (env.define name type) ((name, type) :: Γ) := by
  intro other
  have hother := h other
  simp only [TypeEnv.lookup?, TypeEnv.scopes, TypeEnv.define, List.findSome?_cons,
    List.lookup_cons] at hother ⊢
  cases other == name with
  | true => rfl
  | false => exact hother

theorem of_single (hinner : env.inner = Γ) (houter : env.outer = [[]]) : Sees env Γ := by
  intro name
  rw [TypeEnv.lookup?, TypeEnv.scopes, hinner, houter, List.findSome?_cons]
  cases Γ.lookup name <;> rfl

end Sees

/-! ## Walks that follow a judgement -/

/-- Wherever the walk sees the local names that the judgement speaks of, it is content exactly when the
judgement holds, and goes on with the local names that the judgement leaves behind. -/
structure Follows (walk : ValidationState → Bool × ValidationState)
    (judgement : Option Ty → LocalScope → LocalScope → Prop) : Prop where
  returns : ∀ st, (walk st).2.returns = st.returns
  accepts : ∀ {st Γ}, Sees st.env Γ →
    ((walk st).1 = true ↔ ∃ Γ', judgement st.expected? Γ Γ')
  env : ∀ {st Γ Γ'}, Sees st.env Γ → judgement st.expected? Γ Γ' → Sees (walk st).2.env Γ'

namespace Follows

variable {walk walk' : ValidationState → Bool × ValidationState}
  {J K : Option Ty → LocalScope → LocalScope → Prop}

theorem congr (h : Follows walk J) (heq : ∀ expected Γ Γ', J expected Γ Γ' ↔ K expected Γ Γ') :
    Follows walk K := by
  have : J = K := by
    funext expected Γ Γ'
    exact propext (heq expected Γ Γ')
  rwa [← this]

theorem expected (h : Follows walk J) (st : ValidationState) :
    (walk st).2.expected? = st.expected? := by
  simp only [ValidationState.expected?, h.returns]

theorem seq {both : ValidationState → Bool × ValidationState} (h : Follows walk J)
    (h' : Follows walk' K)
    (hboth : ∀ st, both st = ((walk st).1 && (walk' (walk st).2).1, (walk' (walk st).2).2)) :
    Follows both fun expected Γ Γ₂ => ∃ Γ₁, J expected Γ Γ₁ ∧ K expected Γ₁ Γ₂ where
  returns st := by
    rw [hboth]
    exact (h'.returns _).trans (h.returns st)
  accepts {st Γ} hsees := by
    rw [hboth, Bool.and_eq_true, h.accepts hsees]
    constructor
    · rintro ⟨⟨Γ₁, hfirst⟩, hsecond⟩
      rw [h'.accepts (h.env hsees hfirst), h.expected] at hsecond
      obtain ⟨Γ₂, hsecond⟩ := hsecond
      exact ⟨Γ₂, Γ₁, hfirst, hsecond⟩
    · rintro ⟨Γ₂, Γ₁, hfirst, hsecond⟩
      rw [← h.expected st] at hsecond
      exact ⟨⟨Γ₁, hfirst⟩, (h'.accepts (h.env hsees hfirst)).mpr ⟨Γ₂, hsecond⟩⟩
  env {st Γ Γ₂} hsees := by
    rintro ⟨Γ₁, hfirst, hsecond⟩
    rw [← h.expected st] at hsecond
    rw [hboth]
    exact h'.env (h.env hsees hfirst) hsecond

end Follows

namespace Site

variable (site : Site)

theorem follows_nil :
    Follows (site.validateAll (([] : List Node).map Node.tree)) fun _ Γ Γ' => Γ' = Γ where
  returns _ := rfl
  accepts _ := by simp [validateAll]
  env hsees := by
    rintro rfl
    exact hsees

theorem follows_cons {node : Node} {nodes : List Node}
    {J K : Option Ty → LocalScope → LocalScope → Prop} (h : Follows (site.validate node.tree) J)
    (h' : Follows (site.validateAll (nodes.map Node.tree)) K) :
    Follows (site.validateAll ((node :: nodes).map Node.tree))
      fun expected Γ Γ₂ => ∃ Γ₁, J expected Γ Γ₁ ∧ K expected Γ₁ Γ₂ :=
  h.seq h' fun st => by simp only [List.map_cons, validateAll]

/-! ## Nodes that do not touch the local names -/

theorem validate_annotation (a : TypeExpr) (st : ValidationState) :
    (site.validate (Node.typeExpr a).tree st).1 = true ↔ ∃ type, site.scope.denote a = .ok type := by
  rw [Node.tree]
  cases h : site.scope.denote a with
  | ok type => simp [site.validate_typeExpr_of_ok h]
  | error e => simp [site.validate_typeExpr_of_error h]

theorem follows_value (node : Node) (h : node.isValue = true) :
    Follows (site.validate node.tree) fun _ Γ Γ' => Γ' = Γ where
  returns st := by rw [site.validate_value node h]
  accepts _ := by simp [site.validate_value node h]
  env hsees := by
    rintro rfl
    rw [site.validate_value node h]
    exact hsees

/-! ## Checks -/

section Checks

variable {site} {st : ValidationState} {Γ : LocalScope}

theorem checkTyped_iff (hsees : Sees st.env Γ) (e : Expr) (around : Option Position)
    (rule : Ty → Check) :
    (site.checkTyped e around rule st).1 = true ↔
      ∃ type, site.scope.Types Γ e type ∧ (rule type st).1 = true := by
  have htype : site.typeOf st.env e = site.scope.typeOf ⟨Γ, []⟩ e := hsees.typeOf site.scope e
  unfold Scope.Types
  rw [← htype]
  cases h : site.typeOf st.env e with
  | ok type => simp [checkTyped_ok h]
  | error error => simp [checkTyped_error h]

theorem require_iff (condition : Bool) (pos : Option Position) (finding : Finding) :
    (require condition pos finding st).1 = true ↔ condition = true := by
  cases condition <;> simp

theorem isBoolean_iff (type : Ty) : type.isBoolean = true ↔ type = .boolean := by
  cases type with
  | primitive p => simp [Ty.isBoolean, Ty.boolean, Primitive.isBoolean]
  | _ => simp [Ty.isBoolean, Ty.boolean]

theorem isVoid_iff (type : Ty) : type.isVoid = true ↔ type = .void := by
  cases type <;> simp [Ty.isVoid]

theorem isThrowable_iff (type : Ty) : isThrowable type = true ↔ type.Throwable := by
  cases type with
  | reference name ancestors =>
    rw [isThrowable, Ty.isSubtype_iff]
    constructor
    · rintro (rfl | hroot | habove)
      · exact .itself ancestors
      · exact absurd hroot (by decide)
      · exact .below name habove
    · intro h
      cases h with
      | itself => exact .inl rfl
      | below _ habove => exact .inr (.inr habove)
  | _ => constructor <;> (intro h; cases h)

theorem checkCondition_iff (hsees : Sees st.env Γ) (condition : Expr) (keyword : String)
    (around : Option Position) :
    (site.checkCondition condition keyword around st).1 = true ↔
      site.scope.Types Γ condition .boolean := by
  unfold checkCondition
  simp only [checkTyped_iff hsees, require_iff, isBoolean_iff]
  exact ⟨fun ⟨type, htype, heq⟩ => heq ▸ htype, fun htype => ⟨_, htype, rfl⟩⟩

theorem checkReturn_iff (hsees : Sees st.env Γ) (value : Option Expr) (pos : Option Position) :
    (site.checkStatement (.returns value pos) st).1 = true ↔
      site.scope.Returns Γ st.expected? value := by
  cases value with
  | none =>
    show (checkBareReturn st.expected? pos st).1 = true ↔ _
    cases st.expected? with
    | none => exact ⟨fun _ => .unknownNothing, fun _ => rfl⟩
    | some expected =>
      simp only [checkBareReturn, require_iff, isVoid_iff]
      constructor
      · rintro rfl
        exact .nothing
      · intro h
        cases h with
        | nothing => rfl
  | some value =>
    show (site.checkTyped value pos (checkReturned st.expected? pos) st).1 = true ↔ _
    rw [checkTyped_iff hsees]
    cases st.expected? with
    | none =>
      constructor
      · rintro ⟨type, htype, -⟩
        exact .unknownValue htype
      · intro h
        cases h with
        | unknownValue htype => exact ⟨_, htype, rfl⟩
    | some expected =>
      by_cases hvoid : expected = .void
      · subst hvoid
        constructor
        · rintro ⟨type, -, hrefused⟩
          cases hrefused
        · intro h
          cases h with
          | value hvoid htype hassignable => contradiction
      · have hreturned : ∀ type, (checkReturned (some expected) pos type st).1 = true ↔
            type.assignableTo expected = true := by
          intro type
          cases expected with
          | void => contradiction
          | _ => exact require_iff _ _ _
        simp only [hreturned]
        constructor
        · rintro ⟨type, htype, hassignable⟩
          exact .value hvoid htype hassignable
        · intro h
          cases h with
          | value hvoid htype hassignable => exact ⟨_, htype, hassignable⟩

end Checks

/-! ## Nodes of a body -/

/-- A node that neither opens a scope nor defines a name. -/
theorem follows_node (node : Node) {J : Option Ty → LocalScope → LocalScope → Prop}
    (rule : Option Ty → LocalScope → Prop) (henter : ∀ st, site.enter node st = st)
    (hleave : ∀ st, site.leave node st = st)
    (hcheck : ∀ {st Γ}, Sees st.env Γ → ((site.check node st).1 = true ↔ rule st.expected? Γ))
    (hchildren : Follows (site.validateAll (node.children.map Node.tree)) J) :
    Follows (site.validate node.tree) fun expected Γ Γ' => rule expected Γ ∧ J expected Γ Γ' := by
  have hrule : Follows (site.check node) fun expected Γ Γ' => rule expected Γ ∧ Γ' = Γ := by
    refine ⟨site.check_returns node, fun hsees => by simp [hcheck hsees], ?_⟩
    rintro st Γ Γ' hsees ⟨-, rfl⟩
    rw [site.check_env]
    exact hsees
  have hboth : Follows (site.validate node.tree) _ := hrule.seq hchildren fun st => by
    rw [Node.tree_eq, validate_node, henter, hleave]
  refine hboth.congr fun expected Γ Γ' => ?_
  constructor
  · rintro ⟨Γ₁, ⟨hrule, rfl⟩, hrest⟩
    exact ⟨hrule, hrest⟩
  · rintro ⟨hrule, hrest⟩
    exact ⟨Γ, ⟨hrule, rfl⟩, hrest⟩

/-- A node with a scope of its own. What the children define is forgotten with it. -/
theorem follows_scope (node : Node) {J : Option Ty → LocalScope → LocalScope → Prop}
    (opens : LocalScope → LocalScope → Prop) (hscope : node.sharesScope = false)
    (hreturns : ∀ st, (site.enter node st).returns = st.returns)
    (hcheck : ∀ {st Γ}, Sees st.env Γ →
      ((site.check node (site.enter node st)).1 = true ↔ ∃ Γ₁, opens Γ Γ₁))
    (henter : ∀ {st Γ Γ₁}, Sees st.env Γ → opens Γ Γ₁ → Sees (site.enter node st).env Γ₁)
    (hchildren : Follows (site.validateAll (node.children.map Node.tree)) J) :
    Follows (site.validate node.tree) fun expected Γ Γ' =>
      (∃ Γ₁ Γ₂, opens Γ Γ₁ ∧ J expected Γ₁ Γ₂) ∧ Γ' = Γ := by
  refine ⟨fun st => (site.validate_grows node st).returns, ?_, ?_⟩
  · intro st Γ hsees
    have hexpected : (site.check node (site.enter node st)).2.expected? = st.expected? := by
      simp only [ValidationState.expected?, check_returns, hreturns]
    have hinside : ∀ {Γ₁}, opens Γ Γ₁ → Sees (site.check node (site.enter node st)).2.env Γ₁ := by
      intro Γ₁ hopens
      rw [check_env]
      exact henter hsees hopens
    rw [Node.tree_eq, validate_node, Bool.and_eq_true, hcheck hsees]
    constructor
    · rintro ⟨⟨Γ₁, hopens⟩, hrest⟩
      rw [hchildren.accepts (hinside hopens), hexpected] at hrest
      obtain ⟨Γ₂, hrest⟩ := hrest
      exact ⟨Γ, ⟨Γ₁, Γ₂, hopens, hrest⟩, rfl⟩
    · rintro ⟨Γ', ⟨Γ₁, Γ₂, hopens, hrest⟩, -⟩
      rw [← hexpected] at hrest
      exact ⟨⟨Γ₁, hopens⟩, (hchildren.accepts (hinside hopens)).mpr ⟨Γ₂, hrest⟩⟩
  · rintro st Γ Γ' hsees ⟨-, rfl⟩
    rw [site.validate_env hscope]
    exact hsees

theorem follows_stmts (stmts : List Stmt)
    (h : ∀ stmt ∈ stmts, Follows (site.validate (Node.statement stmt).tree)
      fun expected Γ Γ' => StmtTyped site.scope expected Γ stmt Γ') :
    Follows (site.validateAll ((stmts.map Node.statement).map Node.tree))
      fun expected Γ Γ' => StmtsTyped site.scope expected Γ stmts Γ' := by
  induction stmts with
  | nil =>
    refine site.follows_nil.congr fun expected Γ Γ' => ⟨?_, ?_⟩
    · rintro rfl
      exact .nil
    · intro h
      cases h with
      | nil => rfl
  | cons stmt stmts ih =>
    rw [List.forall_mem_cons] at h
    refine (site.follows_cons h.1 (ih h.2)).congr fun expected Γ Γ' => ⟨?_, ?_⟩
    · rintro ⟨Γ₁, hfirst, hrest⟩
      exact .cons hfirst hrest
    · intro h
      cases h with
      | cons hfirst hrest => exact ⟨_, hfirst, hrest⟩

theorem follows_elifs {elifs : List Elif}
    (h : ∀ e ∈ elifs, Follows (site.validate (Node.statement e.body).tree)
      fun expected Γ Γ' => StmtTyped site.scope expected Γ e.body Γ') :
    Follows (site.validateAll ((elifs.map Node.elif).map Node.tree))
      fun expected Γ Γ' => ElifsTyped site.scope expected Γ elifs Γ' := by
  induction elifs with
  | nil =>
    refine site.follows_nil.congr fun expected Γ Γ' => ⟨?_, ?_⟩
    · rintro rfl
      exact .nil
    · intro h
      cases h with
      | nil => rfl
  | cons e elifs ih =>
    obtain ⟨condition, body, pos⟩ := e
    rw [List.forall_mem_cons] at h
    have hclause := site.follows_node (.elif (.mk condition body pos))
      (fun _ Γ => site.scope.Types Γ condition .boolean) (fun _ => rfl) (fun _ => rfl)
      (fun hsees => checkCondition_iff hsees condition "elif" pos)
      (site.follows_cons (site.follows_value (.expression condition) rfl)
        (site.follows_cons h.1 site.follows_nil))
    refine (site.follows_cons hclause (ih h.2)).congr fun expected Γ Γ₂ => ⟨?_, ?_⟩
    · rintro ⟨_, ⟨hcondition, _, rfl, Γ₁, hbody, rfl⟩, hrest⟩
      exact .cons hcondition hbody hrest
    · intro h
      cases h with
      | cons hcondition hbody hrest => exact ⟨_, ⟨hcondition, _, rfl, _, hbody, rfl⟩, hrest⟩

theorem follows_catches {catches : List Catch}
    (h : ∀ c ∈ catches, Follows (site.validate (Node.statement c.body).tree)
      fun expected Γ Γ' => StmtTyped site.scope expected Γ c.body Γ') :
    Follows (site.validateAll ((catches.map Node.caught).map Node.tree))
      fun expected Γ Γ' => CatchesTyped site.scope expected Γ catches ∧ Γ' = Γ := by
  induction catches with
  | nil =>
    refine site.follows_nil.congr fun expected Γ Γ' => ⟨?_, ?_⟩
    · rintro rfl
      exact ⟨.nil, rfl⟩
    · rintro ⟨-, rfl⟩
      rfl
  | cons c catches ih =>
    obtain ⟨type, name, body, pos⟩ := c
    rw [List.forall_mem_cons] at h
    have hclause := site.follows_scope (.caught (.mk type name body pos))
      (fun Γ Γ₁ => ∃ caught, site.scope.type? type.qualifiedName = some caught ∧
        caught.type.Throwable ∧ Γ₁ = (name, caught.type) :: Γ)
      rfl (fun _ => by simp only [enter, openCatch])
      (by
        intro st Γ hsees
        simp only [check, checkCatch, Catch.type]
        cases site.scope.type? type.qualifiedName with
        | none => simp
        | some caught => simp [require_iff, isThrowable_iff])
      (by
        rintro st Γ Γ₁ hsees ⟨caught, htype, -, rfl⟩
        simp only [enter, openCatch, Catch.type, Catch.name, htype]
        exact hsees.push.define name caught.type)
      (site.follows_cons (site.follows_value (.typeIdentifier type) rfl)
        (site.follows_cons h.1 site.follows_nil))
    refine (site.follows_cons hclause (ih h.2)).congr fun expected Γ Γ' => ⟨?_, ?_⟩
    · rintro ⟨_, ⟨⟨_, Γ₂, ⟨caught, htype, hthrowable, rfl⟩, _, rfl, _, hbody, rfl⟩, rfl⟩, hrest, rfl⟩
      exact ⟨.cons htype hthrowable hbody hrest, rfl⟩
    · rintro ⟨h, rfl⟩
      cases h with
      | cons htype hthrowable hbody hrest =>
        exact ⟨_, ⟨⟨_, _, ⟨_, htype, hthrowable, rfl⟩, _, rfl, _, hbody, rfl⟩, rfl⟩, hrest, rfl⟩

/-! ## Variables -/

theorem validate_variable (name : String) (value : Expr) (written : Option TypeExpr)
    (pos : Option Position) (st : ValidationState) :
    let stmt : Node := .statement (.variable name value written pos)
    ((site.validate stmt.tree st).1 = true ↔
      (site.check stmt st).1 = true ∧ ∀ a ∈ written, ∃ type, site.scope.denote a = .ok type) ∧
    (site.validate stmt.tree st).2.env = site.defineVariable name value written st.env := by
  intro stmt
  have henv : (site.validateAll (stmt.children.map Node.tree) (site.check stmt st).2).2.env = st.env := by
    rw [site.validateAll_env, check_env]
    intro child hchild
    simp only [stmt, Node.children, Stmt.children, List.mem_append, List.mem_map,
      List.mem_singleton] at hchild
    rcases hchild with ⟨a, -, rfl⟩ | rfl <;> rfl
  rw [Node.tree_eq, validate_node]
  refine ⟨?_, by rw [← henv]; rfl⟩
  rw [Bool.and_eq_true]
  refine and_congr Iff.rfl ?_
  cases written with
  | none =>
    simp only [stmt, Node.children, Stmt.children, Option.toList_none, List.map_nil, List.nil_append,
      List.map_cons, validateAll, site.validate_value (.expression value) rfl]
    simp
  | some a =>
    simp only [stmt, Node.children, Stmt.children, Option.toList_some, List.map_cons, List.map_nil,
      List.cons_append, List.nil_append, validateAll,
      site.validate_value (.expression value) rfl, Bool.and_true, validate_annotation]
    simp

theorem checkInitial_iff {st : ValidationState} (name : String) (written : Option TypeExpr)
    (pos : Option Position) (type : Ty) :
    (site.checkInitial name written pos type st).1 = true ↔
      type ≠ .void ∧ ∀ declared ∈ written.bind site.denoted?, type.assignableTo declared = true := by
  unfold checkInitial
  cases hvoid : type.isVoid with
  | true => simp [(isVoid_iff type).mp hvoid]
  | false =>
    have hne : type ≠ .void := by
      rintro rfl
      simp [Ty.isVoid] at hvoid
    cases written.bind site.denoted? with
    | none => simp [hne]
    | some declared => simp [hne, require_iff]

theorem follows_variable (name : String) (value : Expr) (written : Option TypeExpr)
    (pos : Option Position) :
    Follows (site.validate (Node.statement (.variable name value written pos)).tree)
      fun expected Γ Γ' => StmtTyped site.scope expected Γ (.variable name value written pos) Γ' where
  returns st := (site.validate_grows _ st).returns
  accepts {st Γ} hsees := by
    rw [(site.validate_variable name value written pos st).1]
    show (site.checkTyped value pos _ st).1 = true ∧ _ ↔ _
    simp only [checkTyped_iff hsees, checkInitial_iff]
    constructor
    · rintro ⟨⟨type, htype, hvoid, hassignable⟩, hwritten⟩
      cases written with
      | none => exact ⟨_, .inferred htype hvoid⟩
      | some a =>
        obtain ⟨declared, hdeclared⟩ := hwritten a rfl
        refine ⟨_, .annotated hdeclared htype hvoid (hassignable declared ?_)⟩
        simp [denoted?, hdeclared, Except.toOption]
    · rintro ⟨Γ', h⟩
      cases h with
      | inferred htype hvoid => exact ⟨⟨_, htype, hvoid, by simp⟩, by simp⟩
      | annotated hdeclared htype hvoid hassignable =>
        exact ⟨⟨_, htype, hvoid, by simp [denoted?, hdeclared, Except.toOption, hassignable]⟩,
          by simp [hdeclared]⟩
  env {st Γ Γ'} hsees := by
    have henv := (site.validate_variable name value written pos st).2
    have hvalue : site.typeOf st.env value = site.scope.typeOf ⟨Γ, []⟩ value :=
      hsees.typeOf site.scope value
    rw [henv, defineVariable, hvalue]
    intro h
    cases h with
    | inferred htype hvoid =>
      rw [htype]
      exact hsees.define name _
    | annotated hdeclared htype hvoid hassignable =>
      simp only [Option.bind_some, denoted?, hdeclared, Except.toOption, Option.some_or]
      exact hsees.define name _

/-! ## Statements -/

/-- The walk over a statement follows the rules. -/
theorem follows_stmt (stmt : Stmt) :
    Follows (site.validate (Node.statement stmt).tree)
      fun expected Γ Γ' => StmtTyped site.scope expected Γ stmt Γ' := by
  have value : ∀ e : Expr, Follows (site.validateAll ([Node.expression e].map Node.tree))
      fun _ Γ Γ' => Γ' = Γ := by
    intro e
    refine (site.follows_cons (site.follows_value (.expression e) rfl) site.follows_nil).congr ?_
    simp
  induction stmt using Stmt.induction with
  | block body pos ih =>
    have hwalk := site.follows_scope (.statement (.block body pos)) (fun Γ Γ₁ => Γ₁ = Γ) rfl
      (fun _ => rfl) (fun _ => by simp [check, checkStatement])
      (by rintro st Γ _ hsees rfl; exact hsees.push) (site.follows_stmts body ih)
    refine hwalk.congr fun expected Γ Γ' => ⟨?_, ?_⟩
    · rintro ⟨⟨_, Γ₂, rfl, hbody⟩, rfl⟩
      exact .block hbody
    · intro h
      cases h with
      | block hbody => exact ⟨⟨_, _, rfl, hbody⟩, rfl⟩
  | expression e pos =>
    have hwalk := site.follows_node (.statement (.expression e pos))
      (fun _ Γ => ∃ type, site.scope.Types Γ e type) (fun _ => rfl) (fun _ => rfl)
      (fun hsees => by simp [check, checkStatement, checkTyped_iff hsees]) (value e)
    refine hwalk.congr fun expected Γ Γ' => ⟨?_, ?_⟩
    · rintro ⟨⟨type, htype⟩, rfl⟩
      exact .expression htype
    · intro h
      cases h with
      | expression htype => exact ⟨⟨_, htype⟩, rfl⟩
  | variableDecl name value written pos => exact site.follows_variable name value written pos
  | conditional condition thenBody elifs elseBody pos ihThen ihElifs ihElse =>
    have helse := site.follows_stmts elseBody.toList (by simpa using ihElse)
    have hbranches := (site.follows_elifs ihElifs).seq helse fun st => site.validateAll_append _ _ st
    rw [← List.map_append] at hbranches
    have hwalk := site.follows_node (.statement (.conditional condition thenBody elifs elseBody pos))
      (fun _ Γ => site.scope.Types Γ condition .boolean) (fun _ => rfl) (fun _ => rfl)
      (fun hsees => checkCondition_iff hsees condition "if" pos)
      (site.follows_cons (site.follows_value (.expression condition) rfl)
        (site.follows_cons ihThen hbranches))
    refine hwalk.congr fun expected Γ Γ' => ⟨?_, ?_⟩
    · rintro ⟨hcondition, _, rfl, Γ₁, hthen, Γ₂, helifs, helse⟩
      exact .conditional hcondition hthen helifs helse
    · intro h
      cases h with
      | conditional hcondition hthen helifs helse =>
        exact ⟨hcondition, _, rfl, _, hthen, _, helifs, helse⟩
  | returns e pos =>
    have hwalk := site.follows_node (.statement (.returns e pos))
      (fun expected Γ => site.scope.Returns Γ expected e) (fun _ => rfl) (fun _ => rfl)
      (fun hsees => checkReturn_iff hsees e pos)
      (J := fun _ Γ Γ' => Γ' = Γ) (by
        cases e with
        | none => exact site.follows_nil
        | some e => exact value e)
    refine hwalk.congr fun expected Γ Γ' => ⟨?_, ?_⟩
    · rintro ⟨hreturns, rfl⟩
      exact .returns hreturns
    · intro h
      cases h with
      | returns hreturns => exact ⟨hreturns, rfl⟩
  | throws e pos =>
    have hwalk := site.follows_node (.statement (.throws e pos))
      (fun _ Γ => ∃ type, site.scope.Types Γ e type ∧ type.Throwable) (fun _ => rfl) (fun _ => rfl)
      (fun hsees => by
        simp [check, checkStatement, checkTyped_iff hsees, checkThrown, require_iff, isThrowable_iff])
      (value e)
    refine hwalk.congr fun expected Γ Γ' => ⟨?_, ?_⟩
    · rintro ⟨⟨type, htype, hthrowable⟩, rfl⟩
      exact .throws htype hthrowable
    · intro h
      cases h with
      | throws htype hthrowable => exact ⟨⟨_, htype, hthrowable⟩, rfl⟩
  | tryCatch body catches pos ihBody ihCatches =>
    have hwalk := site.follows_node (.statement (.tryCatch body catches pos)) (fun _ _ => True)
      (fun _ => rfl) (fun _ => rfl) (fun _ => by simp [check, checkStatement])
      (site.follows_cons ihBody (site.follows_catches ihCatches))
    refine hwalk.congr fun expected Γ Γ' => ⟨?_, ?_⟩
    · rintro ⟨-, Γ₁, hbody, hcatches, rfl⟩
      exact .tryCatch hbody hcatches
    · intro h
      cases h with
      | tryCatch hbody hcatches => exact ⟨trivial, _, hbody, hcatches, rfl⟩

end Site

end SemanticCheck
