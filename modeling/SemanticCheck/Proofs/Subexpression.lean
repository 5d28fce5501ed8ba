import SemanticCheck.Proofs.Candidates
import SemanticCheck.Proofs.Preorder

/-!
# Subexpressions

An expression that has a type has no part without one, so it is enough to ask for the type of a whole
expression. Calls do not ask for the type of what is called, but what they ask for instead is there only
if that type is. The one callee that need not have a type is a method of a named type, written like a
static field.
-/

namespace SemanticCheck

theorem bind_ok {ε α β : Type} {r : Except ε α} {next : α → Except ε β} {b : β}
    (h : (r >>= next) = .ok b) : ∃ a, r = .ok a ∧ next a = .ok b := by
  cases r with
  | ok a => exact ⟨a, rfl, h⟩
  | error e => cases h

/-! ## Functions of the host -/

namespace MethodRequest

variable {r : MethodRequest} {candidates : List HostMethod} {m : HostMethod}

theorem matchedBy_iff :
    r.matchedBy m = true ↔
      m.name = r.name ∧ m.arity = r.args.length ∧ (r.isStatic = true → m.isStatic = true) := by
  cases hstatic : r.isStatic <;> simp [matchedBy, hstatic, and_assoc]

theorem select_ok (h : r.select candidates = .ok m) : m ∈ candidates ∧ r.matchedBy m = true := by
  simp only [select] at h
  split at h
  · rename_i found hfound
    obtain rfl := Except.ok.inj h
    rw [← List.mem_filter]
    rcases Option.or_eq_some_iff.mp hfound with haccepts | ⟨-, hfirst⟩
    · exact List.mem_of_find?_eq_some haccepts
    · exact List.mem_of_mem_head? hfirst
  · cases h

end MethodRequest

/-- A function that answers a call is found under its name, unless something else is. -/
theorem Chain.symbol_of_function {chain : Chain} {name : String} {args : List Ty} {m : HostMethod}
    (h : chain.method (.function name args) = .ok m) : ∃ symbol, chain.symbol? name = some symbol := by
  induction chain with
  | nothing | emptyHost => cases h
  | host host =>
    obtain ⟨hmem, hmatched⟩ := MethodRequest.select_ok h
    obtain ⟨hname, -⟩ := MethodRequest.matchedBy_iff.mp hmatched
    simp only [symbol?]
    split
    · exact ⟨_, rfl⟩
    · split
      · exact ⟨_, rfl⟩
      · rename_i hnone
        have hother := List.find?_eq_none.mp hnone m hmem
        exact absurd (beq_iff_eq.mpr hname) hother
  | source batch delegates outer ih =>
    simp only [symbol?]
    split
    · exact ⟨_, rfl⟩
    · exact ih h

namespace Scope

variable {s : Scope} {env : TypeEnv}

theorem method_function_of_unknown {name : String} (hunknown : s.value? name = none)
    (args : List Ty) (m : HostMethod) : s.chain.method (.function name args) ≠ .ok m := by
  intro h
  obtain ⟨symbol, hsymbol⟩ := Chain.symbol_of_function h
  have hnone := List.findSome?_eq_none_iff.mp hunknown name (s.file.name_mem_candidates name false)
  rw [hsymbol] at hnone
  cases hnone

/-! ## Calls -/

theorem valueType_of_typeIn {name : String} {symbol : Symbol} {ty : Ty}
    (henv : ¬ (env.lookup? name).isSome) (hvalue : s.value? name = some symbol)
    (hty : symbol.typeIn s.chain = .ok ty) : s.valueType env name = .ok ty := by
  have hnone : env.lookup? name = none := by simpa using henv
  simp only [valueType, hnone, hvalue, hty]
  rfl

def HasType (s : Scope) (env : TypeEnv) (e : Expr) : Prop := ∃ ty, s.typeOf env e = .ok ty

theorem hasType_of_staticSubject {subject : Expr} {owner : TypeDef}
    (h : s.staticSubject? env subject = some owner) : s.HasType env subject := by
  unfold staticSubject? at h
  cases subject with
  | name name pos =>
    simp only [Expr.name?] at h
    split at h
    · cases h
    · rename_i henv
      obtain ⟨symbol, hvalue, htype⟩ := Option.bind_eq_some_iff.mp h
      obtain rfl : symbol = .type owner := by
        cases symbol <;> simp_all [Symbol.type?]
      refine ⟨owner.type, ?_⟩
      rw [typeOf]
      exact valueType_of_typeIn henv hvalue rfl
  | _ => cases h

/-- A call of a declared name has a type only if the name does. -/
theorem typeIn_of_namedCall {name : String} {args : List Ty} {result : Ty}
    (h : s.namedCall name args = .ok result) :
    ∃ symbol ty, s.value? name = some symbol ∧ symbol.typeIn s.chain = .ok ty := by
  unfold namedCall at h
  split at h
  · rename_i t hvalue
    exact ⟨_, t.type, hvalue, rfl⟩
  · rename_i m hvalue
    exact ⟨_, m.type, hvalue, rfl⟩
  · rename_i symbol _ _ hvalue
    obtain ⟨callee, hcallee, -⟩ := bind_ok h
    refine ⟨symbol, callee, hvalue, ?_⟩
    cases htype : symbol.typeIn s.chain with
    | ok ty =>
      rw [htype] at hcallee
      cases hcallee
      rfl
    | error e =>
      rw [htype] at hcallee
      cases hcallee
  · rename_i hunknown
    unfold hostCall at h
    split at h
    · rename_i m hm
      exact absurd hm (method_function_of_unknown hunknown args m)
    · cases h

theorem hasType_of_directCall {args : List Ty} {callee : Expr} {result : Ty}
    (h : s.directCall? env args callee = some (.ok result)) :
    s.HasType env callee ∨ ∃ subject field pos, callee = .staticField subject field pos := by
  unfold directCall? at h
  split at h
  · rename_i subject field pos
    exact .inr ⟨subject, field, pos, rfl⟩
  · split at h
    · cases h
    · rename_i name pos henv
      obtain ⟨symbol, ty, hvalue, hty⟩ := typeIn_of_namedCall (Option.some.inj h)
      refine .inl ⟨ty, ?_⟩
      rw [typeOf]
      exact valueType_of_typeIn henv hvalue hty
  · cases h

theorem typeOf_methodCall_ok {subject : Expr} {method : String} {args : List Argument}
    {pos : Option Position} {ty : Ty} (h : s.typeOf env (.methodCall subject method args pos) = .ok ty) :
    s.HasType env subject ∧ ∃ types, s.argumentTypes env args = .ok types := by
  rw [typeOf] at h
  obtain ⟨types, htypes, h⟩ := bind_ok h
  refine ⟨?_, types, htypes⟩
  split at h
  · rename_i owner howner
    exact hasType_of_staticSubject howner
  · obtain ⟨subjectType, hsubject, -⟩ := bind_ok h
    exact ⟨subjectType, hsubject⟩

theorem typeOf_call_ok {callee : Expr} {args : List Argument} {pos : Option Position} {ty : Ty}
    (h : s.typeOf env (.call callee args pos) = .ok ty) :
    (s.HasType env callee ∨ ∃ subject field pos, callee = .staticField subject field pos) ∧
      ∃ types, s.argumentTypes env args = .ok types := by
  rw [typeOf] at h
  obtain ⟨types, htypes, h⟩ := bind_ok h
  refine ⟨?_, types, htypes⟩
  split at h
  · rename_i result hresult
    exact hasType_of_directCall (h ▸ hresult)
  · obtain ⟨calleeType, hcallee, -⟩ := bind_ok h
    exact .inl ⟨calleeType, hcallee⟩

/-! ## Trees -/

/-- The expression is called by the node as a method of a named type. -/
def CalledStatic (parent : Node) (e : Expr) : Prop :=
  ∃ subject field pos args pos', e = .staticField subject field pos ∧
    parent = .expression (.call e args pos')

/-- Everything below the root has a type that has to have one. -/
def TypedBelow (s : Scope) (env : TypeEnv) (t : NodeTree) : Prop :=
  ∀ parent ∈ t.subtrees, ∀ child ∈ parent.children, ∀ e, child.label = .expression e →
    s.HasType env e ∨ CalledStatic parent.label e

theorem typedBelow_node {root : Node} {children : List NodeTree}
    (hroot : ∀ child ∈ children, ∀ e, child.label = .expression e →
      s.HasType env e ∨ CalledStatic root e)
    (hbelow : ∀ child ∈ children, s.TypedBelow env child) : s.TypedBelow env (.node root children) := by
  intro parent hparent
  rw [Tree.subtrees, List.mem_cons, Tree.subtreesOf_eq, List.mem_flatMap] at hparent
  rcases hparent with rfl | ⟨child, hchild, hparent⟩
  · exact hroot
  · exact hbelow child hchild parent hparent

/-- The root has a type too, if it is an expression. -/
def TypedThrough (s : Scope) (env : TypeEnv) (t : NodeTree) : Prop :=
  (∀ e, t.label = .expression e → s.HasType env e) ∧ s.TypedBelow env t

theorem typedBelow_of_children {root : Node} {children : List NodeTree}
    (h : ∀ child ∈ children, s.TypedThrough env child) : s.TypedBelow env (.node root children) :=
  typedBelow_node (fun child hchild e he => .inl ((h child hchild).1 e he))
    fun child hchild => (h child hchild).2

theorem typedThrough_identifier (t : TypeIdentifier) : s.TypedThrough env t.tree := by
  refine ⟨?_, typedBelow_of_children (by simp)⟩
  intro e he
  cases he

theorem label_tree (e : Expr) : e.tree.label = .expression e := by
  cases e <;> rw [Expr.tree] <;> rfl

theorem typedThrough_of_below {e : Expr} (h : s.HasType env e) (hbelow : s.TypedBelow env e.tree) :
    s.TypedThrough env e.tree := by
  refine ⟨?_, hbelow⟩
  intro e' he'
  rw [label_tree] at he'
  cases he'
  exact h

mutual

theorem typedThrough_tree (e : Expr) (h : s.HasType env e) : s.TypedThrough env e.tree := by
  refine typedThrough_of_below h ?_
  obtain ⟨ty, h⟩ := h
  -- Most forms ask for the types of their parts. Only the two calls need a reason of their own.
  cases e with
  | literal | name =>
    rw [Expr.tree]
    exact typedBelow_of_children (by simp)
  | interpolation parts pos =>
    rw [typeOf] at h
    obtain ⟨types, htypes, -⟩ := bind_ok h
    rw [Expr.tree]
    exact typedBelow_of_children (typedThrough_trees parts htypes)
  | staticField subject field pos =>
    rw [Expr.tree]
    exact typedBelow_of_children (by simp [typedThrough_identifier])
  | field subject field pos =>
    rw [typeOf] at h
    obtain ⟨subjectType, hsubject, -⟩ := bind_ok h
    have below := typedThrough_tree subject ⟨subjectType, hsubject⟩
    rw [Expr.tree]
    exact typedBelow_of_children (by simp [below])
  | methodCall subject method args pos =>
    obtain ⟨hsubject, types, htypes⟩ := typeOf_methodCall_ok h
    have below := typedThrough_tree subject hsubject
    rw [Expr.tree]
    exact typedBelow_of_children (List.forall_mem_cons.mpr ⟨below, typedThrough_arguments args htypes⟩)
  | call callee args pos =>
    obtain ⟨hcallee, types, htypes⟩ := typeOf_call_ok h
    have hargs := typedThrough_arguments args htypes
    rw [Expr.tree]
    rcases hcallee with hcallee | ⟨subject, field, pos', rfl⟩
    · have below := typedThrough_tree callee hcallee
      exact typedBelow_of_children (List.forall_mem_cons.mpr ⟨below, hargs⟩)
    · -- The callee alone is exempt: only a type identifier stands below it.
      refine typedBelow_node (List.forall_mem_cons.mpr ⟨?_, ?_⟩) (List.forall_mem_cons.mpr ⟨?_, ?_⟩)
      · intro e he
        rw [label_tree] at he
        cases he
        exact .inr ⟨subject, field, pos', args, pos, rfl, rfl⟩
      · exact fun child hchild e he => .inl ((hargs child hchild).1 e he)
      · rw [Expr.tree]
        exact typedBelow_of_children (by simp [typedThrough_identifier])
      · exact fun child hchild => (hargs child hchild).2
  | index array index pos =>
    rw [typeOf] at h
    obtain ⟨arrayType, harray, h⟩ := bind_ok h
    obtain ⟨component, -, h⟩ := bind_ok h
    obtain ⟨indexType, hindex, -⟩ := bind_ok h
    have below := typedThrough_tree array ⟨arrayType, harray⟩
    have below' := typedThrough_tree index ⟨indexType, hindex⟩
    rw [Expr.tree]
    exact typedBelow_of_children (by simp [below, below'])
  | creation typeName args pos =>
    rw [typeOf] at h
    obtain ⟨types, htypes, -⟩ := bind_ok h
    rw [Expr.tree]
    exact typedBelow_of_children (typedThrough_arguments args htypes)
  | negation operand pos =>
    rw [typeOf] at h
    obtain ⟨operandType, hoperand, -⟩ := bind_ok h
    have below := typedThrough_tree operand ⟨operandType, hoperand⟩
    rw [Expr.tree]
    exact typedBelow_of_children (by simp [below])
  | binary op left right pos =>
    rw [typeOf] at h
    obtain ⟨leftType, hleft, h⟩ := bind_ok h
    obtain ⟨rightType, hright, -⟩ := bind_ok h
    have below := typedThrough_tree left ⟨leftType, hleft⟩
    have below' := typedThrough_tree right ⟨rightType, hright⟩
    rw [Expr.tree]
    exact typedBelow_of_children (by simp [below, below'])

theorem typedThrough_trees (es : List Expr) {types : List Ty} (h : s.typesOf env es = .ok types) :
    ∀ t ∈ Expr.trees es, s.TypedThrough env t := by
  cases es with
  | nil => simp [Expr.trees]
  | cons e rest =>
    rw [typesOf] at h
    obtain ⟨ty, hty, h⟩ := bind_ok h
    obtain ⟨restTypes, hrest, -⟩ := bind_ok h
    rw [Expr.trees]
    exact List.forall_mem_cons.mpr ⟨typedThrough_tree e ⟨ty, hty⟩, typedThrough_trees rest hrest⟩

theorem typedThrough_arguments (args : List Argument) {types : List Ty}
    (h : s.argumentTypes env args = .ok types) : ∀ t ∈ Argument.trees args, s.TypedThrough env t := by
  cases args with
  | nil => simp [Argument.trees]
  | cons arg rest =>
    cases arg with
    | mk name value pos =>
      rw [argumentTypes] at h
      obtain ⟨ty, hty, h⟩ := bind_ok h
      obtain ⟨restTypes, hrest, -⟩ := bind_ok h
      have below := typedThrough_tree value ⟨ty, hty⟩
      rw [Argument.trees, Argument.tree]
      refine List.forall_mem_cons.mpr ⟨⟨?_, ?_⟩, typedThrough_arguments rest hrest⟩
      · intro e he
        cases he
      · exact typedBelow_of_children (by simp [below])

end

/-- Where an expression has a type, every expression below it has one in the same scope with the same
local names, except a static member that is called. -/
theorem typeOf_ok_below (s : Scope) (env : TypeEnv) (e : Expr) (ty : Ty) (h : s.typeOf env e = .ok ty)
    (parent : NodeTree) (hparent : parent ∈ e.tree.subtrees) (child : NodeTree)
    (hchild : child ∈ parent.children) (sub : Expr) (hsub : child.label = .expression sub) :
    (∃ ty', s.typeOf env sub = .ok ty') ∨
      ∃ subject field pos args pos', sub = .staticField subject field pos ∧
        parent.label = .expression (.call sub args pos') :=
  (typedThrough_tree e ⟨ty, h⟩).2 parent hparent child hchild sub hsub

def mathScope : Scope :=
  ⟨.host Host.javaLang, ⟨["calc"], by decide, by decide⟩, [], [], none⟩

def mathEnv : TypeEnv := TypeEnv.empty.define "n" .int

/-- The callee of `Math.max(1, n)`. -/
def maxCallee : Expr := .staticField ⟨none, "Math", none⟩ "max" none

def maxArgument : Argument := .mk none (.name "n" none) none

def maxCall : Expr := .call maxCallee [.mk none (.literal (.int 1) none) none, maxArgument] none

/-- The callee has no type, although the call has one. -/
example : mathScope.typeOf mathEnv maxCallee = .error (.type (.unknownField "max" "java.lang.Math")) :=
  rfl

theorem maxCall_argument_typed :
    mathScope.typeOf mathEnv maxCall = .ok .int ∧ maxArgument.tree ∈ maxCall.tree.subtrees ∧
      ((∃ ty, mathScope.typeOf mathEnv (.name "n" none) = .ok ty) ∨
        ∃ subject field pos args pos', Expr.name "n" none = .staticField subject field pos ∧
          maxArgument.tree.label = .expression (.call (.name "n" none) args pos')) := by
  have hcall : mathScope.typeOf mathEnv maxCall = .ok .int := rfl
  have hparent : maxArgument.tree ∈ maxCall.tree.subtrees := by
    simp [maxCall, Expr.tree, Argument.trees, maxArgument, Argument.tree, Tree.subtrees,
      Tree.subtreesOf]
  refine ⟨hcall, hparent, ?_⟩
  exact typeOf_ok_below mathScope mathEnv maxCall .int hcall maxArgument.tree hparent
    (Expr.name "n" none).tree (by simp [maxArgument, Argument.tree, Tree.children]) _ (label_tree _)

end Scope

end SemanticCheck
