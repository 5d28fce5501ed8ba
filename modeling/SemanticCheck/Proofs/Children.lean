import SemanticCheck.Proofs.Preorder

/-!
# Nodes and their children

A node knows its children, and its tree is made of theirs. What holds of a node whenever it holds of the
children holds of every node, and likewise for the expressions and the statements inside of one another.
-/

namespace SemanticCheck

/-! ## Children -/

def Expr.children : Expr → List Node
  | .literal .. | .name .. => []
  | .interpolation parts _ => parts.map .expression
  | .staticField subject _ _ => [.typeIdentifier subject]
  | .field subject _ _ => [.expression subject]
  | .methodCall subject _ args _ => .expression subject :: args.map .argument
  | .call callee args _ => .expression callee :: args.map .argument
  | .index array position _ => [.expression array, .expression position]
  | .creation _ args _ => args.map .argument
  | .negation operand _ => [.expression operand]
  | .binary _ left right _ => [.expression left, .expression right]

def Stmt.children : Stmt → List Node
  | .block body _ => body.map .statement
  | .expression value _ => [.expression value]
  | .variable _ value written _ => written.toList.map .typeExpr ++ [.expression value]
  | .conditional condition thenBody elifs elseBody _ =>
    .expression condition :: .statement thenBody
      :: (elifs.map .elif ++ elseBody.toList.map .statement)
  | .returns value _ => value.toList.map .expression
  | .throws value _ => [.expression value]
  | .tryCatch body catches _ => .statement body :: catches.map .caught

def Routine.children (r : Routine) : List Node :=
  .typeExpr r.result :: (r.params.map .parameter ++ [.statement r.body])

namespace Node

def children : Node → List Node
  | file f => f.imports.map imported ++ f.declarations.map declaration
  | imported _ => []
  | declaration d =>
    match d.member with
    | .type t => t.members.map fun m => owned ⟨d.context, d.qualifiedName, m⟩
    | .property p => [typeExpr p.type]
    | .function f => f.children
    | .program p => [statement p.body]
    | .relation r => r.fields.map relationField
  | owned m =>
    match m.member with
    | .property p => [typeExpr p.type]
    | .reference _ => []
    | .method r => r.children
  | parameter p => [typeExpr p.type]
  | relationField f => [typeExpr f.target]
  | statement s => s.children
  | elif e => [expression e.condition, statement e.body]
  | caught c => [typeIdentifier c.type, statement c.body]
  | expression e => e.children
  | argument a => [expression a.value]
  | typeIdentifier _ => []
  | typeExpr (.array component _) => [typeExpr component]
  | typeExpr _ => []

def tree : Node → NodeTree
  | file f => f.tree
  | imported i => .node (imported i) []
  | declaration d => d.tree
  | owned m => m.tree
  | parameter p => p.tree
  | relationField f => f.tree
  | statement s => s.tree
  | elif e => e.tree
  | caught c => c.tree
  | expression e => e.tree
  | argument a => a.tree
  | typeIdentifier t => t.tree
  | typeExpr a => a.tree

end Node

/-! ## Trees -/

theorem exprs_trees (es : List Expr) : Expr.trees es = (es.map Node.expression).map Node.tree := by
  induction es with
  | nil => simp [Expr.trees]
  | cons e es ih => simp [Expr.trees, ih, Node.tree]

theorem arguments_trees (args : List Argument) :
    Argument.trees args = (args.map Node.argument).map Node.tree := by
  induction args with
  | nil => simp [Argument.trees]
  | cons arg args ih => simp [Argument.trees, ih, Node.tree]

theorem stmts_trees (ss : List Stmt) : Stmt.trees ss = (ss.map Node.statement).map Node.tree := by
  induction ss with
  | nil => simp [Stmt.trees]
  | cons s ss ih => simp [Stmt.trees, ih, Node.tree]

theorem optionStmt_trees (o : Option Stmt) :
    Stmt.optionTrees o = (o.toList.map Node.statement).map Node.tree := by
  cases o <;> simp [Stmt.optionTrees, Node.tree]

theorem elifs_trees (es : List Elif) : Elif.trees es = (es.map Node.elif).map Node.tree := by
  induction es with
  | nil => simp [Elif.trees]
  | cons e es ih => simp [Elif.trees, ih, Node.tree]

theorem catches_trees (cs : List Catch) : Catch.trees cs = (cs.map Node.caught).map Node.tree := by
  induction cs with
  | nil => simp [Catch.trees]
  | cons c cs ih => simp [Catch.trees, ih, Node.tree]

theorem Expr.tree_eq (e : Expr) : e.tree = .node (.expression e) (e.children.map Node.tree) := by
  cases e <;>
    simp [Expr.tree, Expr.children, exprs_trees, arguments_trees, Node.tree]

theorem Stmt.tree_eq (s : Stmt) : s.tree = .node (.statement s) (s.children.map Node.tree) := by
  cases s <;>
    simp [Stmt.tree, Stmt.children, stmts_trees, elifs_trees, optionStmt_trees, catches_trees, Node.tree]

theorem Routine.parts_eq (r : Routine) : r.parts = r.children.map Node.tree := by
  simp [Routine.parts, Routine.children, Node.tree]

theorem Declaration.tree_eq (d : Declaration) :
    d.tree = .node (.declaration d) ((Node.declaration d).children.map Node.tree) := by
  obtain ⟨context, number, member⟩ := d
  cases member <;> simp [Declaration.tree, Node.children, Node.tree, Routine.parts_eq]

theorem OwnedMember.tree_eq (m : OwnedMember) :
    m.tree = .node (.owned m) ((Node.owned m).children.map Node.tree) := by
  obtain ⟨namespaceText, owner, member⟩ := m
  cases member <;> simp [OwnedMember.tree, Node.children, Node.tree, Routine.parts_eq]

namespace Node

theorem tree_eq (node : Node) : node.tree = .node node (node.children.map tree) := by
  cases node with
  | file f => simp [tree, children, SourceFile.tree, Function.comp_def]
  | imported i => simp [tree, children]
  | declaration d => exact d.tree_eq
  | owned m => exact m.tree_eq
  | parameter p => simp [tree, children, Parameter.tree]
  | relationField f => simp [tree, children, RelationField.tree]
  | statement s => exact s.tree_eq
  | elif e =>
    cases e
    simp [tree, children, Elif.tree, Elif.condition, Elif.body]
  | caught c =>
    cases c
    simp [tree, children, Catch.tree, Catch.type, Catch.body]
  | expression e => exact e.tree_eq
  | argument a =>
    cases a
    simp [tree, children, Argument.tree, Argument.value]
  | typeIdentifier t => simp [tree, children, TypeIdentifier.tree]
  | typeExpr a => cases a <;> simp [tree, children, TypeExpr.tree]

@[simp] theorem children_tree (node : Node) : node.tree.children = node.children.map tree := by
  rw [tree_eq]
  rfl

end Node

/-! ## Induction -/

theorem Tree.size_le_sizes {α : Type} {t : Tree α} {ts : List (Tree α)} (h : t ∈ ts) :
    t.size ≤ sizes ts := by
  induction ts with
  | nil => simp at h
  | cons u ts ih =>
    simp only [sizes]
    rcases List.mem_cons.mp h with rfl | h
    · omega
    · have := ih h
      omega

namespace Node

theorem size_child_lt {node child : Node} (h : child ∈ node.children) :
    child.tree.size < node.tree.size := by
  have hle := Tree.size_le_sizes (List.mem_map_of_mem (f := tree) h)
  rw [tree_eq node, Tree.size]
  omega

@[elab_as_elim]
theorem induction {P : Node → Prop} (step : ∀ node, (∀ child ∈ node.children, P child) → P node)
    (node : Node) : P node :=
  step node fun child _ => induction step child
termination_by node.tree.size
decreasing_by exact size_child_lt (by assumption)

theorem preorder_tree (node : Node) :
    node.tree.preorder = node :: node.children.flatMap fun child => child.tree.preorder := by
  rw [tree_eq, Tree.preorder_node, List.flatMap_map]

theorem mem_preorder_self (node : Node) : node ∈ node.tree.preorder := by
  rw [preorder_tree]
  exact List.mem_cons_self

theorem mem_preorder_of_mem_child {node child below : Node} (hchild : child ∈ node.children)
    (h : below ∈ child.tree.preorder) : below ∈ node.tree.preorder := by
  rw [preorder_tree]
  exact List.mem_cons_of_mem _ (List.mem_flatMap.mpr ⟨child, hchild, h⟩)

theorem inner_tree {node : Node} (h : node.isInner = true) : Inner node.tree := by
  cases node with
  | file f | imported i | declaration d | owned m => simp [isInner] at h
  | parameter p | relationField f => exact inner_node rfl (by simp [inner_typeExpr])
  | statement s => exact inner_stmt s
  | elif e => exact inner_elifs [e] _ (by simp [Elif.trees, tree])
  | caught c => exact inner_catches [c] _ (by simp [Catch.trees, tree])
  | expression e => exact inner_expr e
  | argument a => exact inner_arguments [a] _ (by simp [Argument.trees, tree])
  | typeIdentifier t => exact inner_typeIdentifier t
  | typeExpr a => exact inner_typeExpr a

theorem inner_child {node child : Node} (h : node.isInner = true) (hchild : child ∈ node.children) :
    Inner child.tree :=
  fun below hbelow => inner_tree h below (mem_preorder_of_mem_child hchild hbelow)

end Node

/-- What holds of an expression whenever it holds of the expressions right inside of it holds of all. -/
@[elab_as_elim]
theorem Expr.induction {P : Expr → Prop}
    (literal : ∀ value pos, P (.literal value pos))
    (name : ∀ name pos, P (.name name pos))
    (interpolation : ∀ parts pos, (∀ part ∈ parts, P part) → P (.interpolation parts pos))
    (staticField : ∀ subject field pos, P (.staticField subject field pos))
    (field : ∀ subject field pos, P subject → P (.field subject field pos))
    (methodCall : ∀ subject method args pos, P subject → (∀ arg ∈ args, P arg.value) →
      P (.methodCall subject method args pos))
    (call : ∀ callee args pos, P callee → (∀ arg ∈ args, P arg.value) → P (.call callee args pos))
    (index : ∀ array position pos, P array → P position → P (.index array position pos))
    (creation : ∀ typeName args pos, (∀ arg ∈ args, P arg.value) → P (.creation typeName args pos))
    (negation : ∀ operand pos, P operand → P (.negation operand pos))
    (binary : ∀ op left right pos, P left → P right → P (.binary op left right pos))
    (e : Expr) : P e := by
  -- Arguments are nodes between an expression and their values.
  suffices h : ∀ node : Node,
      (∀ e, node = .expression e → P e) ∧ ∀ arg, node = .argument arg → P arg.value from
    (h (.expression e)).1 e rfl
  intro node
  induction node using Node.induction with
  | step node ih =>
    have inside : ∀ e, .expression e ∈ node.children → P e := fun e he => (ih _ he).1 e rfl
    have argument : ∀ arg, .argument arg ∈ node.children → P arg.value :=
      fun arg harg => (ih _ harg).2 arg rfl
    refine ⟨?_, ?_⟩
    · rintro e rfl
      cases e with
      | literal value pos => exact literal value pos
      | name n pos => exact name n pos
      | interpolation parts pos =>
        exact interpolation parts pos fun part hpart => inside part (List.mem_map_of_mem hpart)
      | staticField subject f pos => exact staticField subject f pos
      | field subject f pos =>
        exact field subject f pos (inside subject (by simp [Node.children, Expr.children]))
      | methodCall subject method args pos =>
        refine methodCall subject method args pos ?_ fun arg harg => ?_
        · exact inside subject (by simp [Node.children, Expr.children])
        · exact argument arg (by simp [Node.children, Expr.children, harg])
      | call callee args pos =>
        refine call callee args pos ?_ fun arg harg => ?_
        · exact inside callee (by simp [Node.children, Expr.children])
        · exact argument arg (by simp [Node.children, Expr.children, harg])
      | index array position pos =>
        refine index array position pos ?_ ?_
        · exact inside array (by simp [Node.children, Expr.children])
        · exact inside position (by simp [Node.children, Expr.children])
      | creation typeName args pos =>
        exact creation typeName args pos fun arg harg => argument arg (List.mem_map_of_mem harg)
      | negation operand pos =>
        exact negation operand pos (inside operand (by simp [Node.children, Expr.children]))
      | binary op left right pos =>
        refine binary op left right pos ?_ ?_
        · exact inside left (by simp [Node.children, Expr.children])
        · exact inside right (by simp [Node.children, Expr.children])
    · rintro arg rfl
      exact inside arg.value (by simp [Node.children])

/-- What holds of a statement whenever it holds of the statements right inside of it holds of all. -/
@[elab_as_elim]
theorem Stmt.induction {P : Stmt → Prop}
    (block : ∀ body pos, (∀ s ∈ body, P s) → P (.block body pos))
    (expression : ∀ value pos, P (.expression value pos))
    (variableDecl : ∀ name value written pos, P (.variable name value written pos))
    (conditional : ∀ condition thenBody elifs elseBody pos, P thenBody →
      (∀ e ∈ elifs, P e.body) → (∀ s ∈ elseBody, P s) →
      P (.conditional condition thenBody elifs elseBody pos))
    (returns : ∀ value pos, P (.returns value pos))
    (throws : ∀ value pos, P (.throws value pos))
    (tryCatch : ∀ body catches pos, P body → (∀ c ∈ catches, P c.body) →
      P (.tryCatch body catches pos))
    (s : Stmt) : P s := by
  -- Elif and catch clauses are nodes between a statement and those inside of it.
  suffices h : ∀ node : Node,
      (∀ s, node = .statement s → P s) ∧ (∀ e, node = .elif e → P e.body) ∧
        ∀ c, node = .caught c → P c.body from (h (.statement s)).1 s rfl
  intro node
  induction node using Node.induction with
  | step node ih =>
    have inside : ∀ s, .statement s ∈ node.children → P s := fun s hs => (ih _ hs).1 s rfl
    refine ⟨?_, ?_, ?_⟩
    · rintro s rfl
      cases s with
      | block body pos =>
        exact block body pos fun s hs => inside s (List.mem_map_of_mem hs)
      | expression value pos => exact expression value pos
      | «variable» name value written pos => exact variableDecl name value written pos
      | conditional condition thenBody elifs elseBody pos =>
        refine conditional condition thenBody elifs elseBody pos ?_ ?_ ?_
        · exact inside thenBody (by simp [Node.children, Stmt.children])
        · intro e he
          exact (ih (.elif e) (by simp [Node.children, Stmt.children, he])).2.1 e rfl
        · intro s hs
          exact inside s (by simp [Node.children, Stmt.children, Option.mem_def.mp hs])
      | returns value pos => exact returns value pos
      | throws value pos => exact throws value pos
      | tryCatch body catches pos =>
        refine tryCatch body catches pos ?_ ?_
        · exact inside body (by simp [Node.children, Stmt.children])
        · intro c hc
          exact (ih (.caught c) (by simp [Node.children, Stmt.children, hc])).2.2 c rfl
    · rintro e rfl
      exact inside e.body (by simp [Node.children])
    · rintro c rfl
      exact inside c.body (by simp [Node.children])

end SemanticCheck
