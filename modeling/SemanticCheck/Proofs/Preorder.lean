import SemanticCheck.Proofs.Verdict

/-!
# The nodes of a file

The walk checks every node of the tree, once and in preorder. What a file declares and writes is among
its nodes, so a file about which nothing was recorded passes the check of each of them.
-/

namespace SemanticCheck

/-! ## Preorder -/

namespace Tree

variable {α : Type}

theorem subtreesOf_eq (ts : List (Tree α)) : subtreesOf ts = ts.flatMap subtrees := by
  induction ts with
  | nil => simp [subtreesOf]
  | cons t ts ih => simp [subtreesOf, ih]

@[simp] theorem preorder_node (a : α) (ts : List (Tree α)) :
    (node a ts).preorder = a :: ts.flatMap preorder := by
  simp [preorder, subtrees, subtreesOf_eq, label, List.map_flatMap]
  rfl

theorem label_mem_preorder (t : Tree α) : t.label ∈ t.preorder := by
  cases t
  simp [label]

theorem mem_preorder_of_child {t child : Tree α} {a : α} (hchild : child ∈ t.children)
    (ha : a ∈ child.preorder) : a ∈ t.preorder := by
  cases t with
  | node b ts =>
    rw [preorder_node]
    exact List.mem_cons_of_mem b (List.mem_flatMap.mpr ⟨child, hchild, ha⟩)

/-- A stack gives its trees one after the other, each in preorder. -/
theorem unstack_eq (stack : List (Tree α)) : unstack stack = stack.flatMap preorder := by
  induction stack using unstack.induct with
  | case1 => simp [unstack]
  | case2 a ts stack ih =>
    rw [unstack, ih, List.flatMap_cons, preorder_node, List.flatMap_append, List.cons_append]

theorem descendants_eq_preorder (t : Tree α) : t.descendants = t.preorder := by
  rw [descendants, unstack_eq, List.flatMap_singleton]

end Tree

/-! ## The nodes the walk checks -/

namespace Site

mutual

theorem trace_nodes (site : Site) (t : NodeTree) (st : ValidationState) :
    (site.trace t st).map (·.1) = t.preorder := by
  cases t with
  | node node children =>
    have hchildren := traceAll_nodes site children (site.check node (site.enter node st)).2
    simp only [trace, List.map_cons, Tree.preorder_node]
    rw [hchildren]

theorem traceAll_nodes (site : Site) (ts : List NodeTree) (st : ValidationState) :
    (site.traceAll ts st).map (·.1) = ts.flatMap (·.preorder) := by
  cases ts with
  | nil => simp [traceAll]
  | cons t ts =>
    have hfirst := trace_nodes site t st
    have hrest := traceAll_nodes site ts (site.validate t st).2
    simp only [traceAll, List.map_append, List.flatMap_cons]
    rw [hfirst, hrest]

end

mutual

theorem recorded_of_mem_trace (site : Site) (t : NodeTree) (st : ValidationState) {node : Node}
    {found : List Diagnostic} (h : (node, found) ∈ site.trace t st) :
    ∃ entered, found = recorded (site.check node) entered := by
  cases t with
  | node root children =>
    simp only [trace, List.mem_cons, Prod.mk.injEq] at h
    rcases h with ⟨rfl, rfl⟩ | h
    · exact ⟨_, rfl⟩
    · exact recorded_of_mem_traceAll site children _ h

theorem recorded_of_mem_traceAll (site : Site) (ts : List NodeTree) (st : ValidationState)
    {node : Node} {found : List Diagnostic} (h : (node, found) ∈ site.traceAll ts st) :
    ∃ entered, found = recorded (site.check node) entered := by
  cases ts with
  | nil => simp [traceAll] at h
  | cons t ts =>
    simp only [traceAll, List.mem_append] at h
    rcases h with h | h
    · exact recorded_of_mem_trace site t st h
    · exact recorded_of_mem_traceAll site ts _ h

end

/-- The check of the node is passed from some state of the walk. -/
def Passes (site : Site) (node : Node) : Prop := ∃ st, (site.check node st).1 = true

theorem passes_of_nothing_recorded (site : Site) (h : site.validateFile.2.entries = [])
    {node : Node} (hnode : node ∈ site.file.tree.preorder) : site.Passes node := by
  rw [validateFile_entries, List.flatMap_eq_nil_iff] at h
  rw [← site.trace_nodes site.file.tree {}] at hnode
  obtain ⟨⟨node', found⟩, hmem, rfl⟩ := List.mem_map.mp hnode
  obtain ⟨entered, rfl⟩ := site.recorded_of_mem_trace _ _ hmem
  have hnone : recorded (site.check node') entered = [] := h _ hmem
  refine ⟨entered, ?_⟩
  rw [(site.honest_check node').verdict entered, hnone]
  rfl

end Site

/-! ## What stands in a file -/

namespace SourceFile

/-- Everything in the tree is in the file. -/
def Holds (f : SourceFile) (t : NodeTree) : Prop := ∀ node ∈ t.preorder, node ∈ f.tree.preorder

theorem Holds.child {f : SourceFile} {t child : NodeTree} (h : f.Holds t)
    (hchild : child ∈ t.children) : f.Holds child :=
  fun node hnode => h node (Tree.mem_preorder_of_child hchild hnode)

theorem Holds.label {f : SourceFile} {t : NodeTree} (h : f.Holds t) :
    t.label ∈ f.tree.preorder := h _ t.label_mem_preorder

theorem mem_declarations {f : SourceFile} {d : Declaration} :
    d ∈ f.declarations ↔ d.context = f.context ∧ f.members[d.number]? = some d.member := by
  simp only [declarations, List.mem_map, Prod.exists]
  constructor
  · rintro ⟨m, n, hm, rfl⟩
    exact ⟨rfl, List.mk_mem_zipIdx_iff_getElem?.mp hm⟩
  · rintro ⟨hcontext, hm⟩
    exact ⟨d.member, d.number, List.mk_mem_zipIdx_iff_getElem?.mpr hm, by rw [← hcontext]⟩

theorem holds_declaration {f : SourceFile} {n : Nat} {m : Member} (hm : f.members[n]? = some m) :
    f.Holds (Declaration.mk f.context n m).tree := by
  intro node hnode
  refine Tree.mem_preorder_of_child ?_ hnode
  have hd : Declaration.mk f.context n m ∈ f.declarations := mem_declarations.mpr ⟨rfl, hm⟩
  exact List.mem_append_right _ (List.mem_map.mpr ⟨_, hd, rfl⟩)

/-- Annotations of the parameters and the result. -/
def HoldsSignature (f : SourceFile) (r : Routine) : Prop :=
  f.Holds r.result.tree ∧ ∀ p ∈ r.params, f.Holds p.type.tree

theorem holdsSignature_of_parts {f : SourceFile} {r : Routine} (h : ∀ t ∈ r.parts, f.Holds t) :
    f.HoldsSignature r := by
  refine ⟨h _ (by simp [Routine.parts]), ?_⟩
  intro p hp
  have hparam : f.Holds p.tree :=
    h _ (by simp only [Routine.parts, List.mem_cons, List.mem_append, List.mem_map]
            exact Or.inr (Or.inl ⟨p, hp, rfl⟩))
  exact hparam.child (by simp [Parameter.tree, Tree.children])

theorem holds_property {f : SourceFile} {n : Nat} {p : Property}
    (hm : f.members[n]? = some (.property p)) : f.Holds p.type.tree :=
  (holds_declaration hm).child (by simp [Declaration.tree, Tree.children])

theorem holds_function {f : SourceFile} {n : Nat} {r : Routine}
    (hm : f.members[n]? = some (.function r)) : f.HoldsSignature r :=
  holdsSignature_of_parts fun _ ht => (holds_declaration hm).child ht

theorem holds_typeMember {f : SourceFile} {n : Nat} {t : TypeDefinition} {m : TypeMember}
    (hm : f.members[n]? = some (.type t)) (hmem : m ∈ t.members) :
    f.Holds (OwnedMember.mk f.context (qualify f.context t.name) m).tree :=
  (holds_declaration hm).child (List.mem_map.mpr ⟨m, hmem, rfl⟩)

end SourceFile

/-! ## Inside of declarations -/

/-- A part of a body, a signature or an annotation. -/
def Node.isInner : Node → Bool
  | file _ | imported _ | declaration _ | owned _ => false
  | _ => true

def Inner (t : NodeTree) : Prop := ∀ node ∈ t.preorder, node.isInner = true

theorem inner_node {root : Node} {children : List NodeTree} (hroot : root.isInner = true)
    (hchildren : ∀ t ∈ children, Inner t) : Inner (.node root children) := by
  intro node hnode
  rw [Tree.preorder_node, List.mem_cons, List.mem_flatMap] at hnode
  rcases hnode with rfl | ⟨t, ht, hnode⟩
  · exact hroot
  · exact hchildren t ht node hnode

theorem inner_typeExpr (a : TypeExpr) : Inner a.tree := by
  induction a with
  | array component pos ih => exact inner_node rfl (by simp [ih])
  | _ => exact inner_node rfl (by simp)

theorem inner_typeIdentifier (t : TypeIdentifier) : Inner t.tree := inner_node rfl (by simp)

mutual

theorem inner_expr (e : Expr) : Inner e.tree := by
  cases e with
  | literal | name =>
    rw [Expr.tree]
    exact inner_node rfl (by simp)
  | interpolation parts =>
    rw [Expr.tree]
    exact inner_node rfl (inner_exprs parts)
  | staticField subject =>
    rw [Expr.tree]
    exact inner_node rfl (by simp [inner_typeIdentifier])
  | field subject =>
    have hsubject := inner_expr subject
    rw [Expr.tree]
    exact inner_node rfl (by simp [hsubject])
  | methodCall subject _ args =>
    rw [Expr.tree]
    exact inner_node rfl (List.forall_mem_cons.mpr ⟨inner_expr subject, inner_arguments args⟩)
  | call callee args =>
    rw [Expr.tree]
    exact inner_node rfl (List.forall_mem_cons.mpr ⟨inner_expr callee, inner_arguments args⟩)
  | index array index =>
    have harray := inner_expr array
    have hindex := inner_expr index
    rw [Expr.tree]
    exact inner_node rfl (by simp [harray, hindex])
  | creation _ args =>
    rw [Expr.tree]
    exact inner_node rfl (inner_arguments args)
  | negation operand =>
    have hoperand := inner_expr operand
    rw [Expr.tree]
    exact inner_node rfl (by simp [hoperand])
  | binary _ left right =>
    have hleft := inner_expr left
    have hright := inner_expr right
    rw [Expr.tree]
    exact inner_node rfl (by simp [hleft, hright])

theorem inner_exprs (es : List Expr) : ∀ t ∈ Expr.trees es, Inner t := by
  cases es with
  | nil => simp [Expr.trees]
  | cons e rest =>
    rw [Expr.trees]
    exact List.forall_mem_cons.mpr ⟨inner_expr e, inner_exprs rest⟩

theorem inner_arguments (args : List Argument) : ∀ t ∈ Argument.trees args, Inner t := by
  cases args with
  | nil => simp [Argument.trees]
  | cons arg rest =>
    cases arg with
    | mk name value pos =>
      have hvalue := inner_expr value
      rw [Argument.trees, Argument.tree]
      exact List.forall_mem_cons.mpr ⟨inner_node rfl (by simp [hvalue]), inner_arguments rest⟩

end

mutual

theorem inner_stmt (s : Stmt) : Inner s.tree := by
  cases s with
  | block body =>
    rw [Stmt.tree]
    exact inner_node rfl (inner_stmts body)
  | expression value | throws value =>
    rw [Stmt.tree]
    exact inner_node rfl (by simp [inner_expr])
  | «variable» name value written =>
    rw [Stmt.tree]
    refine inner_node rfl (List.forall_mem_append.mpr ⟨?_, by simp [inner_expr]⟩)
    simp [inner_typeExpr]
  | conditional condition thenBody elifs elseBody =>
    have hthen := inner_stmt thenBody
    rw [Stmt.tree]
    refine inner_node rfl (List.forall_mem_cons.mpr ⟨inner_expr condition, ?_⟩)
    refine List.forall_mem_cons.mpr ⟨hthen, List.forall_mem_append.mpr ⟨inner_elifs elifs, ?_⟩⟩
    exact inner_optionStmt elseBody
  | returns value =>
    rw [Stmt.tree]
    exact inner_node rfl (by simp [inner_expr])
  | tryCatch body catches =>
    rw [Stmt.tree]
    exact inner_node rfl (List.forall_mem_cons.mpr ⟨inner_stmt body, inner_catches catches⟩)

theorem inner_stmts (ss : List Stmt) : ∀ t ∈ Stmt.trees ss, Inner t := by
  cases ss with
  | nil => simp [Stmt.trees]
  | cons s rest =>
    rw [Stmt.trees]
    exact List.forall_mem_cons.mpr ⟨inner_stmt s, inner_stmts rest⟩

theorem inner_optionStmt (o : Option Stmt) : ∀ t ∈ Stmt.optionTrees o, Inner t := by
  cases o with
  | none => simp [Stmt.optionTrees]
  | some s =>
    have hs := inner_stmt s
    rw [Stmt.optionTrees]
    simp [hs]

theorem inner_elifs (es : List Elif) : ∀ t ∈ Elif.trees es, Inner t := by
  cases es with
  | nil => simp [Elif.trees]
  | cons e rest =>
    cases e with
    | mk condition body pos =>
      have hbody := inner_stmt body
      rw [Elif.trees, Elif.tree]
      refine List.forall_mem_cons.mpr ⟨inner_node rfl ?_, inner_elifs rest⟩
      simp [inner_expr, hbody]

theorem inner_catches (cs : List Catch) : ∀ t ∈ Catch.trees cs, Inner t := by
  cases cs with
  | nil => simp [Catch.trees]
  | cons c rest =>
    cases c with
    | mk type name body pos =>
      have hbody := inner_stmt body
      rw [Catch.trees, Catch.tree]
      refine List.forall_mem_cons.mpr ⟨inner_node rfl ?_, inner_catches rest⟩
      simp [inner_typeIdentifier, hbody]

end

theorem inner_parts (r : Routine) : ∀ t ∈ r.parts, Inner t := by
  refine List.forall_mem_cons.mpr ⟨inner_typeExpr r.result, List.forall_mem_append.mpr ⟨?_, ?_⟩⟩
  · intro t ht
    obtain ⟨p, -, rfl⟩ := List.mem_map.mp ht
    exact inner_node rfl (by simp [inner_typeExpr])
  · simp [inner_stmt]

theorem inner_owned (m : OwnedMember) : ∀ t ∈ m.tree.children, Inner t := by
  obtain ⟨namespaceText, owner, member⟩ := m
  cases member with
  | property p => simp [OwnedMember.tree, Tree.children, inner_typeExpr]
  | reference r => simp [OwnedMember.tree, Tree.children]
  | method r => exact inner_parts r

/-- Below a declaration stand the members of a type, and nothing else that is declared. -/
theorem below_declaration {d : Declaration} {t : NodeTree} {node : Node} (ht : t ∈ d.tree.children)
    (hnode : node ∈ t.preorder) :
    node.isInner = true ∨ ∃ m, node = .owned ⟨d.context, d.qualifiedName, m⟩ := by
  obtain ⟨context, number, member⟩ := d
  cases member with
  | type type =>
    obtain ⟨m, -, rfl⟩ := List.mem_map.mp ht
    rw [OwnedMember.tree, Tree.preorder_node, List.mem_cons, List.mem_flatMap] at hnode
    rcases hnode with rfl | ⟨t', ht', hnode⟩
    · exact .inr ⟨m, rfl⟩
    · exact .inl (inner_owned _ t' ht' node hnode)
  | property p =>
    obtain rfl := List.mem_singleton.mp ht
    exact .inl (inner_typeExpr p.type node hnode)
  | function r => exact .inl (inner_parts r t ht node hnode)
  | program p =>
    obtain rfl := List.mem_singleton.mp ht
    exact .inl (inner_stmt p.body node hnode)
  | relation r =>
    obtain ⟨field, -, rfl⟩ := List.mem_map.mp ht
    exact .inl (inner_node rfl (by simp [inner_typeExpr]) node hnode)

theorem preorder_declaration (d : Declaration) :
    d.tree.preorder = .declaration d :: d.tree.children.flatMap (·.preorder) := by
  rw [Declaration.tree, Tree.preorder_node]
  rfl

namespace SourceFile

theorem preorder_tree (f : SourceFile) :
    f.tree.preorder = .file f :: (f.imports.map .imported ++ f.declarations.flatMap (·.tree.preorder)) := by
  rw [tree, Tree.preorder_node, List.flatMap_append, List.flatMap_map, List.flatMap_map]
  simp [List.map_eq_flatMap]

/-- A node of a file is a declaration, a member of a type of the file, or has no name to own. -/
theorem node_cases {f : SourceFile} {node : Node} (h : node ∈ f.tree.preorder) :
    (∃ d ∈ f.declarations, node = .declaration d) ∨
    (∃ name m, node = .owned ⟨f.context, qualify f.context name, m⟩) ∨
    (∀ d, node ≠ .declaration d) ∧ ∀ site : Site, ¬ site.ownsName node := by
  rw [preorder_tree, List.mem_cons, List.mem_append, List.mem_map, List.mem_flatMap] at h
  rcases h with rfl | ⟨i, -, rfl⟩ | ⟨d, hd, hnode⟩
  · exact .inr (.inr ⟨by simp, fun _ => id⟩)
  · exact .inr (.inr ⟨by simp, fun _ => id⟩)
  · rw [preorder_declaration, List.mem_cons, List.mem_flatMap] at hnode
    rcases hnode with rfl | ⟨t, ht, hnode⟩
    · exact .inl ⟨d, hd, rfl⟩
    · rcases below_declaration ht hnode with hinner | ⟨m, rfl⟩
      · refine .inr (.inr ?_)
        cases node <;> simp_all [Node.isInner, Site.ownsName]
      · obtain ⟨hcontext, -⟩ := mem_declarations.mp hd
        exact .inr (.inl ⟨d.name, m, by rw [Declaration.qualifiedName, hcontext]; rfl⟩)

theorem flatMap_preorder {β : Type} (f : SourceFile) {g : Node → List β}
    (hg : ∀ node, (∀ d, node ≠ .declaration d) → g node = []) :
    f.tree.preorder.flatMap g = f.declarations.flatMap fun d => g (.declaration d) := by
  have hbelow : ∀ d : Declaration, d.tree.preorder.flatMap g = g (.declaration d) := by
    intro d
    rw [preorder_declaration, List.flatMap_cons, List.flatMap_eq_nil_iff.mpr, List.append_nil]
    intro node hnode
    obtain ⟨t, ht, hnode⟩ := List.mem_flatMap.mp hnode
    refine hg node fun d' heq => ?_
    rcases below_declaration ht hnode with hinner | ⟨m, rfl⟩
    · simp [heq, Node.isInner] at hinner
    · cases heq
  have himports : (f.imports.map Node.imported).flatMap g = [] := by
    rw [List.flatMap_map, List.flatMap_eq_nil_iff]
    exact fun i _ => hg _ (by simp)
  rw [preorder_tree, List.flatMap_cons, List.flatMap_append, himports, hg (.file f) (by simp),
    List.flatMap_assoc]
  simp only [hbelow, List.nil_append]

end SourceFile

end SemanticCheck
