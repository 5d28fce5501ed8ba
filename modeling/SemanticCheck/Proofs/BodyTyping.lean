import SemanticCheck.Proofs.StmtTyping
import SemanticCheck.Proofs.Traversal

/-!
# Typed bodies

Functions, methods and programs stand outside of every body, so the walk over a file comes to each of
them with no local names. The walk over the body finds nothing exactly when the body is typed, from the
parameters on.
-/

namespace SemanticCheck

namespace Site

variable (site : Site)

/-! ## Where declarations are met -/

theorem visits_siblings {nodes : List Node} {visit : Node × ValidationState}
    (hshare : ∀ child ∈ nodes, child.sharesScope = false)
    (ih : ∀ child ∈ nodes, ∀ st, visit ∈ site.visits st child.tree.tour → visit.2.env = st.env)
    (st : ValidationState) (h : visit ∈ site.visits st (Tree.tours (nodes.map Node.tree))) :
    visit.2.env = st.env := by
  induction nodes generalizing st with
  | nil => simp [Tree.tours, visits] at h
  | cons node nodes ihRest =>
    rw [List.forall_mem_cons] at hshare ih
    rw [List.map_cons, Tree.tours, visits_append, List.mem_append, ← validate_eq_foldl] at h
    rcases h with h | h
    · exact ih.1 st h
    · rw [ihRest hshare.2 ih.2 _ h]
      exact site.validate_env hshare.1 st

/-- The walk comes to every declaration and every member of a type with the local names it began with. -/
theorem visits_env (root : Node) (start : ValidationState) {visit : Node × ValidationState}
    (h : visit ∈ site.visits start root.tree.tour) (hdeclares : visit.1.isInner = false) :
    visit.2.env = start.env := by
  induction root using Node.induction generalizing start with
  | step root ih =>
    rw [Node.tree_eq, Tree.tour, visits, List.mem_cons, visits_append, List.mem_append] at h
    rcases h with rfl | h | h
    · rfl
    · by_cases hinner : ∀ child ∈ root.children, Inner child.tree
      · -- Nothing is declared below.
        have hnode : visit.1 ∈ (root.children.map Node.tree).flatMap Tree.preorder := by
          rw [← Tree.tours_arrivals, ← visits_nodes]
          exact List.mem_map_of_mem h
        obtain ⟨t, ht, hnode⟩ := List.mem_flatMap.mp hnode
        obtain ⟨child, hchild, rfl⟩ := List.mem_map.mp ht
        rw [hinner child hchild _ hnode] at hdeclares
        cases hdeclares
      · have hplain : root.opensScope = false := by
          rw [← Bool.not_eq_true]
          exact fun hopens => hinner (Node.inner_of_opensScope hopens)
        have hshare : ∀ child ∈ root.children, child.sharesScope = false := by
          intro child hchild
          rw [← Bool.not_eq_true]
          exact fun hshares =>
            hinner (Node.inner_of_sharesScope (Node.sharesScope_of_child hchild hplain hshares))
        have hstep := site.visits_siblings hshare (fun child hchild st hst => ih child hchild st hst) _ h
        rw [hstep, step, check_env]
        exact (site.enter_plain hplain start).1
    · simp [visits] at h

end Site

/-! ## Bodies -/

/-- A body, with what the rules start from: the expected result and the local names. -/
structure Body where
  stmt : Stmt
  expected : Option Ty
  locals : LocalScope

namespace Site

/-- The parameters whose annotations can be resolved, the last one first. -/
def paramTypes (site : Site) (params : List Parameter) : LocalScope :=
  (params.filterMap fun p => (site.denoted? p.type).map (p.name, ·)).reverse

def routineBody (site : Site) (r : Routine) : Body :=
  ⟨r.body, site.denoted? r.result, site.paramTypes r.params⟩

/-- The body of a function, method or program. A program returns nothing and is given texts. -/
def body? (site : Site) : Node → Option Body
  | .declaration ⟨_, _, .function f⟩ => some (site.routineBody f)
  | .declaration ⟨_, _, .program p⟩ => some ⟨p.body, some .void, [(p.param, .array .string)]⟩
  | .owned ⟨_, _, .method m⟩ => some (site.routineBody m)
  | _ => none

/-- What is known once the walk over a function, method or program has come to the body: the children
before it are the annotation of the result and the parameters. -/
def bodyStart (site : Site) (node : Node) (st : ValidationState) : ValidationState :=
  (site.validateAll node.tree.children.dropLast (site.check node (site.enter node st)).2).2

variable (site : Site)

theorem defineParams_inner (params : List Parameter) (env : TypeEnv) :
    (site.defineParams params env).inner = site.paramTypes params ++ env.inner := by
  unfold defineParams paramTypes
  induction params generalizing env with
  | nil => rfl
  | cons p params ih =>
    rw [List.foldl_cons, ih, List.filterMap_cons]
    cases site.denoted? p.type with
    | none => rfl
    | some type => simp [TypeEnv.define]

theorem sees_openRoutine (r : Routine) {st : ValidationState} (henv : st.env = .empty) :
    Sees (site.openRoutine r st).env (site.paramTypes r.params) := by
  have hinner := site.defineParams_inner r.params st.env.push
  have houter := site.defineParams_outer r.params st.env.push
  rw [henv] at hinner houter
  refine .of_single ?_ ?_
  · rw [openRoutine, henv, hinner]
    exact List.append_nil _
  · rw [openRoutine, henv, houter]
    rfl

section Bodies

variable {site} {node : Node} {body : Body}

theorem enter_body (h : site.body? node = some body) {st : ValidationState} (henv : st.env = .empty) :
    Sees (site.enter node st).env body.locals ∧ (site.enter node st).expected? = body.expected := by
  unfold body? at h
  split at h
  · cases h
    exact ⟨site.sees_openRoutine _ henv, rfl⟩
  · cases h
    refine ⟨?_, rfl⟩
    simp only [enter, henv]
    exact .of_single rfl rfl
  · cases h
    exact ⟨site.sees_openRoutine _ henv, rfl⟩
  · cases h

/-- The body is the last child, and nothing before it defines a name. -/
theorem body_children (h : site.body? node = some body) :
    ∃ signature, node.children = signature ++ [.statement body.stmt] ∧
      ∀ child ∈ signature, child.sharesScope = false := by
  have hroutine : ∀ r : Routine, ∃ signature, r.children = signature ++ [.statement r.body] ∧
      ∀ child ∈ signature, child.sharesScope = false := by
    intro r
    refine ⟨.typeExpr r.result :: r.params.map .parameter, rfl, ?_⟩
    simp [Node.sharesScope]
  unfold body? at h
  split at h
  · cases h
    exact hroutine _
  · cases h
    exact ⟨[], rfl, by simp⟩
  · cases h
    exact hroutine _
  · cases h

theorem validate_body (h : site.body? node = some body) (st : ValidationState) :
    (site.validate node.tree st).2
      = site.leave node (site.validate body.stmt.tree (site.bodyStart node st)).2 := by
  obtain ⟨signature, hchildren, -⟩ := body_children h
  rw [bodyStart, Node.children_tree, Node.tree_eq, validate_node, hchildren, List.map_append,
    validateAll_append]
  simp [validateAll, Node.tree]

theorem bodyStart_sees (h : site.body? node = some body) {st : ValidationState}
    (henv : st.env = .empty) :
    Sees (site.bodyStart node st).env body.locals ∧
      (site.bodyStart node st).expected? = body.expected := by
  obtain ⟨signature, hchildren, hshare⟩ := body_children h
  obtain ⟨hsees, hexpected⟩ := enter_body h henv
  have hstart : site.bodyStart node st
      = (site.validateAll (signature.map Node.tree) (site.check node (site.enter node st)).2).2 := by
    rw [bodyStart, Node.children_tree, hchildren, List.map_append, List.map_singleton,
      List.dropLast_concat]
  have hreturns := site.validateAll_returns signature (site.check node (site.enter node st)).2
  rw [hstart, site.validateAll_env hshare, check_env]
  refine ⟨hsees, ?_⟩
  rw [← hexpected]
  simp only [ValidationState.expected?, hreturns, check_returns]

end Bodies

/-- Wherever the walk over a file comes to a function, method or program, the walk over its body records
nothing exactly when the body is typed, from the parameters whose annotations can be resolved. -/
theorem body_unreported_iff_typed {node : Node} {st : ValidationState} {body : Body}
    (hvisit : (node, st) ∈ site.visits {} site.file.tree.tour) (hbody : site.body? node = some body) :
    let start := site.bodyStart node st
    (site.validate node.tree st).2 = site.leave node (site.validate body.stmt.tree start).2 ∧
    ((site.validate body.stmt.tree start).2.log.entries = start.log.entries ↔
      ∃ Γ, StmtTyped site.scope body.expected body.locals body.stmt Γ) := by
  intro start
  have hdeclares : node.isInner = false := by
    cases node <;> first | rfl | cases hbody
  have henv : st.env = .empty := site.visits_env (.file site.file) {} hvisit hdeclares
  obtain ⟨hsees, hexpected⟩ := bodyStart_sees hbody henv
  refine ⟨validate_body hbody st, ?_⟩
  rw [validate_entries, List.append_right_eq_self, ← validate_valid_iff, ← hexpected]
  exact (site.follows_stmt body.stmt).accepts hsees

/-- The parameter is copied to a variable in a branch that is no block. -/
def copying : Stmt :=
  .conditional (.literal (.bool true) none)
    (.variable "m" (.name "n" none) (some (.primitive "int" none)) none) [] none none

/-- What goes wrong in the branch is caught and thrown again. -/
def rethrowing : Stmt :=
  .tryCatch copying
    [.mk ⟨none, "RuntimeException", none⟩ "e" (.throws (.name "e" none) none) none] none

/-- The copy is used after the branch. -/
def adding : Stmt :=
  .returns (some (.binary (.math .sum) (.name "m" none) (.name "n" none) none)) none

def doubling : Routine :=
  { name := "twice"
    result := .primitive "int" none
    params := [⟨.primitive "int" none, "n", none⟩]
    body := .block [rethrowing, adding] none
    pos := none }

def doublingSite : Site :=
  ⟨.host Host.javaLang, ⟨⟨["numbers"], by decide, by decide⟩, [], [.function doubling], none⟩, 0, 0⟩

theorem doubling_typed :
    ∃ node st body, (node, st) ∈ doublingSite.visits {} doublingSite.file.tree.tour ∧
      doublingSite.body? node = some body ∧ body.stmt = .block [rethrowing, adding] none ∧
      body.locals = [("n", .int)] ∧
      (doublingSite.validate body.stmt.tree (doublingSite.bodyStart node st)).2.log.entries
        = (doublingSite.bodyStart node st).log.entries := by
  have hbody : doublingSite.body? (.declaration ⟨"numbers", 0, .function doubling⟩)
      = some ⟨doubling.body, some .int, [("n", .int)]⟩ := rfl
  have hvisit : (.declaration ⟨"numbers", 0, .function doubling⟩, {})
      ∈ doublingSite.visits {} doublingSite.file.tree.tour := List.mem_cons_of_mem _ List.mem_cons_self
  have hcopying : StmtTyped doublingSite.scope (some .int) [("n", .int)] copying
      [("m", .int), ("n", .int)] :=
    .conditional rfl (.annotated rfl rfl (by simp [Ty.int]) rfl) .nil .nil
  have hrethrowing : StmtTyped doublingSite.scope (some .int) [("n", .int)] rethrowing
      [("m", .int), ("n", .int)] :=
    .tryCatch hcopying (.cons rfl (.below _ (by decide)) (.throws rfl (.below _ (by decide))) .nil)
  have hadding : StmtTyped doublingSite.scope (some .int) [("m", .int), ("n", .int)] adding
      [("m", .int), ("n", .int)] :=
    .returns (.value (by simp [Ty.int]) rfl rfl)
  have htyped : StmtTyped doublingSite.scope (some .int) [("n", .int)] doubling.body [("n", .int)] :=
    .block (.cons hrethrowing (.cons hadding .nil))
  exact ⟨_, _, _, hvisit, hbody, rfl, rfl,
    (doublingSite.body_unreported_iff_typed hvisit hbody).2.mpr ⟨_, htyped⟩⟩

end Site

end SemanticCheck
