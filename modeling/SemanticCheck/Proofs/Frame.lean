import SemanticCheck.Proofs.Children

/-!
# What the walk leaves behind

Scopes and expected results are opened and closed in pairs, whatever is found in between. After a node
has been walked, the scope it stands in may have gained names, and nothing else about the local names
or the expected results has changed.
-/

namespace SemanticCheck

/-! ## Names that reach the scope around a node -/

namespace Node

/-- Part of an expression. -/
def isValue : Node → Bool
  | expression _ | argument _ | typeIdentifier _ => true
  | _ => false

theorem isValue_child {node child : Node} (h : node.isValue = true) (hchild : child ∈ node.children) :
    child.isValue = true := by
  cases node with
  | expression e =>
    cases e with
    | interpolation parts pos | creation typeName args pos =>
      obtain ⟨x, -, rfl⟩ := List.mem_map.mp hchild
      rfl
    | methodCall subject method args pos | call callee args pos =>
      rcases List.mem_cons.mp hchild with rfl | hchild
      · rfl
      · obtain ⟨arg, -, rfl⟩ := List.mem_map.mp hchild
        rfl
    | index array position pos | binary op left right pos =>
      simp only [children, Expr.children, List.mem_cons, List.not_mem_nil, or_false] at hchild
      rcases hchild with rfl | rfl <;> rfl
    | staticField subject field pos | field subject field pos | negation operand pos =>
      obtain rfl := List.mem_singleton.mp hchild
      rfl
    | literal value pos | name name pos => simp [children, Expr.children] at hchild
  | argument a =>
    obtain rfl := List.mem_singleton.mp hchild
    rfl
  | typeIdentifier t => simp [children] at hchild
  | _ => simp [isValue] at h

/-- The node declares the name in the scope it stands in: a variable declaration does, and so do the
bodies of `if`, `elif`, `else` and `try` that are not blocks. -/
inductive Reaches : Node → String → Prop
  | variableDecl {name value written pos} :
      Reaches (statement (.variable name value written pos)) name
  | thenBody {condition thenBody elifs elseBody pos name} :
      Reaches (statement thenBody) name →
      Reaches (statement (.conditional condition thenBody elifs elseBody pos)) name
  | elif {condition thenBody elifs elseBody pos name e} :
      e ∈ elifs → Reaches (elif e) name →
      Reaches (statement (.conditional condition thenBody elifs elseBody pos)) name
  | elifBody {e name} : Reaches (statement e.body) name → Reaches (elif e) name
  | elseBody {condition thenBody elifs pos name s} :
      Reaches (statement s) name →
      Reaches (statement (.conditional condition thenBody elifs (some s) pos)) name
  | tryBody {body catches pos name} :
      Reaches (statement body) name → Reaches (statement (.tryCatch body catches pos)) name

/-- An elif clause, or a statement that is not a block: what has no scope of its own and may declare
names in the scope around it. -/
def sharesScope : Node → Bool
  | statement (.block ..) => false
  | statement _ | elif _ => true
  | _ => false

def opensScope : Node → Bool
  | declaration ⟨_, _, .function _⟩ | declaration ⟨_, _, .program _⟩ | owned ⟨_, _, .method _⟩ => true
  | statement (.block ..) | caught _ => true
  | _ => false

theorem Reaches.sharesScope {node : Node} {name : String} (h : node.Reaches name) :
    node.sharesScope = true := by
  cases h <;> rfl

theorem Reaches.eq_of_variable {declared name : String} {value : Expr} {written : Option TypeExpr}
    {pos : Option Position} (h : (statement (.variable declared value written pos)).Reaches name) :
    name = declared := by
  cases h
  rfl

/-- Apart from what opens a scope, only statements and elif clauses have statements right inside. -/
theorem sharesScope_of_child {node child : Node} (hchild : child ∈ node.children)
    (hplain : node.opensScope = false) (h : child.sharesScope = true) : node.sharesScope = true := by
  cases node with
  | statement s =>
    cases s with
    | block body pos => simp [opensScope] at hplain
    | _ => rfl
  | elif e => rfl
  | caught c => simp [opensScope] at hplain
  | file f =>
    simp only [children, List.mem_append, List.mem_map] at hchild
    rcases hchild with ⟨i, -, rfl⟩ | ⟨d, -, rfl⟩ <;> simp [Node.sharesScope] at h
  | declaration d =>
    obtain ⟨context, number, member⟩ := d
    cases member with
    | type t | relation r =>
      obtain ⟨m, -, rfl⟩ := List.mem_map.mp hchild
      simp [Node.sharesScope] at h
    | property p =>
      obtain rfl := List.mem_singleton.mp hchild
      simp [Node.sharesScope] at h
    | function f | program p => simp [opensScope] at hplain
  | owned m =>
    obtain ⟨namespaceText, owner, member⟩ := m
    cases member with
    | property p =>
      obtain rfl := List.mem_singleton.mp hchild
      simp [Node.sharesScope] at h
    | reference r => simp [children] at hchild
    | method r => simp [opensScope] at hplain
  | parameter p | relationField f =>
    obtain rfl := List.mem_singleton.mp hchild
    simp [Node.sharesScope] at h
  | typeExpr a =>
    cases a with
    | array component pos =>
      obtain rfl := List.mem_singleton.mp hchild
      simp [Node.sharesScope] at h
    | _ => simp [children] at hchild
  | imported i => simp [children] at hchild
  | expression e | argument a | typeIdentifier t =>
    have hvalue := isValue_child rfl hchild
    cases child <;> simp_all [isValue, Node.sharesScope]

/-- What is declared right inside of a node without a scope of its own is declared around the node. -/
theorem Reaches.of_child {node child : Node} {name : String} (hchild : child ∈ node.children)
    (hplain : node.opensScope = false) (h : child.Reaches name) : node.Reaches name := by
  have hshares := sharesScope_of_child hchild hplain h.sharesScope
  cases node with
  | statement s =>
    cases s with
    | block body pos => simp [Node.sharesScope] at hshares
    | conditional condition thenBody elifs elseBody pos =>
      simp only [children, Stmt.children, List.mem_cons, List.mem_append, List.mem_map,
        Option.mem_toList] at hchild
      rcases hchild with rfl | rfl | ⟨e, he, rfl⟩ | ⟨s, hs, rfl⟩
      · cases h
      · exact .thenBody h
      · exact .elif he h
      · obtain rfl := Option.mem_def.mp hs
        exact .elseBody h
    | tryCatch body catches pos =>
      simp only [children, Stmt.children, List.mem_cons, List.mem_map] at hchild
      rcases hchild with rfl | ⟨c, -, rfl⟩
      · exact .tryBody h
      · cases h
    | expression value pos | throws value pos =>
      obtain rfl := List.mem_singleton.mp hchild
      cases h
    | «variable» variableName value written pos =>
      simp only [children, Stmt.children, List.mem_append, List.mem_map, List.mem_singleton] at hchild
      rcases hchild with ⟨a, -, rfl⟩ | rfl <;> cases h
    | returns value pos =>
      obtain ⟨e, -, rfl⟩ := List.mem_map.mp hchild
      cases h
  | elif e =>
    simp only [children, List.mem_cons, List.not_mem_nil, or_false] at hchild
    rcases hchild with rfl | rfl
    · cases h
    · exact .elifBody h
  | _ => simp [Node.sharesScope] at hshares

theorem inner_of_sharesScope {node : Node} (h : node.sharesScope = true) :
    ∀ child ∈ node.children, Inner child.tree := by
  intro child hchild
  refine inner_child ?_ hchild
  cases node <;> first | rfl | simp [Node.sharesScope] at h

theorem inner_of_opensScope {node : Node} (h : node.opensScope = true) :
    ∀ child ∈ node.children, Inner child.tree := by
  intro child hchild
  have hroutine : ∀ {r : Routine}, child ∈ r.children → Inner child.tree := by
    intro r hr
    simp only [Routine.children, List.mem_cons, List.mem_append, List.mem_map, List.not_mem_nil,
      or_false] at hr
    rcases hr with rfl | ⟨p, -, rfl⟩ | rfl <;> exact inner_tree rfl
  unfold opensScope at h
  split at h
  · exact hroutine hchild
  · obtain rfl := List.mem_singleton.mp hchild
    exact inner_tree rfl
  · exact hroutine hchild
  · exact inner_child rfl hchild
  · exact inner_child rfl hchild
  · cases h

end Node

/-! ## Growing scopes -/

/-- The innermost scope may have gained definitions of the names; the scopes around it and the expected
results are the same. -/
structure ValidationState.Grows (names : String → Prop) (st st' : ValidationState) : Prop where
  returns : st'.returns = st.returns
  outer : st'.env.outer = st.env.outer
  inner : ∃ added, st'.env.inner = added ++ st.env.inner ∧ ∀ binding ∈ added, names binding.1

namespace ValidationState.Grows

variable {names names' : String → Prop} {st st₁ st₂ : ValidationState}

theorem of_eq (henv : st₁.env = st.env) (hreturns : st₁.returns = st.returns) : Grows names st st₁ :=
  ⟨hreturns, by rw [henv], [], by rw [henv]; rfl, by simp⟩

theorem mono (h : Grows names st st₁) (himp : ∀ name, names name → names' name) :
    Grows names' st st₁ := by
  obtain ⟨hreturns, houter, added, hinner, hnames⟩ := h
  exact ⟨hreturns, houter, added, hinner, fun binding hb => himp _ (hnames binding hb)⟩

theorem trans (h : Grows names st st₁) (h' : Grows names st₁ st₂) : Grows names st st₂ := by
  obtain ⟨hreturns, houter, added, hinner, hnames⟩ := h
  obtain ⟨hreturns', houter', added', hinner', hnames'⟩ := h'
  refine ⟨hreturns'.trans hreturns, houter'.trans houter, added' ++ added, ?_, ?_⟩
  · rw [hinner', hinner, List.append_assoc]
  · intro binding hb
    rcases List.mem_append.mp hb with hb | hb
    · exact hnames' binding hb
    · exact hnames binding hb

theorem env_eq (h : Grows names st st₁) (hnone : ∀ name, ¬ names name) : st₁.env = st.env := by
  obtain ⟨-, houter, added, hinner, hnames⟩ := h
  cases added with
  | nil =>
    obtain ⟨⟨inner, outer⟩, _, _, _⟩ := st
    obtain ⟨⟨inner', outer'⟩, _, _, _⟩ := st₁
    simp only [List.nil_append] at houter hinner
    rw [houter, hinner]
  | cons binding rest => exact absurd (hnames binding List.mem_cons_self) (hnone _)

theorem lookup_inner (h : Grows names st st₁) {name : String} (hname : ¬ names name) :
    st₁.env.inner.lookup name = st.env.inner.lookup name := by
  obtain ⟨-, -, added, hinner, hnames⟩ := h
  have hnone : added.lookup name = none := by
    rw [List.lookup_eq_none_iff]
    intro binding hb
    rw [bne_iff_ne]
    rintro rfl
    exact hname (hnames binding hb)
  rw [hinner, List.lookup_append, hnone, Option.none_or]

end ValidationState.Grows

open ValidationState (Grows)

/-! ## Entering and leaving -/

theorem Site.defineParams_outer (site : Site) (params : List Parameter) (env : TypeEnv) :
    (site.defineParams params env).outer = env.outer := by
  unfold defineParams
  induction params generalizing env with
  | nil => rfl
  | cons p params ih =>
    rw [List.foldl_cons, ih]
    split <;> rfl

namespace Site

variable (site : Site)

theorem check_env (node : Node) (st : ValidationState) : (site.check node st).2.env = st.env := by
  obtain ⟨found, seen, heq, -⟩ := site.honest_check node st
  rw [heq]

theorem check_returns (node : Node) (st : ValidationState) :
    (site.check node st).2.returns = st.returns := by
  obtain ⟨found, seen, heq, -⟩ := site.honest_check node st
  rw [heq]

/-- Leaving what opened a scope brings back what was there before, if the scopes below the new one and the
expected results are still those of entering. -/
theorem leave_enter {node : Node} (h : node.opensScope = true) {st st' : ValidationState}
    (houter : st'.env.outer = (site.enter node st).env.outer)
    (hreturns : st'.returns = (site.enter node st).returns) :
    (site.leave node st').env = st.env ∧ (site.leave node st').returns = st.returns := by
  have hpop : ∀ env : TypeEnv, env.outer = st.env.scopes → env.pop = st.env := by
    intro env henv
    simp [TypeEnv.pop, henv, TypeEnv.scopes]
  cases node with
  | declaration d =>
    obtain ⟨context, number, member⟩ := d
    cases member with
    | function f =>
      have hscopes := site.defineParams_outer f.params st.env.push
      exact ⟨hpop _ (houter.trans hscopes), by simp only [leave, closeBody, hreturns]; rfl⟩
    | program p => exact ⟨hpop _ houter, by simp only [leave, closeBody, hreturns]; rfl⟩
    | _ => simp [Node.opensScope] at h
  | owned m =>
    obtain ⟨namespaceText, owner, member⟩ := m
    cases member with
    | method r =>
      have hscopes := site.defineParams_outer r.params st.env.push
      exact ⟨hpop _ (houter.trans hscopes), by simp only [leave, closeBody, hreturns]; rfl⟩
    | _ => simp [Node.opensScope] at h
  | statement s =>
    cases s with
    | block body pos => exact ⟨hpop _ houter, hreturns⟩
    | _ => simp [Node.opensScope] at h
  | caught c =>
    have hscopes : (site.enter (.caught c) st).env.outer = st.env.scopes := by
      simp only [enter, openCatch]
      split <;> rfl
    exact ⟨hpop _ (houter.trans hscopes), hreturns⟩
  | _ => simp [Node.opensScope] at h

theorem enter_plain {node : Node} (h : node.opensScope = false) (st : ValidationState) :
    (site.enter node st).env = st.env ∧ (site.enter node st).returns = st.returns := by
  cases node with
  | declaration d =>
    obtain ⟨context, number, member⟩ := d
    cases member <;> first | exact ⟨rfl, rfl⟩ | simp [Node.opensScope] at h
  | owned m =>
    obtain ⟨namespaceText, owner, member⟩ := m
    cases member <;> first | exact ⟨rfl, rfl⟩ | simp [Node.opensScope] at h
  | statement s => cases s <;> first | exact ⟨rfl, rfl⟩ | simp [Node.opensScope] at h
  | caught c => simp [Node.opensScope] at h
  | _ => exact ⟨rfl, rfl⟩

/-- Leaving a node without a scope of its own defines at most the variable that the node declares. -/
theorem leave_plain {node : Node} (h : node.opensScope = false) (st : ValidationState) :
    Grows node.Reaches st (site.leave node st) := by
  cases node with
  | declaration d =>
    obtain ⟨context, number, member⟩ := d
    cases member <;> first | exact .of_eq rfl rfl | simp [Node.opensScope] at h
  | owned m =>
    obtain ⟨namespaceText, owner, member⟩ := m
    cases member <;> first | exact .of_eq rfl rfl | simp [Node.opensScope] at h
  | statement s =>
    cases s with
    | block body pos => simp [Node.opensScope] at h
    | «variable» name value written pos =>
      simp only [leave, defineVariable]
      split
      · rename_i type _
        exact ⟨rfl, rfl, [(name, type)], rfl, by simp [Node.Reaches.variableDecl]⟩
      · exact .of_eq rfl rfl
    | _ => exact .of_eq rfl rfl
  | caught c => simp [Node.opensScope] at h
  | _ => exact .of_eq rfl rfl

/-! ## The walk -/

theorem validateAll_append (ts us : List NodeTree) (st : ValidationState) :
    site.validateAll (ts ++ us) st =
      ((site.validateAll ts st).1 && (site.validateAll us (site.validateAll ts st).2).1,
        (site.validateAll us (site.validateAll ts st).2).2) := by
  induction ts generalizing st with
  | nil => simp [validateAll]
  | cons t ts ih => simp only [List.cons_append, validateAll, ih, Bool.and_assoc]

theorem validateAll_grows {names : String → Prop} {nodes : List Node}
    (h : ∀ child ∈ nodes, ∀ st, Grows names st (site.validate child.tree st).2) (st : ValidationState) :
    Grows names st (site.validateAll (nodes.map Node.tree) st).2 := by
  induction nodes generalizing st with
  | nil => exact .of_eq rfl rfl
  | cons node nodes ih =>
    have hfirst := h node List.mem_cons_self st
    have hrest := ih (fun child hchild => h child (List.mem_cons_of_mem _ hchild))
      (site.validate node.tree st).2
    simp only [List.map_cons, validateAll]
    exact hfirst.trans hrest

theorem validate_grows (node : Node) (st : ValidationState) :
    Grows node.Reaches st (site.validate node.tree st).2 := by
  induction node using Node.induction generalizing st with
  | step node ih =>
    rw [Node.tree_eq, validate_node]
    have hcheck : ∀ names, Grows names (site.enter node st) (site.check node (site.enter node st)).2 :=
      fun names => .of_eq (site.check_env node _) (site.check_returns node _)
    cases hscope : node.opensScope with
    | true =>
      -- Whatever the children define is gone with the scope.
      have hchildren : Grows (fun _ => True) (site.check node (site.enter node st)).2
          (site.validateAll (node.children.map Node.tree) (site.check node (site.enter node st)).2).2 :=
        site.validateAll_grows (fun child hchild st => (ih child hchild st).mono fun _ _ => trivial) _
      have hinside := (hcheck _).trans hchildren
      obtain ⟨henv, hreturns⟩ := site.leave_enter hscope hinside.outer hinside.returns
      exact .of_eq henv hreturns
    | false =>
      have hchildren : Grows node.Reaches (site.check node (site.enter node st)).2
          (site.validateAll (node.children.map Node.tree) (site.check node (site.enter node st)).2).2 :=
        site.validateAll_grows
          (fun child hchild st => (ih child hchild st).mono fun _ => .of_child hchild hscope) _
      obtain ⟨henv, hreturns⟩ := site.enter_plain hscope st
      have henter : Grows node.Reaches st (site.enter node st) := .of_eq henv hreturns
      exact ((henter.trans (hcheck _)).trans hchildren).trans (site.leave_plain hscope _)

theorem validate_value (node : Node) (h : node.isValue = true) (st : ValidationState) :
    site.validate node.tree st = (true, st) := by
  induction node using Node.induction generalizing st with
  | step node ih =>
    have hchildren : site.validateAll (node.children.map Node.tree) st = (true, st) := by
      have hvalues : ∀ child ∈ node.children, site.validate child.tree st = (true, st) :=
        fun child hchild => ih child hchild (Node.isValue_child h hchild) st
      generalize node.children = children at hvalues
      induction children with
      | nil => rfl
      | cons child children ihRest =>
        rw [List.forall_mem_cons] at hvalues
        simp only [List.map_cons, validateAll, hvalues.1, ihRest hvalues.2, Bool.and_self]
    rw [Node.tree_eq, validate_node]
    cases node with
    | expression e | argument a | typeIdentifier t =>
      simp only [enter, check, run_pure, leave, hchildren, Bool.and_self]
    | _ => simp [Node.isValue] at h

theorem validate_env {node : Node} (h : node.sharesScope = false) (st : ValidationState) :
    (site.validate node.tree st).2.env = st.env := by
  refine (site.validate_grows node st).env_eq fun name hname => ?_
  rw [hname.sharesScope] at h
  cases h

theorem validateAll_env {nodes : List Node} (h : ∀ child ∈ nodes, child.sharesScope = false)
    (st : ValidationState) : (site.validateAll (nodes.map Node.tree) st).2.env = st.env := by
  have hgrows : Grows (fun _ => False) st (site.validateAll (nodes.map Node.tree) st).2 := by
    refine site.validateAll_grows (fun child hchild st => ?_) st
    exact .of_eq (site.validate_env (h child hchild) st) (site.validate_grows child st).returns
  exact hgrows.env_eq fun _ => id

theorem validateAll_returns (nodes : List Node) (st : ValidationState) :
    (site.validateAll (nodes.map Node.tree) st).2.returns = st.returns := by
  have hgrows : Grows (fun _ => True) st (site.validateAll (nodes.map Node.tree) st).2 :=
    site.validateAll_grows (fun child _ st => (site.validate_grows child st).mono fun _ _ => trivial) st
  exact hgrows.returns

/-- Walking a node keeps all scopes, but for the names that it defines in the innermost one. -/
theorem validate_keeps_scopes (node : Node) (st : ValidationState) :
    let after := (site.validate node.tree st).2
    after.env.depth = st.env.depth ∧ after.returns = st.returns ∧ after.env.outer = st.env.outer ∧
      (node.sharesScope = false → after.env = st.env) ∧
      (∃ added, after.env.inner = added ++ st.env.inner ∧ ∀ binding ∈ added, node.Reaches binding.1) ∧
      ∀ name, ¬ node.Reaches name → after.env.inner.lookup name = st.env.inner.lookup name := by
  have hgrows := site.validate_grows node st
  refine ⟨?_, hgrows.returns, hgrows.outer, fun hshares => site.validate_env hshares st, hgrows.inner,
    fun name => hgrows.lookup_inner⟩
  simp only [TypeEnv.depth, hgrows.outer]

/-- The first branch declares `x` around the statement, the other one `y` in a block of its own. -/
def branches : Stmt :=
  .conditional (.name "unknown" none) (.variable "x" (.literal (.int 1) none) none none) []
    (some (.block [.variable "y" (.literal (.int 2) none) none none] none)) none

def branchSite : Site := ⟨.nothing, ⟨⟨["choices"], by decide, by decide⟩, [], [], none⟩, 0, 0⟩

theorem branches_define_x :
    ¬ (Node.statement branches).Reaches "y" ∧
      (branchSite.validate (Node.statement branches).tree {}).2.env.inner.lookup "y" = none ∧
      (branchSite.validate (Node.statement branches).tree {}).2.env.inner.lookup "x" = some .int := by
  have hy : ¬ (Node.statement branches).Reaches "y" := by
    rintro (_ | hthen | ⟨he, -⟩ | _ | helse | _)
    · exact absurd hthen.eq_of_variable (by decide)
    · cases he
    · cases helse
  obtain ⟨-, -, -, -, -, hlookup⟩ := branchSite.validate_keeps_scopes (.statement branches) {}
  exact ⟨hy, hlookup "y" hy, rfl⟩

end Site

end SemanticCheck
