import SemanticCheck.Proofs.Children

/-!
# The walk as a sequence of steps

The recursive walk over a file comes to each node once and leaves it once. Written out one after the
other, the arrivals are the nodes in the order they come off a stack, and what is recorded in the file
is what the check of each node records on arrival. That is little for each node, and always placed at a
node of the file.
-/

namespace SemanticCheck

/-! ## Tours -/

inductive TourStep (α : Type) where
  | arrive (label : α)
  | depart (label : α)

def TourStep.arrival? {α : Type} : TourStep α → Option α
  | arrive a => some a
  | depart _ => none

namespace Tree

variable {α : Type}

mutual

def tour : Tree α → List (TourStep α)
  | node a ts => .arrive a :: (tours ts ++ [.depart a])

def tours : List (Tree α) → List (TourStep α)
  | [] => []
  | t :: ts => t.tour ++ tours ts

end

mutual

theorem tour_arrivals (t : Tree α) : t.tour.filterMap TourStep.arrival? = t.preorder := by
  cases t with
  | node a ts =>
    have hchildren := tours_arrivals ts
    rw [tour, preorder_node, List.filterMap_cons, List.filterMap_append, hchildren]
    simp [TourStep.arrival?]

theorem tours_arrivals (ts : List (Tree α)) :
    (tours ts).filterMap TourStep.arrival? = ts.flatMap preorder := by
  cases ts with
  | nil => simp [tours]
  | cons t ts =>
    have hfirst := tour_arrivals t
    have hrest := tours_arrivals ts
    rw [tours, List.filterMap_append, hfirst, hrest, List.flatMap_cons]

end

end Tree

/-! ## The walk along a tour -/

namespace Site

variable (site : Site)

/-- What one step of the walk does: on arrival a node is entered and checked. -/
def step (st : ValidationState) : TourStep Node → ValidationState
  | .arrive node => (site.check node (site.enter node st)).2
  | .depart node => site.leave node st

mutual

theorem validate_eq_foldl (t : NodeTree) (st : ValidationState) :
    (site.validate t st).2 = t.tour.foldl site.step st := by
  cases t with
  | node node children =>
    have hchildren := validateAll_eq_foldl children (site.check node (site.enter node st)).2
    rw [validate_node, Tree.tour, List.foldl_cons, List.foldl_append, hchildren]
    rfl

theorem validateAll_eq_foldl (ts : List NodeTree) (st : ValidationState) :
    (site.validateAll ts st).2 = (Tree.tours ts).foldl site.step st := by
  cases ts with
  | nil => simp [validateAll, Tree.tours]
  | cons t ts =>
    have hfirst := validate_eq_foldl t st
    have hrest := validateAll_eq_foldl ts (site.validate t st).2
    rw [Tree.tours, List.foldl_append, ← hfirst, ← hrest, validateAll]

end

/-- The nodes that are arrived at along a tour, each with what is known on arrival. -/
def visits : ValidationState → List (TourStep Node) → List (Node × ValidationState)
  | _, [] => []
  | st, .arrive node :: rest => (node, st) :: visits (site.step st (.arrive node)) rest
  | st, .depart node :: rest => visits (site.step st (.depart node)) rest

theorem visits_nodes (st : ValidationState) (steps : List (TourStep Node)) :
    (site.visits st steps).map (·.1) = steps.filterMap TourStep.arrival? := by
  induction steps generalizing st with
  | nil => rfl
  | cons head rest ih =>
    cases head <;> simp [visits, TourStep.arrival?, List.filterMap_cons, ih]

theorem visits_append (st : ValidationState) (steps steps' : List (TourStep Node)) :
    site.visits st (steps ++ steps')
      = site.visits st steps ++ site.visits (steps.foldl site.step st) steps' := by
  induction steps generalizing st with
  | nil => rfl
  | cons head rest ih => cases head <;> simp [visits, ih]

/-- What the check of a node records on arrival. -/
def contribution (visit : Node × ValidationState) : List Diagnostic :=
  recorded (site.check visit.1) (site.enter visit.1 visit.2)

theorem step_entries_arrive (node : Node) (st : ValidationState) :
    (site.step st (.arrive node)).log.entries = st.log.entries ++ site.contribution (node, st) := by
  have hcheck := (site.honest_check node).entries (site.enter node st)
  rw [enter_log] at hcheck
  exact hcheck

theorem step_entries_depart (node : Node) (st : ValidationState) :
    (site.step st (.depart node)).log.entries = st.log.entries := by
  simp only [step, leave_log]

theorem foldl_entries (st : ValidationState) (steps : List (TourStep Node)) :
    (steps.foldl site.step st).log.entries
      = st.log.entries ++ (site.visits st steps).flatMap site.contribution := by
  induction steps generalizing st with
  | nil => simp [visits]
  | cons head rest ih =>
    rw [List.foldl_cons, ih]
    cases head with
    | arrive node => rw [step_entries_arrive, visits, List.flatMap_cons, List.append_assoc]
    | depart node => rw [step_entries_depart, visits]

end Site

/-! ## What a check records, and where -/

/-- Records no more diagnostics than the limit, and only those allowed with the local names. -/
def Brief (limit : Nat) (allowed : TypeEnv → Diagnostic → Prop) (c : Check) : Prop :=
  ∀ st, (recorded c st).length ≤ limit ∧ ∀ d ∈ recorded c st, allowed st.env d

section Brief

variable {limit : Nat} {allowed : TypeEnv → Diagnostic → Prop}

theorem brief_true : Brief limit allowed (pure true) := by
  intro st
  simp

theorem brief_report {pos : Option Position} {finding : Finding}
    (h : ∀ env, allowed env ⟨pos, finding.message⟩) : Brief 1 allowed (report pos finding) := by
  intro st
  rw [recorded_report]
  exact ⟨by simp, by simpa using h st.env⟩

theorem brief_require {condition : Bool} {pos : Option Position} {finding : Finding}
    (h : condition = false → ∀ env, allowed env ⟨pos, finding.message⟩) :
    Brief 1 allowed (require condition pos finding) := by
  cases condition with
  | true => exact brief_true
  | false => exact brief_report (h rfl)

theorem brief_read {f : ValidationState → Check} (h : ∀ st, Brief limit allowed (f st)) :
    Brief limit allowed (get >>= f) := by
  intro st
  exact h st st

theorem recorded_and {sort : Diagnostic → Prop} {c d : Check} (hc : Honest sort c)
    (hd : Honest sort d) (st : ValidationState) :
    recorded (do let a ← c; let b ← d; return a && b) st = recorded c st ++ recorded d (c st).2 := by
  have hfirst := hc.entries st
  have hsecond := hd.entries (c st).2
  rw [hfirst, List.append_assoc] at hsecond
  show (d (c st).2).2.log.entries.drop st.log.size = _
  rw [hsecond]
  exact List.drop_left

theorem brief_checkTyped {site : Site} {e : Expr} {around : Option Position} {rule : Ty → Check}
    (herror : ∀ env error, site.typeOf env e = .error error →
      allowed env ⟨e.pos.or around, (Finding.untyped error).message⟩)
    (hrule : ∀ type, Brief 1 (fun env d => site.typeOf env e = .ok type → allowed env d) (rule type)) :
    Brief 1 allowed (site.checkTyped e around rule) := by
  intro st
  cases htype : site.typeOf st.env e with
  | ok type =>
    have heq : recorded (site.checkTyped e around rule) st = recorded (rule type) st := by
      simp only [recorded, checkTyped_ok htype]
    obtain ⟨hlength, hallowed⟩ := hrule type st
    rw [heq]
    exact ⟨hlength, fun d hd => hallowed d hd htype⟩
  | error error =>
    have heq : recorded (site.checkTyped e around rule) st
        = recorded (report (e.pos.or around) (.untyped error)) st := by
      simp only [recorded, checkTyped_error htype]
    rw [heq, recorded_report]
    exact ⟨by simp, by simpa using herror st.env error htype⟩

end Brief

/-- The finding is that an expression has no type, or not that of a condition. -/
def Finding.isOfExpression : Finding → Bool
  | untyped _ | notBoolean .. => true
  | _ => false

/-- What may be recorded about a node: something about the node itself, at its position, or that an
expression right inside of it has no type or is not a condition, at the position of the expression, or
of the node if the expression has none. -/
inductive Site.Locates (site : Site) (node : Node) (env : TypeEnv) : Diagnostic → Prop
  | own (finding : Finding) : finding.isOfExpression = false →
      Locates site node env ⟨node.pos, finding.message⟩
  | untyped {e : Expr} {error : TypingError} : .expression e ∈ node.children →
      site.typeOf env e = .error error →
      Locates site node env ⟨e.pos.or node.pos, (Finding.untyped error).message⟩
  | notBoolean {e : Expr} {type : Ty} (keyword : String) : .expression e ∈ node.children →
      site.typeOf env e = .ok type → type.isBoolean = false →
      Locates site node env ⟨e.pos.or node.pos, (Finding.notBoolean keyword type.text).message⟩

/-- The most that can be recorded about a node. -/
def Node.limit : Node → Nat
  | owned ⟨_, _, .reference _⟩ => 2
  | imported _ | declaration _ | owned _ | statement _ | elif _ | caught _ | typeExpr _ => 1
  | file _ | parameter _ | relationField _ | expression _ | argument _ | typeIdentifier _ => 0

namespace Site

section Own

variable {allowed : TypeEnv → Diagnostic → Prop} {pos : Option Position}
  (hown : ∀ env (finding : Finding), finding.isOfExpression = false →
    allowed env ⟨pos, finding.message⟩)

include hown

theorem brief_checkUnique (site : Site) (name : String) (place : Option Place) :
    Brief 1 allowed (site.checkUnique name place pos) := by
  unfold checkUnique
  split
  · exact brief_require fun _ env => hown env _ rfl
  · exact brief_true

theorem brief_checkMember (name : String) : Brief 1 allowed (checkMember name pos) := by
  unfold checkMember
  refine brief_read fun start => ?_
  split
  · exact brief_true
  · split
    · exact brief_report fun env => hown env _ rfl
    · intro st
      simp [recorded, Log.size]

theorem brief_checkProperty (site : Site) (context name : String) (place : Option Place) :
    Brief 1 allowed (site.checkProperty context name place pos) := by
  unfold checkProperty
  split
  · exact brief_checkUnique hown site _ _
  · exact brief_checkMember hown _

theorem brief_checkInitial (site : Site) (name : String) (written : Option TypeExpr) (value : Ty) :
    Brief 1 allowed (site.checkInitial name written pos value) := by
  unfold checkInitial
  split
  · exact brief_report fun env => hown env _ rfl
  · split
    · exact brief_require fun _ env => hown env _ rfl
    · exact brief_true

theorem brief_checkReturned (expected : Option Ty) (value : Ty) :
    Brief 1 allowed (checkReturned expected pos value) := by
  unfold checkReturned
  split
  · exact brief_report fun env => hown env _ rfl
  · exact brief_require fun _ env => hown env _ rfl
  · exact brief_true

theorem brief_checkBareReturn (expected : Option Ty) :
    Brief 1 allowed (checkBareReturn expected pos) := by
  unfold checkBareReturn
  split
  · exact brief_require fun _ env => hown env _ rfl
  · exact brief_true

end Own

variable (site : Site)

theorem brief_checkImport (i : Import) :
    Brief 1 (site.Locates (.imported i)) (site.checkImport i) := by
  unfold checkImport
  split <;> exact brief_require fun _ _ => .own _ rfl

theorem brief_checkDeclaration (d : Declaration) :
    Brief 1 (site.Locates (.declaration d)) (site.checkDeclaration d) := by
  obtain ⟨context, number, member⟩ := d
  cases member with
  | relation r => exact brief_require fun _ _ => .own _ rfl
  | property p => exact brief_checkProperty (fun _ => .own) site _ _ _
  | type | function | program => exact brief_checkUnique (fun _ => .own) site _ _

theorem brief_checkOwned (m : OwnedMember) :
    Brief (Node.owned m).limit (site.Locates (.owned m)) (site.checkOwned m) := by
  obtain ⟨namespaceText, owner, member⟩ := m
  cases member with
  | property p => exact brief_checkProperty (fun _ => .own) site _ _ _
  | method r => exact brief_checkMember (fun _ => .own) _
  | reference r =>
    -- Two checks, one after the other: the name may be taken, and there may be no such property.
    intro st
    have hfresh : Brief 1 (site.Locates (.owned ⟨namespaceText, owner, .reference r⟩))
        (checkMember r.name r.pos) :=
      brief_checkMember (fun _ => .own) r.name
    have hfound : Brief 1 (site.Locates (.owned ⟨namespaceText, owner, .reference r⟩))
        (site.checkReference ⟨namespaceText, owner, .reference r⟩) :=
      brief_require fun _ _ => .own _ rfl
    have hfirst := hfresh st
    have hsecond := hfound (checkMember r.name r.pos st).2
    have henv : (checkMember r.name r.pos st).2.env = st.env := by
      obtain ⟨found, seen, heq, -⟩ := honest_checkMember r.name r.pos st
      rw [heq]
    rw [henv] at hsecond
    simp only [checkOwned]
    rw [recorded_and (honest_checkMember _ _) (site.honest_checkReference _), List.length_append]
    refine ⟨Nat.add_le_add hfirst.1 hsecond.1, fun d hd => ?_⟩
    rcases List.mem_append.mp hd with hd | hd
    · exact hfirst.2 d hd
    · exact hsecond.2 d hd

theorem brief_checkCondition (node : Node) {condition : Expr}
    (hchild : .expression condition ∈ node.children) (keyword : String) :
    Brief 1 (site.Locates node) (site.checkCondition condition keyword node.pos) := by
  refine brief_checkTyped (fun env error herror => .untyped hchild herror) fun type => ?_
  exact brief_require fun hboolean env htype => .notBoolean keyword hchild htype hboolean

theorem brief_checkValue (node : Node) {value : Expr} (hchild : .expression value ∈ node.children)
    {rule : Ty → Check} (hrule : ∀ type, Brief 1 (site.Locates node) (rule type)) :
    Brief 1 (site.Locates node) (site.checkTyped value node.pos rule) := by
  refine brief_checkTyped (fun env error herror => .untyped hchild herror) fun type st => ?_
  obtain ⟨hlength, hlocates⟩ := hrule type st
  exact ⟨hlength, fun d hd _ => hlocates d hd⟩

theorem brief_checkStatement (s : Stmt) :
    Brief 1 (site.Locates (.statement s)) (site.checkStatement s) := by
  cases s with
  | block body pos | tryCatch body catches pos => exact brief_true
  | expression value pos =>
    exact site.brief_checkValue (.statement (.expression value pos))
      (by simp [Node.children, Stmt.children]) fun _ => brief_true
  | «variable» name value written pos =>
    exact site.brief_checkValue (.statement (.variable name value written pos))
      (by simp [Node.children, Stmt.children]) (brief_checkInitial (fun _ => .own) site name written)
  | conditional condition thenBody elifs elseBody pos =>
    exact site.brief_checkCondition
      (.statement (.conditional condition thenBody elifs elseBody pos))
      (by simp [Node.children, Stmt.children]) "if"
  | returns value pos =>
    cases value with
    | none => exact brief_read fun st => brief_checkBareReturn (fun _ => .own) st.expected?
    | some value =>
      exact brief_read fun st => site.brief_checkValue (.statement (.returns (some value) pos))
        (by simp [Node.children, Stmt.children]) (brief_checkReturned (fun _ => .own) st.expected?)
  | throws value pos =>
    exact site.brief_checkValue (.statement (.throws value pos))
      (by simp [Node.children, Stmt.children]) fun _ => brief_require fun _ _ => .own _ rfl

theorem brief_checkCatch (c : Catch) : Brief 1 (site.Locates (.caught c)) (site.checkCatch c) := by
  unfold checkCatch
  dsimp only
  split
  · exact brief_require fun _ _ => .own _ rfl
  · exact brief_report fun _ => .own _ rfl

theorem brief_checkTypeExpr (a : TypeExpr) :
    Brief 1 (site.Locates (.typeExpr a)) (site.checkTypeExpr a) := by
  unfold checkTypeExpr
  split
  · exact brief_true
  · split
    · exact brief_true
    · exact brief_report fun _ => .own _ rfl

theorem brief_check (node : Node) : Brief node.limit (site.Locates node) (site.check node) := by
  cases node with
  | imported i => exact site.brief_checkImport i
  | declaration d => exact site.brief_checkDeclaration d
  | owned m => exact site.brief_checkOwned m
  | statement s => exact site.brief_checkStatement s
  | elif e => exact site.brief_checkCondition (.elif e) (by simp [Node.children]) "elif"
  | caught c => exact site.brief_checkCatch c
  | typeExpr a => exact site.brief_checkTypeExpr a
  | _ => exact brief_true

/-- What is recorded about a node is placed at the node or at an expression right inside. -/
theorem Locates.pos_cases {site : Site} {node : Node} {env : TypeEnv} {d : Diagnostic}
    (h : site.Locates node env d) :
    d.pos = node.pos ∨ ∃ e, .expression e ∈ node.children ∧ d.pos = e.pos := by
  have hor : ∀ e : Expr, e.pos.or node.pos = node.pos ∨ e.pos.or node.pos = e.pos := by
    intro e
    cases e.pos <;> simp
  cases h with
  | own finding hfinding => exact .inl rfl
  | untyped hchild herror => exact (hor _).imp id fun hpos => ⟨_, hchild, hpos⟩
  | notBoolean keyword hchild htype hboolean => exact (hor _).imp id fun hpos => ⟨_, hchild, hpos⟩

end Site

/-! ## The whole file -/

theorem Node.mem_preorder_of_child (root : Node) {node child : Node} (hnode : node ∈ root.tree.preorder)
    (hchild : child ∈ node.children) : child ∈ root.tree.preorder := by
  induction root using Node.induction with
  | step root ih =>
    rw [preorder_tree, List.mem_cons, List.mem_flatMap] at hnode ⊢
    rcases hnode with rfl | ⟨next, hnext, hnode⟩
    · exact .inr ⟨child, hchild, child.mem_preorder_self⟩
    · exact .inr ⟨next, hnext, ih next hnext hnode⟩

namespace Site

variable (site : Site)

/-- Validating a file checks each of its nodes once, in preorder, and records what the checks record. -/
theorem validateFile_checks_descendants :
    let tour := site.file.tree.tour
    let visits := site.visits {} tour
    (site.validate site.file.tree {}).2 = tour.foldl site.step {} ∧
    visits.map (·.1) = site.file.tree.descendants ∧
    site.validateFile.2.entries = visits.flatMap site.contribution ∧
    (∀ visit ∈ visits, (site.contribution visit).length ≤ visit.1.limit ∧
      ∀ d ∈ site.contribution visit, site.Locates visit.1 (site.enter visit.1 visit.2).env d) ∧
    ∀ d ∈ site.validateFile.2.entries, ∃ node ∈ site.file.tree.descendants, d.pos = node.pos := by
  have hnodes : (site.visits {} site.file.tree.tour).map (·.1) = site.file.tree.descendants := by
    rw [visits_nodes, Tree.tour_arrivals, Tree.descendants_eq_preorder]
  have hentries : site.validateFile.2.entries
      = (site.visits {} site.file.tree.tour).flatMap site.contribution := by
    have hlog := site.foldl_entries {} site.file.tree.tour
    rw [← validate_eq_foldl] at hlog
    exact hlog
  refine ⟨site.validate_eq_foldl _ _, hnodes, hentries, fun visit _ => site.brief_check _ _, ?_⟩
  intro d hd
  rw [hentries, List.mem_flatMap] at hd
  obtain ⟨visit, hvisit, hd⟩ := hd
  have hnode : visit.1 ∈ site.file.tree.descendants := hnodes ▸ List.mem_map_of_mem hvisit
  rcases ((site.brief_check visit.1 _).2 d hd).pos_cases with hpos | ⟨e, hchild, hpos⟩
  · exact ⟨visit.1, hnode, hpos⟩
  · rw [Tree.descendants_eq_preorder] at hnode ⊢
    exact ⟨.expression e, Node.mem_preorder_of_child (.file site.file) hnode hchild, hpos⟩

/-- The reference takes the name of the property before it, and points at nothing. -/
def pairFile : SourceFile :=
  { namespaceName := ⟨["pairs"], by decide, by decide⟩
    imports := []
    members := [.type ⟨"Pair", [.property ⟨"left", .primitive "int" none, none⟩,
      .reference ⟨"left", none⟩], none⟩]
    pos := none }

def pairSite : Site := ⟨.nothing, pairFile, 0, 0⟩

theorem left_recorded_twice :
    ∃ visit ∈ pairSite.visits {} pairFile.tree.tour,
      (pairSite.contribution visit).length = 2 ∧ 2 ≤ visit.1.limit := by
  obtain ⟨-, -, -, hvisits, -⟩ := pairSite.validateFile_checks_descendants
  have hvisit : (pairSite.visits {} pairFile.tree.tour)[4]?
      = some (.owned ⟨"pairs", "pairs.Pair", .reference ⟨"left", none⟩⟩, _) := rfl
  have hmem := List.mem_of_getElem? hvisit
  exact ⟨_, hmem, rfl, (hvisits _ hmem).1⟩

end Site

end SemanticCheck
