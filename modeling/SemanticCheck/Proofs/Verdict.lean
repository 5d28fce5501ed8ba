import SemanticCheck.Validation.Walk

/-!
# Verdicts and the log

A check has two results, an answer and what it leaves in the log, and both say the same: a node is in
order exactly when nothing was recorded about it. What holds of each check then holds of the walk.
-/

namespace SemanticCheck

/-! ## Reports of repeated names -/

/-- What the report of a repeated name begins with, and no other message does. -/
def duplicateOpening : String := "Duplicate definition of `"

def Diagnostic.isDuplicate (d : Diagnostic) : Bool :=
  duplicateOpening.toList.isPrefixOf d.message.toList

def Finding.isDuplicate : Finding → Bool
  | duplicateDefinition _ => true
  | _ => false

theorem isDuplicate_iff (d : Diagnostic) :
    d.isDuplicate = true ↔ duplicateOpening.toList <+: d.message.toList := by
  unfold Diagnostic.isDuplicate
  exact List.isPrefixOf_iff_prefix

theorem not_opening_of_char {opening message : String} (k : Nat) (hk : k < opening.toList.length)
    (h : message.toList[k]? ≠ opening.toList[k]?) :
    opening.toList.isPrefixOf message.toList = false := by
  rw [← Bool.not_eq_true, List.isPrefixOf_iff_prefix]
  intro hprefix
  exact h (List.prefix_iff_getElem?.mp hprefix k hk ▸ (List.getElem?_eq_getElem hk).symm)

/-- Begins with some character, and not with that of the reports of repeated names and members. -/
def opensOtherwise (message : String) : Bool := message.toList.head?.any (· != 'D')

theorem opensOtherwise_append {text rest : String} (h : opensOtherwise text = true) :
    opensOtherwise (text ++ rest) = true := by
  unfold opensOtherwise at h ⊢
  rw [String.toList_append]
  cases htext : text.toList with
  | nil => simp [htext] at h
  | cons c cs => simpa [htext] using h

theorem not_opening_of_opensOtherwise {opening message : String}
    (hopening : opening.toList.head? = some 'D') (h : opensOtherwise message = true) :
    opening.toList.isPrefixOf message.toList = false := by
  apply not_opening_of_char 0
  · exact List.length_pos_iff.mpr fun hnil => by simp [hnil] at hopening
  · rw [← List.head?_eq_getElem?, ← List.head?_eq_getElem?, hopening]
    intro hhead
    simp [opensOtherwise, hhead] at h

theorem opensOtherwise_typeError (e : TypeError) : opensOtherwise e.message = true := by
  cases e
  all_goals
    unfold TypeError.message
    repeat with_reducible apply opensOtherwise_append
    decide +kernel

theorem opensOtherwise_resolutionError (e : ResolutionError) :
    opensOtherwise e.message = true := by
  cases e
  all_goals
    unfold ResolutionError.message
    repeat with_reducible apply opensOtherwise_append
    decide +kernel

theorem opensOtherwise_message {f : Finding} (hname : ∀ name, f ≠ .duplicateDefinition name)
    (hmember : ∀ name owner, f ≠ .duplicateMember name owner) : opensOtherwise f.message = true := by
  cases f with
  | duplicateDefinition name => exact absurd rfl (hname name)
  | duplicateMember name owner => exact absurd rfl (hmember name owner)
  | unresolved e => exact opensOtherwise_resolutionError e
  | untyped e =>
    cases e with
    | type e => exact opensOtherwise_typeError e
    | resolution e => exact opensOtherwise_resolutionError e
  | notBoolean | voidValue => exact opensOtherwise_typeError _
  | relationArity | valueFromVoid => decide +kernel
  | _ =>
    unfold Finding.message
    repeat with_reducible apply opensOtherwise_append
    decide +kernel

theorem duplicateDefinition_message (name : String) :
    (Finding.duplicateDefinition name).message = duplicateOpening ++ (name ++ "`") := by
  rw [← String.append_assoc]
  rfl

theorem duplicateMember_message (name owner : String) :
    (Finding.duplicateMember name owner).message
      = "Duplicate member `" ++ (name ++ "` in type `" ++ owner ++ "`") := by
  simp only [← String.append_assoc]
  rfl

theorem isDuplicate_message (pos : Option Position) (f : Finding) :
    (Diagnostic.mk pos f.message).isDuplicate = f.isDuplicate := by
  cases f with
  | duplicateDefinition name =>
    refine (isDuplicate_iff _).mpr ?_
    rw [duplicateDefinition_message, String.toList_append]
    exact List.prefix_append _ _
  | duplicateMember name owner =>
    -- The only other message that begins with the same word: the next one differs.
    apply not_opening_of_char 10 (by decide +kernel)
    rw [duplicateMember_message, String.toList_append, List.getElem?_append_left (by decide +kernel)]
    decide +kernel
  | _ =>
    exact not_opening_of_opensOtherwise (by decide +kernel) (opensOtherwise_message (by simp) (by simp))

/-! ## Honest checks -/

/-- Not the report of a repeated name. -/
def Diagnostic.Plain (d : Diagnostic) : Prop := d.isDuplicate = false

/-- Appends diagnostics of the allowed sort to the log, answers whether that was nothing, and touches
nothing else but the members seen. -/
def Honest (allowed : Diagnostic → Prop) (c : Check) : Prop :=
  ∀ st, ∃ found seen,
    c st = (found.isEmpty, { st with members := seen, log := st.log.merge ⟨found⟩ }) ∧
      ∀ d ∈ found, allowed d

section Combinators

variable {allowed : Diagnostic → Prop}

theorem Honest.weaken {allowed' : Diagnostic → Prop} {c : Check} (h : Honest allowed c)
    (himp : ∀ d, allowed d → allowed' d) : Honest allowed' c := by
  intro st
  obtain ⟨found, seen, heq, hall⟩ := h st
  exact ⟨found, seen, heq, fun d hd => himp d (hall d hd)⟩

theorem Honest.of_plain {c : Check} {p : Prop} (h : Honest Diagnostic.Plain c) :
    Honest (fun d => d.isDuplicate = true → p) c :=
  h.weaken fun d hplain hd => by simp [Diagnostic.Plain, hd] at hplain

theorem honest_true : Honest allowed (pure true) := by
  intro st
  exact ⟨[], st.members, by simp [Log.merge], by simp⟩

theorem honest_report {pos : Option Position} {finding : Finding}
    (h : allowed ⟨pos, finding.message⟩) :
    Honest allowed (report pos finding) := by
  intro st
  exact ⟨[⟨pos, finding.message⟩], st.members, rfl, by simpa using h⟩

theorem honest_require {condition : Bool} {pos : Option Position} {finding : Finding}
    (h : allowed ⟨pos, finding.message⟩) : Honest allowed (require condition pos finding) := by
  unfold require
  split
  · exact honest_true
  · exact honest_report h

theorem honest_read {f : ValidationState → Check} (h : ∀ st, Honest allowed (f st)) :
    Honest allowed (get >>= f) := by
  intro st
  exact h st st

theorem honest_and {c d : Check} (hc : Honest allowed c) (hd : Honest allowed d) :
    Honest allowed (do let a ← c; let b ← d; return a && b) := by
  intro st
  obtain ⟨first, seen, h₁, hfirst⟩ := hc st
  obtain ⟨second, seen', h₂, hsecond⟩ :=
    hd { st with members := seen, log := st.log.merge ⟨first⟩ }
  have hempty : (first ++ second).isEmpty = (first.isEmpty && second.isEmpty) := by
    cases first <;> rfl
  refine ⟨first ++ second, seen', ?_, ?_⟩
  · simp only [run_bind, h₁, h₂, run_pure]
    simp [Log.merge, hempty]
  · intro x hx
    rcases List.mem_append.mp hx with hx | hx
    · exact hfirst x hx
    · exact hsecond x hx

theorem checkTyped_ok {site : Site} {e : Expr} {st : ValidationState} {type : Ty}
    (h : site.typeOf st.env e = .ok type) (around : Option Position) (rule : Ty → Check) :
    site.checkTyped e around rule st = rule type st := by
  simp only [Site.checkTyped, Site.expressionType, run_bind, run_get, h, run_pure]

theorem checkTyped_error {site : Site} {e : Expr} {st : ValidationState} {error : TypingError}
    (h : site.typeOf st.env e = .error error) (around : Option Position) (rule : Ty → Check) :
    site.checkTyped e around rule st = report (e.pos.or around) (.untyped error) st := by
  simp only [Site.checkTyped, Site.expressionType, run_bind, run_get, h, report_apply, run_pure]

theorem honest_checkTyped (site : Site) (e : Expr) (around : Option Position) {rule : Ty → Check}
    (herror : ∀ error, allowed ⟨e.pos.or around, (Finding.untyped error).message⟩)
    (hrule : ∀ type, Honest allowed (rule type)) :
    Honest allowed (site.checkTyped e around rule) := by
  intro st
  cases htype : site.typeOf st.env e with
  | ok type =>
    rw [checkTyped_ok htype]
    exact hrule type st
  | error error =>
    rw [checkTyped_error htype]
    exact honest_report (herror error) st

end Combinators

/-! ## The checks of the nodes -/

namespace Site

theorem honest_checkImport (site : Site) (i : Import) :
    Honest Diagnostic.Plain (site.checkImport i) := by
  unfold checkImport
  split <;> exact honest_require (isDuplicate_message _ _)

theorem honest_checkUnique (site : Site) (name : String) (place : Option Place)
    (pos : Option Position) : Honest (fun _ => True) (site.checkUnique name place pos) := by
  unfold checkUnique
  split
  · exact honest_require trivial
  · exact honest_true

theorem honest_checkMember (name : String) (pos : Option Position) :
    Honest Diagnostic.Plain (checkMember name pos) := by
  unfold checkMember
  apply honest_read
  intro start
  split
  · exact honest_true
  · rename_i seen _
    split
    · exact honest_report (isDuplicate_message _ _)
    · intro st
      exact ⟨[], some { seen with names := name :: seen.names }, by simp [Log.merge],
        by simp⟩

theorem honest_checkReference (site : Site) (m : OwnedMember) :
    Honest Diagnostic.Plain (site.checkReference m) :=
  honest_require (isDuplicate_message _ _)

theorem honest_checkRelation (r : Relation) : Honest Diagnostic.Plain (checkRelation r) :=
  honest_require (isDuplicate_message _ _)

theorem honest_checkTypeExpr (site : Site) (a : TypeExpr) :
    Honest Diagnostic.Plain (site.checkTypeExpr a) := by
  unfold checkTypeExpr
  split
  · exact honest_true
  · split
    · exact honest_true
    · exact honest_report (isDuplicate_message _ _)

theorem honest_checkCatch (site : Site) (c : Catch) :
    Honest Diagnostic.Plain (site.checkCatch c) := by
  unfold checkCatch
  dsimp only
  split
  · exact honest_require (isDuplicate_message _ _)
  · exact honest_report (isDuplicate_message _ _)

theorem honest_checkCondition (site : Site) (condition : Expr) (keyword : String)
    (around : Option Position) :
    Honest Diagnostic.Plain (site.checkCondition condition keyword around) :=
  honest_checkTyped site condition around (isDuplicate_message _ <| .untyped ·)
    fun _ => honest_require (isDuplicate_message _ _)

theorem honest_checkInitial (site : Site) (name : String) (written : Option TypeExpr)
    (pos : Option Position) (value : Ty) :
    Honest Diagnostic.Plain (site.checkInitial name written pos value) := by
  unfold checkInitial
  split
  · exact honest_report (isDuplicate_message _ _)
  · split
    · exact honest_require (isDuplicate_message _ _)
    · exact honest_true

theorem honest_checkReturned (expected : Option Ty) (pos : Option Position) (value : Ty) :
    Honest Diagnostic.Plain (checkReturned expected pos value) := by
  unfold checkReturned
  split
  · exact honest_report (isDuplicate_message _ _)
  · exact honest_require (isDuplicate_message _ _)
  · exact honest_true

theorem honest_checkBareReturn (expected : Option Ty) (pos : Option Position) :
    Honest Diagnostic.Plain (checkBareReturn expected pos) := by
  unfold checkBareReturn
  split
  · exact honest_require (isDuplicate_message _ _)
  · exact honest_true

theorem honest_checkThrown (pos : Option Position) (value : Ty) :
    Honest Diagnostic.Plain (checkThrown pos value) :=
  honest_require (isDuplicate_message _ _)

theorem honest_checkStatement (site : Site) (s : Stmt) :
    Honest Diagnostic.Plain (site.checkStatement s) := by
  unfold checkStatement
  split
  · exact honest_true
  · exact honest_true
  · exact honest_checkTyped site _ _ (isDuplicate_message _ <| .untyped ·) fun _ => honest_true
  · exact honest_checkTyped site _ _ (isDuplicate_message _ <| .untyped ·) (site.honest_checkInitial _ _ _)
  · exact site.honest_checkCondition _ _ _
  · exact honest_read fun st =>
      honest_checkTyped site _ _ (isDuplicate_message _ <| .untyped ·) (honest_checkReturned st.expected? _)
  · exact honest_read fun st => honest_checkBareReturn st.expected? _
  · exact honest_checkTyped site _ _ (isDuplicate_message _ <| .untyped ·) (honest_checkThrown _)

/-- The nodes whose check asks whose a name of the batch is. In the tree of a file no member of a type
is among them. -/
def ownsName (site : Site) : Node → Prop
  | .declaration ⟨_, _, .relation _⟩ => False
  | .declaration _ => True
  | .owned ⟨_, owner, .property _⟩ => owner = site.file.context
  | _ => False

theorem honest_checkProperty (site : Site) (context name : String) (place : Option Place)
    (pos : Option Position) :
    Honest (fun d => d.isDuplicate = true → context = site.file.context)
      (site.checkProperty context name place pos) := by
  unfold checkProperty
  split
  · rename_i hcontext
    exact (site.honest_checkUnique _ _ _).weaken fun _ _ _ => hcontext
  · exact (honest_checkMember _ _).of_plain

theorem honest_checkOwned (site : Site) (m : OwnedMember) :
    Honest (fun d => d.isDuplicate = true → site.ownsName (.owned m)) (site.checkOwned m) := by
  obtain ⟨namespaceText, owner, member⟩ := m
  cases member with
  | property p => exact site.honest_checkProperty owner p.name none p.pos
  | reference r => exact (honest_and (honest_checkMember _ _) (site.honest_checkReference _)).of_plain
  | method r => exact (honest_checkMember _ _).of_plain

theorem honest_checkDeclaration (site : Site) (d : Declaration) :
    Honest (fun diagnostic => diagnostic.isDuplicate = true → site.ownsName (.declaration d))
      (site.checkDeclaration d) := by
  obtain ⟨context, number, member⟩ := d
  cases member with
  | relation r => exact (honest_checkRelation r).of_plain
  | property p => exact (site.honest_checkProperty _ _ _ _).weaken fun _ _ _ => trivial
  | type | function | program =>
    exact (site.honest_checkUnique _ _ _).weaken fun _ _ _ => trivial

theorem honest_check (site : Site) (node : Node) :
    Honest (fun d => d.isDuplicate = true → site.ownsName node) (site.check node) := by
  cases node with
  | imported i => exact (site.honest_checkImport i).of_plain
  | declaration d => exact site.honest_checkDeclaration d
  | owned m => exact site.honest_checkOwned m
  | statement s => exact (site.honest_checkStatement s).of_plain
  | elif e => exact (site.honest_checkCondition _ _ _).of_plain
  | caught c => exact (site.honest_checkCatch c).of_plain
  | typeExpr a => exact (site.honest_checkTypeExpr a).of_plain
  | _ => exact honest_true

end Site

/-! ## What a check records -/

/-- What a check adds to the log. -/
def recorded (c : Check) (st : ValidationState) : List Diagnostic :=
  (c st).2.log.entries.drop st.log.size

theorem recorded_eq {c : Check} {st : ValidationState} {found : List Diagnostic}
    {seen : Option SeenMembers}
    (h : c st = (found.isEmpty, { st with members := seen, log := st.log.merge ⟨found⟩ })) :
    recorded c st = found := by
  simp [recorded, h, Log.size]

@[simp] theorem recorded_true (st : ValidationState) : recorded (pure true) st = [] := by
  simp [recorded, Log.size]

@[simp] theorem recorded_report (pos : Option Position) (finding : Finding) (st : ValidationState) :
    recorded (report pos finding) st = [⟨pos, finding.message⟩] := by
  simp [recorded, Log.size]

namespace Honest

variable {allowed : Diagnostic → Prop} {c : Check}

theorem entries (h : Honest allowed c) (st : ValidationState) :
    (c st).2.log.entries = st.log.entries ++ recorded c st := by
  obtain ⟨found, seen, heq, -⟩ := h st
  rw [recorded_eq heq, heq]
  rfl

theorem verdict (h : Honest allowed c) (st : ValidationState) :
    (c st).1 = (recorded c st).isEmpty := by
  obtain ⟨found, seen, heq, -⟩ := h st
  rw [recorded_eq heq, heq]

theorem allowed_of_mem (h : Honest allowed c) (st : ValidationState) {d : Diagnostic}
    (hd : d ∈ recorded c st) : allowed d := by
  obtain ⟨found, seen, heq, hall⟩ := h st
  rw [recorded_eq heq] at hd
  exact hall d hd

end Honest

/-! ## The walk -/

namespace Site

mutual

/-- The nodes of a tree in the order they are checked, each with what its check records. -/
def trace (site : Site) : NodeTree → ValidationState → List (Node × List Diagnostic)
  | .node node children, st =>
    let entered := site.enter node st
    (node, recorded (site.check node) entered)
      :: traceAll site children (site.check node entered).2

def traceAll (site : Site) : List NodeTree → ValidationState → List (Node × List Diagnostic)
  | [], _ => []
  | t :: ts, st => trace site t st ++ traceAll site ts (site.validate t st).2

end

@[simp] theorem enter_log (site : Site) (node : Node) (st : ValidationState) :
    (site.enter node st).log = st.log := by
  unfold enter openRoutine openCatch
  repeat' split
  all_goals rfl

@[simp] theorem leave_log (site : Site) (node : Node) (st : ValidationState) :
    (site.leave node st).log = st.log := by
  unfold leave closeBody
  repeat' split
  all_goals rfl

theorem validate_node (site : Site) (node : Node) (children : List NodeTree)
    (st : ValidationState) :
    site.validate (.node node children) st =
      ((site.check node (site.enter node st)).1
          && (site.validateAll children (site.check node (site.enter node st)).2).1,
        site.leave node (site.validateAll children (site.check node (site.enter node st)).2).2) := by
  rw [validate]
  rfl

mutual

theorem validate_entries (site : Site) (t : NodeTree) (st : ValidationState) :
    (site.validate t st).2.log.entries = st.log.entries ++ (site.trace t st).flatMap (·.2) := by
  cases t with
  | node node children =>
    have hcheck := (site.honest_check node).entries (site.enter node st)
    have hchildren := validateAll_entries site children (site.check node (site.enter node st)).2
    simp only [validate_node, trace, leave_log, List.flatMap_cons]
    rw [hchildren, hcheck, enter_log, List.append_assoc]

theorem validateAll_entries (site : Site) (ts : List NodeTree) (st : ValidationState) :
    (site.validateAll ts st).2.log.entries
      = st.log.entries ++ (site.traceAll ts st).flatMap (·.2) := by
  cases ts with
  | nil => simp [validateAll, traceAll]
  | cons t ts =>
    have hfirst := validate_entries site t st
    have hrest := validateAll_entries site ts (site.validate t st).2
    simp only [validateAll, traceAll, List.flatMap_append]
    rw [hrest, hfirst, List.append_assoc]

end

mutual

theorem validate_verdict (site : Site) (t : NodeTree) (st : ValidationState) :
    (site.validate t st).1 = (site.trace t st).all (·.2.isEmpty) := by
  cases t with
  | node node children =>
    have hcheck := (site.honest_check node).verdict (site.enter node st)
    have hchildren := validateAll_verdict site children (site.check node (site.enter node st)).2
    simp only [validate_node, trace, List.all_cons]
    rw [hcheck, hchildren]

theorem validateAll_verdict (site : Site) (ts : List NodeTree) (st : ValidationState) :
    (site.validateAll ts st).1 = (site.traceAll ts st).all (·.2.isEmpty) := by
  cases ts with
  | nil => simp [validateAll, traceAll]
  | cons t ts =>
    have hfirst := validate_verdict site t st
    have hrest := validateAll_verdict site ts (site.validate t st).2
    simp only [validateAll, traceAll, List.all_append]
    rw [hfirst, hrest]

end

theorem validate_valid_iff (site : Site) (t : NodeTree) (st : ValidationState) :
    (site.validate t st).1 = true ↔ (site.trace t st).flatMap (·.2) = [] := by
  rw [validate_verdict, List.all_eq_true, List.flatMap_eq_nil_iff]
  simp only [List.isEmpty_iff]

theorem validateFile_entries (site : Site) :
    site.validateFile.2.entries = (site.trace site.file.tree {}).flatMap (·.2) := by
  have h := site.validate_entries site.file.tree {}
  simpa [validateFile, Log.empty] using h

/-- Validating a node, whatever the chain and the state, only appends to the log, and the node is
valid exactly when that was nothing. The verdict on a file says the same of the log of the file. -/
theorem validate_appends_iff_invalid (site : Site) (t : NodeTree) (st : ValidationState) :
    (∃ found, (site.validate t st).2.log.entries = st.log.entries ++ found ∧
      ((site.validate t st).1 = true ↔ found = [])) ∧
    (site.validateFile.1 = true ↔ site.validateFile.2.entries = []) := by
  refine ⟨⟨_, site.validate_entries t st, site.validate_valid_iff t st⟩, ?_⟩
  rw [validateFile_entries]
  exact site.validate_valid_iff site.file.tree {}

end Site

end SemanticCheck
