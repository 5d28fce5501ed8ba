import Mathlib.Data.Finset.Card
import Mathlib.Data.List.Induction
import SemanticCheck.Proofs.Ownership
import SemanticCheck.Proofs.Reading

/-!
# Members that share a name

Of the members of a type that share a name, the first one has it and each later one is reported. The walk
keeps the names it has seen of the type that it is in; bodies and annotations leave them alone, and a type
starts and ends without any. Where nothing is reported, a name leads to one member, whatever their order.
-/

namespace SemanticCheck

/-! ## Reports of repeated members -/

/-- What the report of a repeated member begins with, and no other message does. -/
def memberOpening : String := "Duplicate member `"

def Diagnostic.repeatsMember (d : Diagnostic) : Bool :=
  memberOpening.toList.isPrefixOf d.message.toList

def Finding.repeatsMember : Finding → Bool
  | duplicateMember .. => true
  | _ => false

theorem repeatsMember_message (pos : Option Position) (f : Finding) :
    (Diagnostic.mk pos f.message).repeatsMember = f.repeatsMember := by
  cases f with
  | duplicateMember name owner =>
    refine List.isPrefixOf_iff_prefix.mpr ?_
    rw [duplicateMember_message, String.toList_append]
    exact List.prefix_append _ _
  | duplicateDefinition name =>
    apply not_opening_of_char 10 (by decide +kernel)
    rw [duplicateDefinition_message, String.toList_append, List.getElem?_append_left (by decide +kernel)]
    decide +kernel
  | _ =>
    exact not_opening_of_opensOtherwise (by decide +kernel) (opensOtherwise_message (by simp) (by simp))

/-- The report that an earlier member has the name. -/
def TypeMember.repeatReport (owner : String) (m : TypeMember) : Diagnostic :=
  ⟨m.pos, (Finding.duplicateMember m.name owner).message⟩

/-! ## What the walk knows of members -/

/-- The members seen of the type that the walk is in, and the reports of repeated ones. -/
structure MemberView where
  seen : Option SeenMembers
  reports : List Diagnostic

def ValidationState.memberView (st : ValidationState) : MemberView :=
  ⟨st.members, st.log.entries.filter (·.repeatsMember)⟩

/-- Reports no repeated member and changes nothing about those seen. -/
def Aside (c : Check) : Prop := ∀ st, (c st).2.memberView = st.memberView

section Aside

theorem aside_true : Aside (pure true) := fun _ => rfl

theorem aside_report {pos : Option Position} {finding : Finding} (h : finding.repeatsMember = false) :
    Aside (report pos finding) := by
  intro st
  simp [ValidationState.memberView, repeatsMember_message, h]

theorem aside_require {condition : Bool} {pos : Option Position} {finding : Finding}
    (h : finding.repeatsMember = false) : Aside (require condition pos finding) := by
  cases condition with
  | true => exact aside_true
  | false => exact aside_report h

theorem aside_read {f : ValidationState → Check} (h : ∀ st, Aside (f st)) : Aside (get >>= f) :=
  fun st => h st st

theorem aside_checkTyped {site : Site} {e : Expr} {around : Option Position} {rule : Ty → Check}
    (hrule : ∀ type, Aside (rule type)) : Aside (site.checkTyped e around rule) := by
  intro st
  cases htype : site.typeOf st.env e with
  | ok type =>
    rw [checkTyped_ok htype]
    exact hrule type st
  | error error =>
    rw [checkTyped_error htype]
    exact aside_report rfl st

end Aside

namespace Site

variable (site : Site)

theorem aside_checkImport (i : Import) : Aside (site.checkImport i) := by
  unfold checkImport
  split <;> exact aside_require rfl

theorem aside_checkUnique (name : String) (place : Option Place) (pos : Option Position) :
    Aside (site.checkUnique name place pos) := by
  unfold checkUnique
  split
  · exact aside_require rfl
  · exact aside_true

theorem aside_checkTypeExpr (a : TypeExpr) : Aside (site.checkTypeExpr a) := by
  unfold checkTypeExpr
  split
  · exact aside_true
  · split
    · exact aside_true
    · exact aside_report rfl

theorem aside_checkCatch (c : Catch) : Aside (site.checkCatch c) := by
  unfold checkCatch
  dsimp only
  split
  · exact aside_require rfl
  · exact aside_report rfl

theorem aside_checkInitial (name : String) (written : Option TypeExpr) (pos : Option Position)
    (value : Ty) : Aside (site.checkInitial name written pos value) := by
  unfold checkInitial
  split
  · exact aside_report rfl
  · split
    · exact aside_require rfl
    · exact aside_true

theorem aside_checkReturned (expected : Option Ty) (pos : Option Position) (value : Ty) :
    Aside (checkReturned expected pos value) := by
  unfold checkReturned
  split
  · exact aside_report rfl
  · exact aside_require rfl
  · exact aside_true

theorem aside_checkBareReturn (expected : Option Ty) (pos : Option Position) :
    Aside (checkBareReturn expected pos) := by
  unfold checkBareReturn
  split
  · exact aside_require rfl
  · exact aside_true

theorem aside_checkStatement (s : Stmt) : Aside (site.checkStatement s) := by
  cases s with
  | block body pos | tryCatch body catches pos => exact aside_true
  | expression value pos => exact aside_checkTyped fun _ => aside_true
  | «variable» name value written pos => exact aside_checkTyped (site.aside_checkInitial name written pos)
  | conditional condition thenBody elifs elseBody pos => exact aside_checkTyped fun _ => aside_require rfl
  | returns value pos =>
    cases value with
    | none => exact aside_read fun st => aside_checkBareReturn st.expected? pos
    | some value =>
      exact aside_read fun st => aside_checkTyped (aside_checkReturned st.expected? pos)
  | throws value pos => exact aside_checkTyped fun _ => aside_require rfl

theorem aside_check_inner {node : Node} (h : node.isInner = true) : Aside (site.check node) := by
  cases node with
  | statement s => exact site.aside_checkStatement s
  | elif e => exact aside_checkTyped fun _ => aside_require rfl
  | caught c => exact site.aside_checkCatch c
  | typeExpr a => exact site.aside_checkTypeExpr a
  | file f | imported i | declaration d | owned m => simp [Node.isInner] at h
  | _ => exact aside_true

theorem aside_checkDeclaration {d : Declaration} (hcontext : d.context = site.file.context) :
    Aside (site.checkDeclaration d) := by
  obtain ⟨context, number, member⟩ := d
  cases member with
  | relation r => exact aside_require rfl
  | property p =>
    have hunique : site.checkProperty context p.name (site.placeOf ⟨context, number, .property p⟩) p.pos
        = site.checkUnique (qualify context p.name) (site.placeOf ⟨context, number, .property p⟩) p.pos :=
      if_pos hcontext
    simp only [checkDeclaration, hunique]
    exact site.aside_checkUnique _ _ _
  | type | function | program => exact site.aside_checkUnique _ _ _

end Site

/-! ## One member -/

/-- What the walk knows after one more member. -/
def MemberView.note (view : MemberView) (m : TypeMember) : MemberView :=
  match view.seen with
  | none => view
  | some seen =>
    if seen.names.contains m.name then
      { view with reports := view.reports ++ [m.repeatReport seen.owner] }
    else { view with seen := some { seen with names := m.name :: seen.names } }

namespace Site

variable (site : Site)

theorem memberView_checkMember (m : TypeMember) (st : ValidationState) :
    (checkMember m.name m.pos st).2.memberView = st.memberView.note m := by
  have hview : st.memberView.seen = st.members := rfl
  simp only [checkMember, run_bind, run_get, MemberView.note, hview]
  cases hmembers : st.members with
  | none => rfl
  | some seen =>
    dsimp only
    split
    · simp [ValidationState.memberView, TypeMember.repeatReport, repeatsMember_message,
        Finding.repeatsMember, hmembers]
    · rfl

/-- A property of a type is told from one of the namespace by its context. -/
theorem memberView_checkOwned {namespaceText owner : String} (howner : owner ≠ site.file.context)
    (m : TypeMember) (st : ValidationState) :
    (site.checkOwned ⟨namespaceText, owner, m⟩ st).2.memberView = st.memberView.note m := by
  rw [← memberView_checkMember]
  cases m with
  | property p =>
    have hmember : site.checkProperty owner p.name none p.pos = checkMember p.name p.pos := if_neg howner
    show (site.checkProperty owner p.name none p.pos st).2.memberView = _
    rw [hmember]
    rfl
  | reference r =>
    have hfound : Aside (site.checkReference ⟨namespaceText, owner, .reference r⟩) := aside_require rfl
    exact hfound (checkMember r.name r.pos st).2
  | method r => rfl

end Site

/-! ## The walk -/

def Node.isType : Node → Bool
  | declaration ⟨_, _, .type _⟩ => true
  | _ => false

theorem Routine.isInner_child {r : Routine} {child : Node} (h : child ∈ r.children) :
    child.isInner = true := by
  simp only [Routine.children, List.mem_cons, List.mem_append, List.mem_map, List.not_mem_nil,
    or_false] at h
  rcases h with rfl | ⟨p, -, rfl⟩ | rfl <;> rfl

theorem OwnedMember.isInner_child {m : OwnedMember} {child : Node}
    (h : child ∈ (Node.owned m).children) : child.isInner = true := by
  obtain ⟨namespaceText, owner, member⟩ := m
  cases member with
  | property p =>
    obtain rfl := List.mem_singleton.mp h
    rfl
  | reference r => simp [Node.children] at h
  | method r => exact Routine.isInner_child h

theorem Declaration.isInner_child {d : Declaration} (htype : (Node.declaration d).isType = false)
    {child : Node} (h : child ∈ (Node.declaration d).children) : child.isInner = true := by
  obtain ⟨context, number, member⟩ := d
  cases member with
  | type t => simp [Node.isType] at htype
  | property p | program p =>
    obtain rfl := List.mem_singleton.mp h
    rfl
  | function f => exact Routine.isInner_child h
  | relation r =>
    obtain ⟨field, -, rfl⟩ := List.mem_map.mp h
    rfl

namespace Site

variable (site : Site)

/-- Only a type opens and closes a set of names. -/
theorem memberView_around {node : Node} (h : node.isType = false) (st : ValidationState) :
    (site.enter node st).memberView = st.memberView ∧
      (site.leave node st).memberView = st.memberView := by
  cases node with
  | declaration d =>
    obtain ⟨context, number, member⟩ := d
    cases member with
    | type t => simp [Node.isType] at h
    | _ => exact ⟨rfl, rfl⟩
  | owned m =>
    obtain ⟨namespaceText, owner, member⟩ := m
    cases member <;> exact ⟨rfl, rfl⟩
  | statement s => cases s <;> exact ⟨rfl, rfl⟩
  | _ => exact ⟨rfl, rfl⟩

/-- Where each node acts on some part of what is known, a list of nodes does so one after the other. -/
theorem validateAll_foldl {β : Type} (part : ValidationState → β) (act : β → Node → β)
    {nodes : List Node}
    (h : ∀ node ∈ nodes, ∀ st, part (site.validate node.tree st).2 = act (part st) node)
    (st : ValidationState) :
    part (site.validateAll (nodes.map Node.tree) st).2 = nodes.foldl act (part st) := by
  induction nodes generalizing st with
  | nil => rfl
  | cons node nodes ih =>
    have hfirst := h node List.mem_cons_self st
    have hrest := ih (fun other hother => h other (List.mem_cons_of_mem _ hother))
      (site.validate node.tree st).2
    rw [List.foldl_cons, ← hfirst, ← hrest, List.map_cons, validateAll]

theorem memberView_of_children {node : Node} (htype : node.isType = false)
    (hchildren : ∀ child ∈ node.children, ∀ st,
      (site.validate child.tree st).2.memberView = st.memberView) (st : ValidationState) :
    (site.validate node.tree st).2.memberView
      = (site.check node (site.enter node st)).2.memberView := by
  rw [Node.tree_eq, validate_node, (site.memberView_around htype _).2,
    site.validateAll_foldl _ (fun view _ => view) hchildren, List.foldl_fixed]

theorem memberView_inner (node : Node) (h : node.isInner = true) (st : ValidationState) :
    (site.validate node.tree st).2.memberView = st.memberView := by
  induction node using Node.induction generalizing st with
  | step node ih =>
    have htype : node.isType = false := by
      cases node <;> first | rfl | simp [Node.isInner] at h
    have hchildren : ∀ child ∈ node.children, ∀ st,
        (site.validate child.tree st).2.memberView = st.memberView := by
      intro child hchild
      exact ih child hchild (Node.inner_child h hchild child child.mem_preorder_self)
    rw [site.memberView_of_children htype hchildren, site.aside_check_inner h,
      (site.memberView_around htype st).1]

theorem memberView_owned {namespaceText owner : String} (howner : owner ≠ site.file.context)
    (m : TypeMember) (st : ValidationState) :
    (site.validate (Node.owned ⟨namespaceText, owner, m⟩).tree st).2.memberView
      = st.memberView.note m := by
  rw [site.memberView_of_children rfl fun child hchild =>
    site.memberView_inner child (OwnedMember.isInner_child hchild)]
  rw [check, memberView_checkOwned _ howner, (site.memberView_around rfl st).1]

end Site

/-! ## All members of a type -/

/-- The members whose name an earlier one has. -/
def repeatedMembers (members : List TypeMember) : List TypeMember :=
  (members.zipIdx.filter fun e => (members.take e.2).any (·.name == e.1.name)).map (·.1)

theorem repeatedMembers_concat (members : List TypeMember) (m : TypeMember) :
    repeatedMembers (members ++ [m])
      = repeatedMembers members ++ if m.name ∈ members.map (·.name) then [m] else [] := by
  have hbefore : ∀ e ∈ members.zipIdx, ((members ++ [m]).take e.2).any (·.name == e.1.name)
      = (members.take e.2).any (·.name == e.1.name) := by
    intro e he
    have hlt := List.snd_lt_of_mem_zipIdx he
    rw [List.take_append_of_le_length (by omega)]
  have hlast : ((members ++ [m]).take members.length).any (·.name == m.name)
      = decide (m.name ∈ members.map (·.name)) := by
    rw [List.take_left, Bool.eq_iff_iff]
    simp
  have hindex : [m].zipIdx (0 + members.length) = [(m, members.length)] := by simp
  unfold repeatedMembers
  rw [List.zipIdx_append, List.filter_append, List.map_append, List.filter_congr hbefore, hindex]
  congr 1
  by_cases hm : m.name ∈ members.map (·.name)
  · rw [if_pos hm, List.filter_cons_of_pos (by rw [hlast]; exact decide_eq_true hm)]
    rfl
  · rw [if_neg hm, List.filter_cons_of_neg (by rw [hlast]; simpa using hm)]
    rfl

/-- Every member is the first of its name or a repeated one. -/
theorem length_repeatedMembers (members : List TypeMember) :
    (repeatedMembers members).length + (members.map (·.name)).toFinset.card = members.length := by
  induction members using List.reverseRecOn with
  | nil => rfl
  | append_singleton members m ih =>
    have hnames : ((members ++ [m]).map (·.name)).toFinset
        = insert m.name (members.map (·.name)).toFinset := by
      ext name
      simp [eq_comm]
    rw [repeatedMembers_concat, hnames, List.length_append, List.length_append]
    by_cases hm : m.name ∈ members.map (·.name)
    · rw [if_pos hm, Finset.insert_eq_of_mem (List.mem_toFinset.mpr hm), List.length_singleton]
      omega
    · rw [if_neg hm, Finset.card_insert_of_notMem (mt List.mem_toFinset.mp hm), List.length_nil,
        List.length_singleton]
      omega

theorem repeatedMembers_eq_nil_iff {members : List TypeMember} :
    repeatedMembers members = [] ↔ (members.map (·.name)).Nodup := by
  induction members using List.reverseRecOn with
  | nil => simp [repeatedMembers]
  | append_singleton members m ih =>
    rw [repeatedMembers_concat, List.append_eq_nil_iff, ih, List.map_append, List.map_singleton,
      List.nodup_append]
    by_cases hm : m.name ∈ members.map (·.name) <;> simp_all

/-- After the members of a type the names seen are theirs, and the repeated ones have been reported. -/
theorem foldl_note (owner : String) (reports : List Diagnostic) (members : List TypeMember) :
    ∃ names, members.foldl MemberView.note ⟨some ⟨owner, []⟩, reports⟩
        = ⟨some ⟨owner, names⟩, reports ++ (repeatedMembers members).map (·.repeatReport owner)⟩ ∧
      ∀ name, name ∈ names ↔ name ∈ members.map (·.name) := by
  induction members using List.reverseRecOn with
  | nil => exact ⟨[], by simp [repeatedMembers], by simp⟩
  | append_singleton members m ih =>
    obtain ⟨names, hview, hnames⟩ := ih
    have hcontains : names.contains m.name = decide (m.name ∈ members.map (·.name)) := by
      rw [Bool.eq_iff_iff, List.contains_iff_mem, hnames, decide_eq_true_iff]
    rw [List.foldl_append, hview, List.foldl_cons, List.foldl_nil, repeatedMembers_concat]
    simp only [MemberView.note, hcontains, decide_eq_true_eq]
    by_cases hm : m.name ∈ members.map (·.name)
    · refine ⟨names, by simp only [if_pos hm]; simp, ?_⟩
      intro name
      rw [List.map_append, List.mem_append, hnames]
      constructor
      · exact .inl
      · rintro (hname | hname)
        · exact hname
        · rw [List.mem_singleton.mp hname]
          exact hm
    · refine ⟨m.name :: names, by simp only [if_neg hm]; simp, ?_⟩
      intro name
      rw [List.mem_cons, hnames, List.map_append, List.mem_append, or_comm]
      simp

/-! ## Types and files -/

/-- What the members of a declared type are reported for; nothing else has members. -/
def Declaration.repeatReports (d : Declaration) : List Diagnostic :=
  match d.member with
  | .type t => (repeatedMembers t.members).map (·.repeatReport d.qualifiedName)
  | _ => []

/-- What is reported of members below a node of a file. -/
def Node.repeatReports : Node → List Diagnostic
  | declaration d => d.repeatReports
  | _ => []

def MemberView.noteNode (view : MemberView) : Node → MemberView
  | .owned m => view.note m.member
  | _ => view

namespace Site

variable (site : Site)

theorem memberView_type {context : String} (hcontext : context = site.file.context) (number : Nat)
    (t : TypeDefinition) (st : ValidationState) :
    (site.validate (Node.declaration ⟨context, number, .type t⟩).tree st).2.memberView
      = ⟨none, st.memberView.reports ++ (Declaration.mk context number (.type t)).repeatReports⟩ := by
  let d : Declaration := ⟨context, number, .type t⟩
  have howner : d.qualifiedName ≠ site.file.context := by
    have hne : context ≠ "" := by
      rw [hcontext]
      exact site.file.context_ne_empty
    rw [← hcontext]
    exact qualify_ne_self hne t.name
  have hmembers : ∀ node ∈ (Node.declaration d).children, ∀ st,
      (site.validate node.tree st).2.memberView = st.memberView.noteNode node := by
    intro node hnode st
    obtain ⟨m, -, rfl⟩ := List.mem_map.mp hnode
    exact site.memberView_owned howner m st
  have hchecked : (site.check (.declaration d) (site.enter (.declaration d) st)).2.memberView
      = ⟨some ⟨d.qualifiedName, []⟩, st.memberView.reports⟩ :=
    site.aside_checkUnique _ _ _ _
  obtain ⟨names, hfold, -⟩ := foldl_note d.qualifiedName st.memberView.reports t.members
  have hwalked := site.validateAll_foldl _ MemberView.noteNode hmembers
    (site.check (.declaration d) (site.enter (.declaration d) st)).2
  rw [hchecked, Node.children, List.foldl_map] at hwalked
  have hreports := congrArg MemberView.reports (hwalked.trans hfold)
  rw [Node.tree_eq, validate_node]
  exact congrArg (MemberView.mk none) hreports

theorem reports_declaration {d : Declaration} (hcontext : d.context = site.file.context)
    (st : ValidationState) :
    (site.validate d.tree st).2.memberView.reports = st.memberView.reports ++ d.repeatReports := by
  show (site.validate (Node.declaration d).tree st).2.memberView.reports = _
  cases htype : (Node.declaration d).isType with
  | true =>
    obtain ⟨context, number, member⟩ := d
    cases member with
    | type t => rw [site.memberView_type hcontext]
    | _ => simp [Node.isType] at htype
  | false =>
    have hnone : d.repeatReports = [] := by
      obtain ⟨context, number, member⟩ := d
      cases member with
      | type t => simp [Node.isType] at htype
      | _ => rfl
    rw [site.memberView_of_children htype fun child hchild =>
        site.memberView_inner child (Declaration.isInner_child htype hchild),
      check, site.aside_checkDeclaration hcontext, (site.memberView_around htype st).1, hnone,
      List.append_nil]

theorem reports_child {node : Node} (h : node ∈ (Node.file site.file).children) (st : ValidationState) :
    (site.validate node.tree st).2.memberView.reports = st.memberView.reports ++ node.repeatReports := by
  rcases List.mem_append.mp h with h | h
  · obtain ⟨i, -, rfl⟩ := List.mem_map.mp h
    rw [site.memberView_of_children rfl (by simp [Node.children]), check, site.aside_checkImport,
      (site.memberView_around rfl st).1]
    exact (List.append_nil _).symm
  · obtain ⟨d, hd, rfl⟩ := List.mem_map.mp h
    exact site.reports_declaration (SourceFile.mem_declarations.mp hd).1 st

/-- What a file is reported for is what its types are, one after the other. -/
theorem reports_file :
    site.validateFile.2.entries.filter (·.repeatsMember)
      = site.file.declarations.flatMap (·.repeatReports) := by
  have hwalked := site.validateAll_foldl (·.memberView.reports)
    (fun reports node => reports ++ node.repeatReports) (fun node => site.reports_child) {}
  have himports : (site.file.imports.map Node.imported).flatMap Node.repeatReports = [] := by
    rw [List.flatMap_map, List.flatMap_eq_nil_iff]
    exact fun _ _ => rfl
  calc site.validateFile.2.entries.filter (·.repeatsMember)
      = (site.validate (Node.file site.file).tree {}).2.memberView.reports := rfl
    _ = (site.validateAll ((Node.file site.file).children.map Node.tree) {}).2.memberView.reports := by
        rw [Node.tree_eq, validate_node]
        rfl
    _ = (Node.file site.file).children.flatMap Node.repeatReports := by
        rw [hwalked, List.flatMap_eq_foldl]
        rfl
    _ = site.file.declarations.flatMap (·.repeatReports) := by
        rw [Node.children, List.flatMap_append, himports, List.nil_append, List.flatMap_map]
        rfl

end Site

/-! ## Types without repeated members -/

section Keyed

variable {α β : Type} {key : α → String} {l l' : List α}

theorem find_key_iff (hnodup : (l.map key).Nodup) {k : String} {a : α} :
    l.find? (key · == k) = some a ↔ a ∈ l ∧ key a = k := by
  constructor
  · intro h
    exact ⟨List.mem_of_find?_eq_some h, by simpa using List.find?_some h⟩
  · rintro ⟨ha, rfl⟩
    cases hfind : l.find? (key · == key a) with
    | none =>
      have hmiss := List.find?_eq_none.mp hfind a ha
      simp at hmiss
    | some b =>
      have hkey : key b = key a := by simpa using List.find?_some hfind
      rw [List.inj_on_of_nodup_map hnodup (List.mem_of_find?_eq_some hfind) ha hkey]

/-- Where no key stands twice, what is found under one does not depend on the order. -/
theorem find_key_of_perm (hperm : l.Perm l') (hnodup : (l.map key).Nodup) (k : String) :
    l.find? (key · == k) = l'.find? (key · == k) := by
  have hnodup' := (hperm.map key).nodup_iff.mp hnodup
  refine Option.ext fun a => ?_
  rw [find_key_iff hnodup, find_key_iff hnodup', hperm.mem_iff]

theorem nodup_map_filterMap {pick : α → Option β} {name : β → String}
    (hpick : ∀ a, ∀ b ∈ pick a, name b = key a) (hnodup : (l.map key).Nodup) :
    ((l.filterMap pick).map name).Nodup := by
  have hsublist : ((l.filterMap pick).map name).Sublist (l.map key) := by
    clear hnodup
    induction l with
    | nil => simp
    | cons a l ih =>
      cases ha : pick a with
      | none =>
        rw [List.filterMap_cons_none ha]
        exact ih.cons _
      | some b =>
        rw [List.filterMap_cons_some ha, List.map_cons, List.map_cons, hpick a b ha]
        exact ih.cons_cons _
  exact hnodup.sublist hsublist

theorem length_filter_key (hnodup : (l.map key).Nodup) (k : String) :
    (l.filter (key · == k)).length ≤ 1 := by
  have hcount := List.nodup_iff_count_le_one.mp hnodup k
  rwa [List.count, List.countP_map, List.countP_eq_length_filter] at hcount

end Keyed

theorem TypeMember.parts_named (m : TypeMember) :
    (∀ p ∈ m.property?, p.name = m.name) ∧ (∀ r ∈ m.reference?, r.name = m.name) ∧
      ∀ r ∈ m.method?, r.name = m.name := by
  cases m <;> simp [property?, reference?, method?, name]

section Distinct

variable {d d' : Declared TypeDefinition} (hnodup : (d.item.members.map (·.name)).Nodup)

include hnodup

theorem TypeDef.length_methods (name : String) : ((TypeDef.source d).methods name).length ≤ 1 := by
  have hmethods : (d.item.methods.map (·.name)).Nodup :=
    nodup_map_filterMap (fun m => m.parts_named.2.2) hnodup
  rw [methods, List.length_map]
  exact length_filter_key hmethods name

theorem TypeDef.fieldType_of_perm (hperm : d.item.members.Perm d'.item.members)
    (hcontext : d.file.context = d'.file.context) (himports : d.file.imports = d'.file.imports)
    (chain : Chain) (field : String) :
    (TypeDef.source d).fieldType? chain field = (TypeDef.source d').fieldType? chain field := by
  have hproperties : d.item.properties.find? (·.name == field)
      = d'.item.properties.find? (·.name == field) :=
    find_key_of_perm (hperm.filterMap _)
      (nodup_map_filterMap (fun m => m.parts_named.1) hnodup) field
  have hreferences : d.item.references.find? (·.name == field)
      = d'.item.references.find? (·.name == field) :=
    find_key_of_perm (hperm.filterMap _)
      (nodup_map_filterMap (fun m => m.parts_named.2.1) hnodup) field
  have hscope : (d.scope chain).Alike (d'.scope chain) := ⟨.refl chain, hcontext, himports⟩
  simp only [fieldType?, hproperties, hreferences, hcontext, funext hscope.denote]

end Distinct

/-- Each member whose name an earlier member of its type has is reported once, and no other member is. -/
theorem Site.repeated_members_reported (site : Site) :
    site.validateFile.2.entries.filter (·.repeatsMember)
      = site.file.declarations.flatMap (·.repeatReports) ∧
    (∀ d ∈ site.file.declarations, ∀ st : ValidationState,
      (site.validate d.tree st).2.log.entries.filter (·.repeatsMember)
        = st.log.entries.filter (·.repeatsMember) ++ d.repeatReports) ∧
    (∀ (d : Declaration) (t : TypeDefinition), d.member = .type t →
      d.repeatReports.length + (t.members.map (·.name)).toFinset.card = t.members.length) ∧
    (site.validateFile.2.entries = [] → ∀ d : Declared TypeDefinition,
      Member.type d.item ∈ site.file.members →
      (d.item.members.map (·.name)).Nodup ∧
      (∀ name, ((TypeDef.source d).methods name).length ≤ 1) ∧
      ∀ d' : Declared TypeDefinition, d.item.members.Perm d'.item.members →
        d.file.context = d'.file.context → d.file.imports = d'.file.imports →
        ∀ chain field,
          (TypeDef.source d).fieldType? chain field = (TypeDef.source d').fieldType? chain field) := by
  refine ⟨site.reports_file, ?_, ?_, ?_⟩
  · intro d hd st
    exact site.reports_declaration (SourceFile.mem_declarations.mp hd).1 st
  · rintro ⟨context, number, member⟩ t rfl
    rw [Declaration.repeatReports, List.length_map]
    exact length_repeatedMembers t.members
  · intro hclean d hmember
    have hreports := site.reports_file
    rw [hclean, List.filter_nil, eq_comm, List.flatMap_eq_nil_iff] at hreports
    obtain ⟨n, hn⟩ := List.mem_iff_getElem?.mp hmember
    have hnone := hreports ⟨site.file.context, n, .type d.item⟩
      (SourceFile.mem_declarations.mpr ⟨rfl, hn⟩)
    have hnodup := repeatedMembers_eq_nil_iff.mp (List.map_eq_nil_iff.mp hnone)
    exact ⟨hnodup, TypeDef.length_methods hnodup, fun d' => TypeDef.fieldType_of_perm hnodup⟩

/-- The name is a property of the namespace. -/
def dog : TypeDefinition :=
  ⟨"Dog", [.reference ⟨"name", none⟩, .property ⟨"age", .primitive "int" none, none⟩,
    .method ⟨"bark", .primitive "int" none, [], .block [] none, none⟩], none⟩

/-- The name stands in all three forms, and the body of the last has an error of its own. -/
def cat : TypeDefinition :=
  ⟨"Cat", [.property ⟨"name", .primitive "int" none, none⟩, .reference ⟨"name", none⟩,
    .method ⟨"name", .primitive "int" none, [], .returns none none, none⟩], none⟩

def kennelFile (others : List Member) : SourceFile where
  namespaceName := ⟨["kennel"], by decide, by decide⟩
  imports := []
  members := .property ⟨"name", .primitive "int" none, none⟩ :: .type dog :: others
  pos := none

def kennelSite (others : List Member) : Site :=
  let file := kennelFile others
  ⟨batchChain 0 [file] false .nothing, file, 0, 0⟩

def kennelType (members : List TypeMember) : Declared TypeDefinition :=
  ⟨kennelFile [], ⟨0, 0, 1⟩, { dog with members }⟩

theorem cat_named_thrice :
    (kennelSite []).validateFile.2.entries = [] ∧
      ((TypeDef.source (kennelType dog.members)).methods "bark").length ≤ 1 ∧
      (∀ chain, (TypeDef.source (kennelType dog.members)).fieldType? chain "age"
        = (TypeDef.source (kennelType dog.members.reverse)).fieldType? chain "age") ∧
      (kennelSite [.type cat]).validateFile.2.entries.filter (·.repeatsMember)
        = List.replicate 2 ⟨none, "Duplicate member `name` in type `kennel.Cat`"⟩ := by
  have hclean : (kennelSite []).validateFile.2.entries = [] := by decide +kernel
  have hmember : Member.type dog ∈ (kennelSite []).file.members := by simp [kennelSite, kennelFile]
  obtain ⟨-, -, -, hdistinct⟩ := (kennelSite []).repeated_members_reported
  obtain ⟨-, hmethods, horder⟩ := hdistinct hclean (kennelType dog.members) hmember
  obtain ⟨hreports, -⟩ := (kennelSite [.type cat]).repeated_members_reported
  refine ⟨hclean, hmethods "bark", ?_, hreports.trans (by decide +kernel)⟩
  exact (horder (kennelType dog.members.reverse) (List.reverse_perm _).symm rfl rfl · "age")

end SemanticCheck
