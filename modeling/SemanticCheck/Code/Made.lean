import SemanticCheck.Code.Form
import SemanticCheck.Code.Node

/-!
# Made nodes

A node is made of nodes made before, and gets the next number. Its parts are told that number, and what
a file declares is told its context when the file is made. Each of these is written once: a part that
already stands in a node cannot be put into another.
-/

namespace SemanticCheck

/-! ## Tags -/

/-- What a node carries besides its form. -/
structure Tag extends NodeMark where
  id : Nat
  /-- What the name of a declaration is qualified with. -/
  context : Option String := none
  deriving DecidableEq, Repr

namespace Tag

def attach? (tag : Tag) (pos : Position) : Option Tag :=
  (tag.toNodeMark.attach? pos).map fun mark => { tag with toNodeMark := mark }

def bindParent? (tag : Tag) (parent : Nat) : Option Tag :=
  (tag.toNodeMark.bind? parent).map fun mark => { tag with toNodeMark := mark }

/-- Records the context. A second one is refused. -/
def bindContext? (tag : Tag) (context : String) : Option Tag :=
  match tag.context with
  | some _ => none
  | none => some { tag with context := some context }

end Tag

/-! ## Nodes -/

inductive Made : NodeKind → Type where
  | mk {k : NodeKind} (tag : Tag) (form : Form Made k) : Made k

namespace Made

variable {k : NodeKind}

def tag : Made k → Tag
  | mk tag _ => tag

def form : Made k → Form Made k
  | mk _ form => form

def attach? (made : Made k) (pos : Position) : Option (Made k) :=
  (made.tag.attach? pos).map fun tag => mk tag made.form

def bindParent? (made : Made k) (parent : Nat) : Option (Made k) :=
  (made.tag.bindParent? parent).map fun tag => mk tag made.form

def bindContext? (made : Made k) (context : String) : Option (Made k) :=
  (made.tag.bindContext? context).map fun tag => mk tag made.form

end Made

/-! ## Contexts -/

/-- A reference points at a property of the namespace, anything else belongs to the type. -/
def TypeMemberForm.bindContext? (namespaceText owner : String) :
    TypeMemberForm Made → Option (TypeMemberForm Made)
  | property p => return property (← p.bindContext? owner)
  | reference r => return reference (← r.bindContext? namespaceText)
  | method m => return method (← m.bindContext? owner)

/-- The context of a type, and from it those of its members. -/
def Made.bindTypeContext? (namespaceText : String) : Made .type → Option (Made .type)
  | mk tag (.type name members) => do
    let tag ← tag.bindContext? namespaceText
    let owner := qualify namespaceText name
    let members ← members.mapM (·.bindContext? namespaceText owner)
    return mk tag (.type name members)

def FileMemberForm.bindContext? (namespaceText : String) :
    FileMemberForm Made → Option (FileMemberForm Made)
  | type t => return type (← t.bindTypeContext? namespaceText)
  | property p => return property (← p.bindContext? namespaceText)
  | function f => return function (← f.bindContext? namespaceText)
  | program p => return program (← p.bindContext? namespaceText)
  | relation r => return relation (← r.bindContext? namespaceText)

/-- Only a file gives contexts. -/
def Form.bindContexts? {k : NodeKind} : Form Made k → Option (Form Made k)
  | file namespaceName imports members =>
    return file namespaceName imports (← members.mapM (·.bindContext? namespaceName.text))
  | form => some form

/-! ## Making -/

/-- A step that may take numbers for new nodes, and fails where a part is bound a second time. -/
abbrev Maker := StateT Nat Option

namespace Made

variable {k : NodeKind}

/-- The one way to a new node. -/
def new (form : Form Made k) : Maker (Made k) := fun next => do
  let bound ← form.bindParts (·.bindParent? next)
  let placed ← bound.bindContexts?
  return (mk { id := next } placed, next + 1)

/-- A new node, at the position it was read from. -/
def build (form : Form Made k) (pos : Option Position) : Maker (Made k) := do
  let made ← new form
  match pos with
  | none => return made
  | some pos => made.attach? pos

end Made

/-! ## The tree of a node -/

section

variable {k k' : NodeKind} {node : Made k'}

theorem sizeOf_nodesOf {nodes : List (Made k)} (h : ⟨k', node⟩ ∈ nodesOf nodes) :
    sizeOf node < sizeOf nodes := by
  obtain ⟨other, hother, heq⟩ := List.mem_map.mp h
  cases heq
  exact List.sizeOf_lt_of_mem hother

theorem sizeOf_optional {whole : Option (Made k)} (h : ⟨k', node⟩ ∈ nodesOf whole.toList) :
    sizeOf node < sizeOf whole := by
  obtain ⟨other, hother, heq⟩ := List.mem_map.mp h
  cases heq
  obtain rfl := Option.mem_toList.mp hother
  simp

theorem sizeOf_fileMember {members : List (FileMemberForm Made)}
    (h : ⟨k', node⟩ ∈ members.map (·.node)) : sizeOf node < sizeOf members := by
  obtain ⟨member, hmember, heq⟩ := List.mem_map.mp h
  have hlt := List.sizeOf_lt_of_mem hmember
  cases member <;> cases heq <;> simp at hlt <;> omega

theorem sizeOf_typeMember {members : List (TypeMemberForm Made)}
    (h : ⟨k', node⟩ ∈ members.map (·.node)) : sizeOf node < sizeOf members := by
  obtain ⟨member, hmember, heq⟩ := List.mem_map.mp h
  have hlt := List.sizeOf_lt_of_mem hmember
  cases member <;> cases heq <;> simp at hlt <;> omega

theorem sizeOf_routine {r : RoutineForm Made} (h : ⟨k', node⟩ ∈ r.children) :
    sizeOf node < sizeOf r := by
  obtain ⟨name, result, params, body⟩ := r
  simp only [RoutineForm.children, List.mem_cons, List.mem_append, List.not_mem_nil, or_false] at h
  simp only [RoutineForm.mk.sizeOf_spec]
  rcases h with h | h | h
  · cases h
    omega
  · have hlt := sizeOf_nodesOf h
    omega
  · cases h
    omega

theorem sizeOf_form {form : Form Made k} (h : ⟨k', node⟩ ∈ form.children) :
    sizeOf node < sizeOf form := by
  cases form
  all_goals
    simp only [Form.children, List.mem_append, List.mem_cons, List.not_mem_nil, or_false] at h
  all_goals repeat' (apply Or.elim h <;> clear h <;> intro h)
  -- Each child is a part by itself, or one of a list of parts.
  all_goals first
    | (cases h; simp; done)
    | (cases h; simp; omega)
    | (have hlt := sizeOf_nodesOf h; simp; omega)
    | (have hlt := sizeOf_optional h; simp; omega)
    | (have hlt := sizeOf_fileMember h; simp; omega)
    | (have hlt := sizeOf_typeMember h; simp; omega)
    | (have hlt := sizeOf_routine h; simp; omega)

end

namespace AnyNode

def tag (n : AnyNode Made) : Tag := n.node.tag

def id (n : AnyNode Made) : Nat := n.tag.id

def parent (n : AnyNode Made) : Option Nat := n.tag.parent

def pos (n : AnyNode Made) : Option Position := n.tag.pos

def context (n : AnyNode Made) : Option String := n.tag.context

/-- The immediate children, in source order. -/
def children (n : AnyNode Made) : List (AnyNode Made) := n.node.form.children

theorem sizeOf_child {n child : AnyNode Made} (h : child ∈ n.children) :
    sizeOf child.node < sizeOf n.node := by
  obtain ⟨k, tag, form⟩ := n
  have hlt := sizeOf_form h
  simp only [Made.mk.sizeOf_spec, Made.form] at hlt ⊢
  omega

/-- Everything below a node, each label a node with its parts. -/
def tree (n : AnyNode Made) : Tree (AnyNode Made) :=
  .node n (n.children.attach.map fun child => child.1.tree)
termination_by sizeOf n.node
decreasing_by exact sizeOf_child child.2

/-- A node and all nodes below it, in the order they come off a stack. -/
def descendants (n : AnyNode Made) : List (AnyNode Made) := n.tree.descendants

end AnyNode

end SemanticCheck
