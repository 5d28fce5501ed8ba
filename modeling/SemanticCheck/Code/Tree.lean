/-!
# Ordered trees

A tree in preorder lists a node before the subtrees below it, from left to right. Numbering the nodes
in that order gives each one an index; the parent of a node and its children are then indices too.
-/

namespace SemanticCheck

inductive Tree (α : Type) where
  | node (label : α) (children : List (Tree α))

namespace Tree

variable {α : Type}

def label : Tree α → α
  | node a _ => a

def children : Tree α → List (Tree α)
  | node _ ts => ts

mutual

/-- The number of nodes. -/
def size : Tree α → Nat
  | node _ ts => sizes ts + 1

def sizes : List (Tree α) → Nat
  | [] => 0
  | t :: ts => t.size + sizes ts

end

mutual

/-- The subtrees of all nodes, in preorder. -/
def subtrees : Tree α → List (Tree α)
  | node a ts => node a ts :: subtreesOf ts

def subtreesOf : List (Tree α) → List (Tree α)
  | [] => []
  | t :: ts => t.subtrees ++ subtreesOf ts

end

/-- The labels of all nodes, in preorder. -/
def preorder (t : Tree α) : List α := t.subtrees.map (·.label)

theorem sizes_append (ts us : List (Tree α)) : sizes (ts ++ us) = sizes ts + sizes us := by
  induction ts with
  | nil => simp [sizes]
  | cons t ts ih =>
    simp only [List.cons_append, sizes, ih]
    omega

/-- The labels that come off a stack of trees. The tree on top is taken, and its children go on the
stack in its place, the first one on top. -/
def unstack : List (Tree α) → List α
  | [] => []
  | node a ts :: stack => a :: unstack (ts ++ stack)
termination_by stack => sizes stack
decreasing_by
  simp only [sizes_append, sizes, size]
  omega

/-- The labels of all nodes, in the order they come off a stack that holds the tree. -/
def descendants (t : Tree α) : List α := unstack [t]

/-- A node in its numbered tree. -/
structure Entry (α : Type) where
  label : α
  index : Nat
  parent : Option Nat
  children : List Nat
  deriving Repr

/-- The indices of neighbouring trees, the first of which has the given one. -/
def indicesFrom : Nat → List (Tree α) → List Nat
  | _, [] => []
  | n, t :: ts => n :: indicesFrom (n + t.size) ts

mutual

/-- The nodes in preorder, numbered from an index on. -/
def entriesFrom : Nat → Option Nat → Tree α → List (Entry α)
  | n, parent, node a ts =>
    ⟨a, n, parent, indicesFrom (n + 1) ts⟩ :: entriesOf (n + 1) (some n) ts

def entriesOf : Nat → Option Nat → List (Tree α) → List (Entry α)
  | _, _, [] => []
  | n, parent, t :: ts => entriesFrom n parent t ++ entriesOf (n + t.size) parent ts

end

def entries (t : Tree α) : List (Entry α) := entriesFrom 0 none t

end Tree

end SemanticCheck
