import Mathlib.Data.List.Forall2
import SemanticCheck.Code.Construction
import SemanticCheck.Proofs.Preorder

/-!
# What making a node does to its parts

The nodes that are bound when a node is made are its children, kind by kind. Nothing else about them
changes that can be seen in the tree: they keep their numbers, and what is below them stays as it was.
-/

namespace SemanticCheck

/-! ## Lists of steps that may fail -/

theorem mapM_map_comm {α β : Type} {f : α → Option α} {f' : β → Option β} {g : α → β}
    (h : ∀ a, f' (g a) = (f a).map g) (l : List α) :
    (l.map g).mapM f' = (l.mapM f).map (List.map g) := by
  induction l with
  | nil => rfl
  | cons a l ih =>
    simp only [List.map_cons, List.mapM_cons, ih, h]
    cases f a <;> cases l.mapM f <;> rfl

theorem mapM_toList {α : Type} (f : α → Option α) (o : Option α) :
    o.toList.mapM f = (o.mapM f).map (·.toList) := by
  cases o with
  | none => rfl
  | some a => cases h : f a <;> simp [h]

theorem exists_mapM {α β : Type} {f : α → Option β} {r : α → β → Prop} {l : List α}
    (h : ∀ a ∈ l, ∃ b, f a = some b ∧ r a b) : ∃ l', l.mapM f = some l' ∧ List.Forall₂ r l l' := by
  induction l with
  | nil => exact ⟨[], rfl, .nil⟩
  | cons a l ih =>
    obtain ⟨b, hb, hr⟩ := h a (by simp)
    obtain ⟨l', hl', hrest⟩ := ih fun x hx => h x (by simp [hx])
    exact ⟨b :: l', by simp [List.mapM_cons, hb, hl'], .cons hr hrest⟩

theorem map_eq_of_forall₂ {α β γ : Type} {f : α → γ} {g : β → γ} {l : List α} {l' : List β}
    (h : List.Forall₂ (fun a b => g b = f a) l l') : l'.map g = l.map f := by
  induction h with
  | nil => rfl
  | cons hhead _ ih => simp [hhead, ih]

/-! ## Bound parts are the children -/

section Tables

variable {κ : NodeKind → Type} (bind : ∀ {k}, κ k → Option (κ k))

def AnyNode.bindWith (n : AnyNode κ) : Option (AnyNode κ) :=
  (bind n.node).map fun node => ⟨n.kind, node⟩

theorem mapM_nodesOf {k : NodeKind} (nodes : List (κ k)) :
    (nodesOf nodes).mapM (AnyNode.bindWith bind) = (nodes.mapM bind).map nodesOf :=
  mapM_map_comm (g := fun node => AnyNode.mk k node) (fun _ => rfl) nodes

theorem mapM_fileMembers (members : List (FileMemberForm κ)) :
    (members.map (·.node)).mapM (AnyNode.bindWith bind)
      = (members.mapM (FileMemberForm.bindWith bind)).map (List.map (·.node)) := by
  refine mapM_map_comm (fun member => ?_) members
  cases member
  all_goals
    simp only [FileMemberForm.bindWith, Option.bind_eq_bind, Option.pure_def, Option.map_bind]
    exact Option.map_eq_bind ..

theorem mapM_typeMembers (members : List (TypeMemberForm κ)) :
    (members.map (·.node)).mapM (AnyNode.bindWith bind)
      = (members.mapM (TypeMemberForm.bindWith bind)).map (List.map (·.node)) := by
  refine mapM_map_comm (fun member => ?_) members
  cases member
  all_goals
    simp only [TypeMemberForm.bindWith, Option.bind_eq_bind, Option.pure_def, Option.map_bind]
    exact Option.map_eq_bind ..

/-- Binding the parts of a node, whatever its kind, is binding its children one after the other. -/
theorem children_bindParts {k : NodeKind} (form : Form κ k) :
    (form.bindParts bind).map Form.children = form.children.mapM (AnyNode.bindWith bind) := by
  cases form
  all_goals simp only [Form.bindParts, RoutineForm.bindWith, Form.children, RoutineForm.children]
  all_goals simp only [List.mapM_append, List.mapM_cons, List.mapM_nil, mapM_nodesOf, mapM_toList,
    mapM_fileMembers, mapM_typeMembers, AnyNode.bindWith, Option.bind_eq_bind, Option.pure_def]
  -- Both sides bind the same nodes in the same order; what is left is to bracket them alike.
  all_goals simp only [Option.map_eq_bind, Option.bind_assoc, Option.bind_some, Function.comp_def]
  all_goals rfl

end Tables

/-! ## Links -/

namespace Tree

variable {α β : Type}

mutual

def map (f : α → β) : Tree α → Tree β
  | node a ts => node (f a) (mapAll f ts)

def mapAll (f : α → β) : List (Tree α) → List (Tree β)
  | [] => []
  | t :: ts => t.map f :: mapAll f ts

end

theorem mapAll_eq (f : α → β) (ts : List (Tree α)) : mapAll f ts = ts.map (map f) := by
  induction ts with
  | nil => rfl
  | cons t ts ih => rw [mapAll, ih, List.map_cons]

@[simp] theorem map_node (f : α → β) (a : α) (ts : List (Tree α)) :
    (node a ts).map f = node (f a) (ts.map (map f)) := by
  rw [map, mapAll_eq]

mutual

theorem map_map {γ : Type} (f : α → β) (g : β → γ) (t : Tree α) :
    (t.map f).map g = t.map fun a => g (f a) := by
  cases t with
  | node a ts => rw [map, map, map, mapAll_map f g ts]

theorem mapAll_map {γ : Type} (f : α → β) (g : β → γ) (ts : List (Tree α)) :
    mapAll g (mapAll f ts) = mapAll (fun a => g (f a)) ts := by
  cases ts with
  | nil => rfl
  | cons t ts => rw [mapAll, mapAll, mapAll, map_map f g t, mapAll_map f g ts]

end

end Tree

/-- What the tree shows of a node: everything but its context and its data. -/
structure Link where
  kind : NodeKind
  id : Nat
  parent : Option Nat
  pos : Option Position

namespace AnyNode

def link (n : AnyNode Made) : Link := ⟨n.kind, n.id, n.parent, n.pos⟩

def links (n : AnyNode Made) : Tree Link := n.tree.map link

theorem tree_eq (n : AnyNode Made) : n.tree = .node n (n.children.map tree) := by
  rw [tree]
  congr 1
  exact List.attach_map_val ..

theorem links_eq (n : AnyNode Made) : n.links = .node n.link (n.children.map links) := by
  rw [links, tree_eq, Tree.map_node, List.map_map]
  rfl

/-- A node with the same link over the same links has the same links. -/
theorem links_congr {n n' : AnyNode Made} (hlink : n'.link = n.link)
    (hchildren : n'.children.map links = n.children.map links) : n'.links = n.links := by
  rw [links_eq, links_eq, hlink, hchildren]

end AnyNode

/-! ## Binding the parent -/

/-- The tree with its root under a node. -/
def Tree.under (parent : Nat) : Tree Link → Tree Link
  | node a ts => node { a with parent := some parent } ts

def Made.under {k : NodeKind} (parent : Nat) (made : Made k) : Made k :=
  mk { made.tag with parent := some parent } made.form

def AnyNode.under (parent : Nat) (n : AnyNode Made) : AnyNode Made := ⟨n.kind, n.node.under parent⟩

theorem Made.bindParent_eq {k : NodeKind} {made : Made k} (h : made.tag.parent = none) (parent : Nat) :
    made.bindParent? parent = some (made.under parent) := by
  simp [bindParent?, Tag.bindParent?, NodeMark.bind?, h, under]

theorem AnyNode.links_under (parent : Nat) (n : AnyNode Made) :
    (n.under parent).links = n.links.under parent := by
  rw [links_eq, links_eq]
  rfl

theorem exists_bindParts {k : NodeKind} {form : Form Made k}
    (h : ∀ part ∈ form.children, part.parent = none) (parent : Nat) :
    ∃ bound, form.bindParts (·.bindParent? parent) = some bound ∧
      bound.children = form.children.map (AnyNode.under parent) := by
  have hparts : ∀ part ∈ form.children, ∃ part',
      AnyNode.bindWith (·.bindParent? parent) part = some part' ∧ id part' = part.under parent := by
    intro part hpart
    refine ⟨_, ?_, rfl⟩
    rw [AnyNode.bindWith, Made.bindParent_eq (h part hpart)]
    rfl
  obtain ⟨parts, hsome, heq⟩ := exists_mapM hparts
  rw [← children_bindParts, Option.map_eq_some_iff] at hsome
  obtain ⟨bound, hbound, rfl⟩ := hsome
  exact ⟨bound, hbound, by simpa using map_eq_of_forall₂ heq⟩

/-! ## Binding the context -/

/-- Not yet in a file: no context is bound, nor one of the members if it is a type. -/
def AnyNode.Unplaced (n : AnyNode Made) : Prop :=
  n.context = none ∧ (n.kind = .type → ∀ member ∈ n.children, member.context = none)

theorem Made.exists_bindContext {k : NodeKind} {made : Made k} (h : made.tag.context = none)
    (context : String) :
    ∃ made', made.bindContext? context = some made' ∧
      (AnyNode.mk k made').links = (AnyNode.mk k made).links := by
  refine ⟨mk { made.tag with context := some context } made.form, ?_, ?_⟩
  · simp [bindContext?, Tag.bindContext?, h]
  · exact AnyNode.links_congr rfl rfl

theorem TypeMemberForm.exists_bindContext {m : TypeMemberForm Made} (h : m.node.context = none)
    (namespaceText owner : String) :
    ∃ m', m.bindContext? namespaceText owner = some m' ∧ m'.node.links = m.node.links := by
  cases m with
  | property p | method p =>
    obtain ⟨p', hp', hlinks⟩ := p.exists_bindContext h owner
    simpa [bindContext?, node, hp'] using hlinks
  | reference r =>
    obtain ⟨r', hr', hlinks⟩ := r.exists_bindContext h namespaceText
    simpa [bindContext?, node, hr'] using hlinks

theorem Made.exists_bindTypeContext {t : Made .type} (h : (AnyNode.mk .type t).Unplaced)
    (namespaceText : String) :
    ∃ t', t.bindTypeContext? namespaceText = some t' ∧
      (AnyNode.mk .type t').links = (AnyNode.mk .type t).links := by
  obtain ⟨tag, form⟩ := t
  cases form with
  | type name members =>
    obtain ⟨hown, hmembers⟩ := h
    have hmembers' : ∀ m ∈ members, ∃ m',
        m.bindContext? namespaceText (qualify namespaceText name) = some m' ∧
          m'.node.links = m.node.links := by
      intro m hm
      exact TypeMemberForm.exists_bindContext (hmembers rfl _ (List.mem_map.mpr ⟨m, hm, rfl⟩)) _ _
    obtain ⟨members', hsome, hlinks⟩ := exists_mapM hmembers'
    refine ⟨mk { tag with context := some namespaceText } (.type name members'), ?_, ?_⟩
    · have htag : tag.context = none := hown
      simp [bindTypeContext?, Tag.bindContext?, htag, hsome]
    · refine AnyNode.links_congr rfl ?_
      simpa [AnyNode.children, form, Form.children, Function.comp_def] using map_eq_of_forall₂ hlinks

theorem FileMemberForm.exists_bindContext {m : FileMemberForm Made} (h : m.node.Unplaced)
    (namespaceText : String) :
    ∃ m', m.bindContext? namespaceText = some m' ∧ m'.node.links = m.node.links := by
  cases m with
  | type t =>
    obtain ⟨t', ht', hlinks⟩ := Made.exists_bindTypeContext h namespaceText
    simpa [bindContext?, node, ht'] using hlinks
  | property d | function d | program d | relation d =>
    obtain ⟨d', hd', hlinks⟩ := d.exists_bindContext h.1 namespaceText
    simpa [bindContext?, node, hd'] using hlinks

theorem exists_bindContexts {k : NodeKind} {form : Form Made k}
    (h : ∀ part ∈ form.children, part.Unplaced) :
    ∃ placed, form.bindContexts? = some placed ∧
      placed.children.map AnyNode.links = form.children.map AnyNode.links := by
  cases form with
  | file namespaceName imports members =>
    have hmembers : ∀ m ∈ members, ∃ m', m.bindContext? namespaceName.text = some m' ∧
        m'.node.links = m.node.links := by
      intro m hm
      have hmem : m.node ∈ (Form.file namespaceName imports members).children :=
        List.mem_append_right _ (List.mem_map.mpr ⟨m, hm, rfl⟩)
      exact FileMemberForm.exists_bindContext (h _ hmem) _
    obtain ⟨members', hsome, hlinks⟩ := exists_mapM hmembers
    refine ⟨.file namespaceName imports members', by simp [Form.bindContexts?, hsome], ?_⟩
    simpa [Form.children, Function.comp_def] using map_eq_of_forall₂ hlinks
  | _ => exact ⟨_, rfl, rfl⟩

/-! ## New nodes and their positions -/

theorem Made.attach_eq_some {k : NodeKind} {made made' : Made k} {pos : Position} :
    made.attach? pos = some made' ↔
      made.tag.pos = none ∧ mk { made.tag with pos := some pos } made.form = made' := by
  unfold attach? Tag.attach? NodeMark.attach?
  cases made.tag.pos <;> simp

theorem Form.bindContexts_of_ne {k : NodeKind} (hk : k ≠ .file) (form : Form Made k) :
    form.bindContexts? = some form := by
  cases form <;> first | rfl | exact absurd rfl hk

/-- Making a node of parts that stand in no node yet gives a node with the next number over all of them,
each told that number, and one that stands in no node yet itself. -/
theorem Made.exists_new {k : NodeKind} {form : Form Made k} (next : Nat)
    (hfree : ∀ part ∈ form.children, part.parent = none ∧ part.Unplaced) :
    ∃ made, new form next = some (made, next + 1) ∧ (AnyNode.mk k made).Unplaced ∧
      (AnyNode.mk k made).links
        = .node ⟨k, next, none, none⟩ (form.children.map fun part => part.links.under next) := by
  obtain ⟨bound, hbound, hparts⟩ := exists_bindParts (fun part hpart => (hfree part hpart).1) next
  have hcontext : ∀ part ∈ bound.children, part.Unplaced := by
    rw [hparts, List.forall_mem_map]
    exact fun part hpart => (hfree part hpart).2
  obtain ⟨placed, hplaced, hlinks⟩ := exists_bindContexts hcontext
  refine ⟨mk { id := next } placed, ?_, ⟨rfl, ?_⟩, ?_⟩
  · simp [new, hbound, hplaced]
  · -- Only a file binds contexts, so the members of a type are as they were put in.
    rintro rfl
    rw [Form.bindContexts_of_ne (by decide)] at hplaced
    cases hplaced
    exact fun member hmember => (hcontext member hmember).1
  · rw [AnyNode.links_eq]
    have hchildren : (AnyNode.mk k (mk { id := next } placed)).children = placed.children := rfl
    rw [hchildren, hlinks, hparts, List.map_map]
    congr 1
    exact List.map_congr_left fun part _ => part.links_under next

end SemanticCheck
