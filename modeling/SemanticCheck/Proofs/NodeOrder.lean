import Mathlib.Data.List.Nodup
import Mathlib.Logic.Relation
import SemanticCheck.Proofs.MadeFile

/-!
# Made nodes in order

Nodes that were made one by one can be read as a tree from either side: down through the children of a
node, or up through the parent each was told of. Both give the same tree, and the nodes that come off a
stack are that tree in preorder.
-/

namespace SemanticCheck

namespace AnyNode

/-! ## Below a node -/

theorem induction {motive : AnyNode Made → Prop}
    (h : ∀ n, (∀ child ∈ n.children, motive child) → motive n) (n : AnyNode Made) : motive n :=
  h n fun child _ => induction h child
termination_by sizeOf n.node
decreasing_by exact sizeOf_child ‹_›

theorem descendants_eq (n : AnyNode Made) :
    n.descendants = n :: n.children.flatMap descendants := by
  have hbelow : ∀ m : AnyNode Made, m.descendants = m.tree.preorder :=
    fun m => Tree.descendants_eq_preorder m.tree
  rw [hbelow, tree_eq, Tree.preorder_node, List.flatMap_map]
  simp only [← hbelow]

/-- One of the children. -/
def HasChild (n child : AnyNode Made) : Prop := child ∈ n.children

theorem mem_descendants {n m : AnyNode Made} :
    m ∈ n.descendants ↔ Relation.ReflTransGen HasChild n m := by
  induction n using induction with
  | h n ih =>
    rw [descendants_eq, List.mem_cons, List.mem_flatMap, Relation.ReflTransGen.cases_head_iff, eq_comm]
    refine or_congr Iff.rfl (exists_congr fun child => and_congr_right fun hchild => ?_)
    exact ih child hchild

theorem infix_descendants {n m : AnyNode Made} (h : m ∈ n.descendants) :
    m.descendants <:+: n.descendants := by
  induction n using induction with
  | h n ih =>
    rw [descendants_eq, List.mem_cons, List.mem_flatMap] at h
    obtain rfl | ⟨child, hchild, hm⟩ := h
    · exact List.infix_rfl
    · have hrun : child.descendants <:+: n.children.flatMap descendants :=
        List.infix_flatMap_of_mem hchild descendants
      rw [n.descendants_eq]
      exact ((ih child hchild hm).trans hrun).trans (List.suffix_cons _ _).isInfix

theorem sublist_children (n : AnyNode Made) : (n :: n.children).Sublist n.descendants := by
  have hsub : ∀ nodes : List (AnyNode Made), nodes.Sublist (nodes.flatMap descendants) := by
    intro nodes
    induction nodes with
    | nil => exact .slnil
    | cons m nodes ih =>
      rw [List.flatMap_cons, m.descendants_eq, List.cons_append]
      exact (ih.trans (List.sublist_append_right _ _)).cons_cons m
  rw [descendants_eq]
  exact (hsub _).cons_cons n

theorem ids_links (n : AnyNode Made) : n.links.ids = n.descendants.map id := by
  induction n using induction with
  | h n ih =>
    rw [links_eq, Tree.ids_node, descendants_eq, List.map_cons, List.flatMap_map, List.map_flatMap]
    exact congrArg (n.id :: ·) (List.flatMap_congr ih)

theorem parent_of_linked {n m child : AnyNode Made} (h : n.links.Linked) (hm : m ∈ n.descendants)
    (hchild : child ∈ m.children) : child.parent = some m.id := by
  induction n using induction with
  | h n ih =>
    rw [links_eq, Tree.linked_node, List.forall_mem_map] at h
    rw [descendants_eq, List.mem_cons, List.mem_flatMap] at hm
    obtain rfl | ⟨between, hbetween, hm⟩ := hm
    · have hparent := (h child hchild).1
      rwa [child.links_eq] at hparent
    · exact ih between hbetween (h between hbetween).2 hm

/-! ## Both ways -/

/-- The nodes from a root on, as they come off a stack: each before the nodes below it and with them in
one run, under the one node that has it as a child and whose number it was given. -/
structure InOrder (root : AnyNode Made) : Prop where
  preorder : ∀ n ∈ root.descendants, n.descendants = n :: n.children.flatMap descendants
  complete : ∀ n, n ∈ root.descendants ↔ Relation.ReflTransGen HasChild root n
  distinct : (root.descendants.map (·.id)).Nodup
  run : ∀ n ∈ root.descendants, n.descendants <:+: root.descendants
  free : root.parent = none
  parent : ∀ n ∈ root.descendants, n ≠ root → ∃ owner, [owner, n].Sublist root.descendants ∧
    n.parent = some owner.id ∧ ∀ other ∈ root.descendants, n ∈ other.children ↔ other = owner
  children : ∀ n ∈ root.descendants,
    n.children = root.descendants.filter fun m => m.parent == some n.id

theorem eq_filter_of_sublist {α : Type} {part whole : List α} {p : α → Bool} (hsub : part.Sublist whole)
    (hwhole : whole.Nodup) (hp : ∀ a ∈ whole, p a = true ↔ a ∈ part) : part = whole.filter p := by
  have hpart : part.filter p = part :=
    List.filter_eq_self.mpr fun a ha => (hp a (hsub.subset ha)).mpr ha
  have hperm : part.Perm (whole.filter p) := by
    rw [List.perm_ext_iff_of_nodup (hwhole.sublist hsub) (hwhole.filter p)]
    intro a
    rw [List.mem_filter]
    exact ⟨fun ha => ⟨hsub.subset ha, (hp a (hsub.subset ha)).mpr ha⟩, fun ha => (hp a ha.1).mp ha.2⟩
  have hfilter := hsub.filter p
  rw [hpart] at hfilter
  exact hfilter.eq_of_length hperm.length_eq

section

variable {root : AnyNode Made} (hlinked : root.links.Linked)
  (hdistinct : (root.descendants.map (·.id)).Nodup) (hfree : root.parent = none)

include hlinked hdistinct in
theorem owner_unique {n owner other : AnyNode Made} (howner : owner ∈ root.descendants)
    (hn : n ∈ owner.children) (hother : other ∈ root.descendants) :
    n ∈ other.children ↔ other = owner := by
  constructor
  · intro hn'
    have hid : some other.id = some owner.id :=
      (parent_of_linked hlinked hother hn').symm.trans (parent_of_linked hlinked howner hn)
    exact List.inj_on_of_nodup_map hdistinct hother howner (Option.some.inj hid)
  · rintro rfl
    exact hn

theorem exists_owner {n : AnyNode Made} (hn : n ∈ root.descendants) (hne : n ≠ root) :
    ∃ owner, owner ∈ root.descendants ∧ n ∈ owner.children := by
  obtain rfl | ⟨owner, howner, hchild⟩ := (mem_descendants.mp hn).cases_tail
  · exact absurd rfl hne
  · exact ⟨owner, mem_descendants.mpr howner, hchild⟩

include hlinked hdistinct hfree in
theorem inOrder : root.InOrder where
  preorder := fun n _ => n.descendants_eq
  complete := fun _ => mem_descendants
  distinct := hdistinct
  run := fun _ hn => infix_descendants hn
  free := hfree
  parent := by
    intro n hn hne
    obtain ⟨owner, howner, hchild⟩ := exists_owner hn hne
    have hpair : [owner, n].Sublist (owner :: owner.children) :=
      (List.singleton_sublist.mpr hchild).cons_cons owner
    refine ⟨owner, ?_, parent_of_linked hlinked howner hchild, ?_⟩
    · exact (hpair.trans owner.sublist_children).trans (infix_descendants howner).sublist
    · exact fun other hother => owner_unique hlinked hdistinct howner hchild hother
  children := by
    intro n hn
    have hsub : n.children.Sublist root.descendants :=
      ((List.sublist_cons_self ..).trans n.sublist_children).trans (infix_descendants hn).sublist
    refine eq_filter_of_sublist hsub (List.Nodup.of_map _ hdistinct) fun m hm => ?_
    rw [beq_iff_eq]
    constructor
    · intro hparent
      have hne : m ≠ root := by
        rintro rfl
        simp [hfree] at hparent
      obtain ⟨owner, howner, hchild⟩ := exists_owner hm hne
      have hid : some owner.id = some n.id := (parent_of_linked hlinked howner hchild).symm.trans hparent
      rwa [← List.inj_on_of_nodup_map hdistinct howner hn (Option.some.inj hid)]
    · exact parent_of_linked hlinked hn

end

end AnyNode

theorem Workbench.inOrder {next : Nat} {bench : List (AnyNode Made)} (h : Workbench next bench)
    {root : AnyNode Made} (hroot : root ∈ bench) : root.InOrder := by
  have hforest := h.sound.forest
  have hlinks := List.mem_map_of_mem (f := AnyNode.links) hroot
  have hids : root.links.ids.Nodup :=
    (List.nodup_flatMap.mp hforest.distinct).1 _ hlinks
  rw [AnyNode.ids_links] at hids
  exact AnyNode.inOrder (hforest.linked _ hlinks) hids (h.sound.free hroot)

/-- However nodes were made, those in no other are in order, and any file can be made beside them. -/
theorem Workbench.nodes_in_order {next : Nat} {bench : List (AnyNode Made)} (h : Workbench next bench) :
    (∀ root ∈ bench, root.InOrder) ∧
    (∀ {k : NodeKind} (form : Form Made k) (rest : List (AnyNode Made)),
      bench.Perm (rest ++ form.children) → ∃ made, Made.new form next = some (made, next + 1)) ∧
    (∀ f : SourceFile, ∃ made next', f.make next = some (made, next') ∧
      Workbench next' (bench ++ [⟨.file, made⟩]) ∧ (AnyNode.mk .file made).InOrder ∧
      (AnyNode.mk .file made).outline = f.tree.outline) := by
  refine ⟨fun root hroot => h.inOrder hroot, ?_, ?_⟩
  · intro k form rest hperm
    obtain ⟨made, hnew, -⟩ := (h.sort hperm).sound.exists_new
    exact ⟨made, hnew⟩
  · intro f
    obtain ⟨made, next', hmade, hbench, houtline⟩ := f.makes next bench (by simpa using h)
    refine ⟨made, next', hmade, hbench, hbench.inOrder (by simp [oneNode]), ?_⟩
    simpa [oneNode] using houtline

/-- One function, with a parameter and a bare return. -/
def echoFile : SourceFile where
  namespaceName := ⟨["echo"], by decide, by decide⟩
  imports := [⟨⟨["lang"], by decide, by decide⟩, .all, none⟩]
  members := [.function ⟨"say", .void none, [⟨.array (.primitive "int" none) none, "words", none⟩],
    .block [.returns none none] none, none⟩]
  pos := none

/-- Beside an annotation that lies on the bench. -/
theorem echoFile_made :
    let void : Made .typeExpr := .mk { id := 1 } .void
    Workbench 2 [⟨.typeExpr, void⟩] ∧ (∃ made, Made.new (.array void) 2 = some (made, 3)) ∧
      ∃ made, echoFile.make 2 = some (made, 11) ∧ (AnyNode.mk .file made).InOrder := by
  intro void
  have hclear : Workbench 1 ([] ++ (Form.void : Form Made .typeExpr).children) := .clear 1
  have hbench : Workbench 2 [⟨.typeExpr, void⟩] := hclear.make rfl
  obtain ⟨-, hnew, hfile⟩ := hbench.nodes_in_order
  refine ⟨hbench, hnew (.array void) [] (.refl _), ?_⟩
  obtain ⟨made, next, hmade, -, horder, -⟩ := hfile echoFile
  have hnext : (echoFile.make 2).map (·.2) = some 11 := by rfl
  rw [hmade] at hnext
  cases hnext
  exact ⟨made, hmade, horder⟩

end SemanticCheck
