import SemanticCheck.Proofs.Binding

/-!
# The workbench

Nodes are made in any order, and several trees may grow side by side. Those that stand in no node yet lie
on the workbench: a new node takes its parts from there and is put down in their place. Whatever was
done, the trees on the bench have no number in common, each part points at the node around it, and what
lies there can be taken as a part without being refused.
-/

namespace SemanticCheck

/-! ## Forests -/

namespace Tree

def ids (t : Tree Link) : List Nat := t.preorder.map (·.id)

/-- Every node below points at the node it is a child of. -/
def Linked (t : Tree Link) : Prop :=
  ∀ s ∈ t.subtrees, ∀ child ∈ s.children, child.label.parent = some s.label.id

@[simp] theorem ids_node (a : Link) (ts : List (Tree Link)) :
    (node a ts).ids = a.id :: ts.flatMap ids := by
  simp only [ids, preorder_node, List.map_cons, List.map_flatMap]
  rfl

theorem linked_node {a : Link} {ts : List (Tree Link)} :
    (node a ts).Linked ↔ ∀ t ∈ ts, t.label.parent = some a.id ∧ t.Linked := by
  simp only [Linked, subtrees, subtreesOf_eq, List.forall_mem_cons, List.mem_flatMap]
  constructor
  · rintro ⟨hroot, hbelow⟩ t ht
    exact ⟨hroot t ht, fun s hs => hbelow s ⟨t, ht, hs⟩⟩
  · intro h
    refine ⟨fun t ht => (h t ht).1, ?_⟩
    rintro s ⟨t, ht, hs⟩
    exact (h t ht).2 s hs

@[simp] theorem ids_under (parent : Nat) (t : Tree Link) : (t.under parent).ids = t.ids := by
  cases t
  simp [under]

theorem linked_under {parent : Nat} {t : Tree Link} : (t.under parent).Linked ↔ t.Linked := by
  cases t
  simp only [under, linked_node]

end Tree

/-- Trees that stand in no other, with distinct numbers below the next one. -/
structure SoundForest (next : Nat) (ts : List (Tree Link)) : Prop where
  linked : ∀ t ∈ ts, t.Linked
  free : ∀ t ∈ ts, t.label.parent = none
  distinct : (ts.flatMap (·.ids)).Nodup
  below : ∀ id ∈ ts.flatMap (·.ids), id < next

namespace SoundForest

variable {next : Nat} {ts us : List (Tree Link)}

theorem perm (h : SoundForest next ts) (hperm : ts.Perm us) : SoundForest next us where
  linked := fun t ht => h.linked t (hperm.mem_iff.mpr ht)
  free := fun t ht => h.free t (hperm.mem_iff.mpr ht)
  distinct := (hperm.flatMap_right _).nodup_iff.mp h.distinct
  below := fun id hid => h.below id ((hperm.flatMap_right _).mem_iff.mpr hid)

theorem left (h : SoundForest next (ts ++ us)) : SoundForest next ts where
  linked := fun t ht => h.linked t (List.mem_append_left us ht)
  free := fun t ht => h.free t (List.mem_append_left us ht)
  distinct := by
    have hdistinct := h.distinct
    rw [List.flatMap_append] at hdistinct
    exact (List.nodup_append.mp hdistinct).1
  below := by
    intro id hid
    refine h.below id ?_
    rw [List.flatMap_append]
    exact List.mem_append_left _ hid

/-- A new tree over some of the trees, under the next number. -/
theorem new (h : SoundForest next (ts ++ us)) (kind : NodeKind) :
    SoundForest (next + 1) (ts ++ [.node ⟨kind, next, none, none⟩ (us.map (Tree.under next))]) := by
  have hids : (ts ++ [Tree.node ⟨kind, next, none, none⟩ (us.map (Tree.under next))]).flatMap Tree.ids
      = ts.flatMap Tree.ids ++ next :: us.flatMap Tree.ids := by
    simp [List.flatMap_append, List.flatMap_map]
  have hperm : (ts.flatMap Tree.ids ++ next :: us.flatMap Tree.ids).Perm
      (next :: (ts ++ us).flatMap Tree.ids) := by
    rw [List.flatMap_append]
    exact List.perm_middle
  refine ⟨?_, ?_, ?_, ?_⟩
  · intro t ht
    rcases List.mem_append.mp ht with ht | ht
    · exact h.linked t (List.mem_append_left us ht)
    · obtain rfl := List.mem_singleton.mp ht
      rw [Tree.linked_node, List.forall_mem_map]
      intro u hu
      refine ⟨by cases u; rfl, ?_⟩
      rw [Tree.linked_under]
      exact h.linked u (List.mem_append_right ts hu)
  · intro t ht
    rcases List.mem_append.mp ht with ht | ht
    · exact h.free t (List.mem_append_left us ht)
    · obtain rfl := List.mem_singleton.mp ht
      rfl
  · rw [hids, hperm.nodup_iff, List.nodup_cons]
    exact ⟨fun hnext => Nat.lt_irrefl _ (h.below next hnext), h.distinct⟩
  · intro id hid
    rw [hids, hperm.mem_iff, List.mem_cons] at hid
    rcases hid with rfl | hid
    · omega
    · have := h.below id hid
      omega

theorem placeLast {a : Link} (h : SoundForest next (ts ++ [.node a us])) (pos : Option Position) :
    SoundForest next (ts ++ [.node { a with pos } us]) := by
  obtain ⟨hlinked, hfree, hdistinct, hbelow⟩ := h
  simp only [List.forall_mem_append, List.forall_mem_singleton, List.flatMap_append,
    List.flatMap_singleton, Tree.linked_node, Tree.ids_node] at hlinked hfree hdistinct hbelow
  refine ⟨?_, ?_, ?_, ?_⟩
  all_goals
    simpa only [List.forall_mem_append, List.forall_mem_singleton, List.flatMap_append,
      List.flatMap_singleton, Tree.linked_node, Tree.ids_node]

end SoundForest

/-! ## The bench -/

/-- The next number and the nodes that stand in no node yet, after any number of steps. -/
inductive Workbench : Nat → List (AnyNode Made) → Prop
  | clear (next : Nat) : Workbench next []
  | make {next next' : Nat} {bench : List (AnyNode Made)} {k : NodeKind} {form : Form Made k}
      {made : Made k} (h : Workbench next (bench ++ form.children))
      (hnew : Made.new form next = some (made, next')) : Workbench next' (bench ++ [⟨k, made⟩])
  | place {next : Nat} {bench : List (AnyNode Made)} {k : NodeKind} {made made' : Made k}
      {pos : Position} (h : Workbench next (bench ++ [⟨k, made⟩]))
      (hplace : made.attach? pos = some made') : Workbench next (bench ++ [⟨k, made'⟩])
  | sort {next : Nat} {bench bench' : List (AnyNode Made)} (h : Workbench next bench)
      (hperm : bench.Perm bench') : Workbench next bench'
  | discard {next : Nat} {bench : List (AnyNode Made)} {n : AnyNode Made}
      (h : Workbench next (bench ++ [n])) : Workbench next bench

/-- What holds of the bench after every step. -/
structure SoundBench (next : Nat) (bench : List (AnyNode Made)) : Prop where
  forest : SoundForest next (bench.map (·.links))
  unplaced : ∀ n ∈ bench, n.Unplaced

namespace SoundBench

variable {next : Nat} {bench : List (AnyNode Made)}

theorem free (h : SoundBench next bench) {n : AnyNode Made} (hn : n ∈ bench) : n.parent = none := by
  have hfree := h.forest.free _ (List.mem_map_of_mem hn)
  rwa [n.links_eq] at hfree

/-- Parts that lie on the bench can be put into a new node, which then lies there in their place. -/
theorem exists_new {k : NodeKind} {form : Form Made k} (h : SoundBench next (bench ++ form.children)) :
    ∃ made, Made.new form next = some (made, next + 1) ∧
      SoundBench (next + 1) (bench ++ [⟨k, made⟩]) ∧
      (AnyNode.mk k made).links
        = .node ⟨k, next, none, none⟩ (form.children.map fun part => part.links.under next) := by
  have hparts : ∀ part ∈ form.children, part.parent = none ∧ part.Unplaced := by
    intro part hpart
    have hmem := List.mem_append_right bench hpart
    exact ⟨h.free hmem, h.unplaced part hmem⟩
  obtain ⟨made, hnew, hunplaced, hlinks⟩ := Made.exists_new next hparts
  refine ⟨made, hnew, ⟨?_, ?_⟩, hlinks⟩
  · have hforest := h.forest
    rw [List.map_append] at hforest ⊢
    have hsound := hforest.new k
    rw [List.map_map] at hsound
    rwa [List.map_singleton, hlinks]
  · intro n hn
    rcases List.mem_append.mp hn with hn | hn
    · exact h.unplaced n (List.mem_append_left _ hn)
    · obtain rfl := List.mem_singleton.mp hn
      exact hunplaced

theorem perm {bench' : List (AnyNode Made)} (h : SoundBench next bench) (hperm : bench.Perm bench') :
    SoundBench next bench' :=
  ⟨h.forest.perm (hperm.map _), fun n hn => h.unplaced n (hperm.mem_iff.mpr hn)⟩

theorem left {rest : List (AnyNode Made)} (h : SoundBench next (bench ++ rest)) :
    SoundBench next bench := by
  refine ⟨?_, fun n hn => h.unplaced n (List.mem_append_left rest hn)⟩
  have hforest := h.forest
  rw [List.map_append] at hforest
  exact hforest.left

theorem place {k : NodeKind} {made made' : Made k} {pos : Position}
    (h : SoundBench next (bench ++ [⟨k, made⟩])) (hplace : made.attach? pos = some made') :
    SoundBench next (bench ++ [⟨k, made'⟩]) := by
  obtain ⟨-, rfl⟩ := Made.attach_eq_some.mp hplace
  obtain ⟨hforest, hunplaced⟩ := h
  refine ⟨?_, ?_⟩
  · rw [List.map_append, List.map_singleton, AnyNode.links_eq] at hforest ⊢
    exact hforest.placeLast (some pos)
  · rw [List.forall_mem_append, List.forall_mem_singleton] at hunplaced ⊢
    exact hunplaced

end SoundBench

theorem Workbench.sound {next : Nat} {bench : List (AnyNode Made)} (h : Workbench next bench) :
    SoundBench next bench := by
  induction h with
  | clear next => exact ⟨⟨by simp, by simp, by simp, by simp⟩, by simp⟩
  | make _ hnew ih =>
    obtain ⟨made, hmade, hsound, -⟩ := ih.exists_new
    rw [hmade, Option.some.injEq, Prod.mk.injEq] at hnew
    obtain ⟨rfl, rfl⟩ := hnew
    exact hsound
  | place _ hplace ih => exact ih.place hplace
  | sort _ hperm ih => exact ih.perm hperm
  | discard _ ih => exact ih.left

end SemanticCheck
