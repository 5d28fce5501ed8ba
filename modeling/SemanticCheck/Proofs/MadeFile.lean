import SemanticCheck.Proofs.Workbench

/-!
# The nodes of a file are made

Every file can be made from its pieces on a bench that holds anything else, and its nodes are those the
file is walked by: the same tree, with the same kinds and positions.
-/

namespace SemanticCheck

/-! ## Outlines -/

/-- The kinds and positions in a tree of nodes. -/
abbrev Outline := Tree (String × Option Position)

def Tree.outline (t : NodeTree) : Outline := t.map fun n => (n.kind, n.pos)

namespace AnyNode

def outline (n : AnyNode Made) : Outline := n.tree.map fun m => (m.kind.text, m.pos)

theorem outline_eq (n : AnyNode Made) :
    n.outline = .node (n.kind.text, n.pos) (n.children.map outline) := by
  rw [outline, tree_eq, Tree.map_node, List.map_map]
  rfl

theorem outline_links (n : AnyNode Made) : n.outline = n.links.map fun l => (l.kind.text, l.pos) := by
  rw [links, Tree.map_map]
  rfl

/-- Parts that are put under a node keep their outlines. -/
theorem outline_children {n : AnyNode Made} {link : Link} {parts : List (AnyNode Made)} {parent : Nat}
    (h : n.links = .node link (parts.map fun part => part.links.under parent)) :
    n.children.map outline = parts.map outline := by
  have hunder : ∀ t : Tree Link, ((t.under parent).map fun l => (l.kind.text, l.pos))
      = t.map fun l => (l.kind.text, l.pos) := by
    intro t
    cases t
    simp [Tree.under]
  have houtline := n.outline_eq
  rw [outline_links, h, Tree.map_node, Tree.node.injEq, List.map_map] at houtline
  rw [← houtline.2]
  refine List.map_congr_left fun part _ => ?_
  rw [Function.comp_apply, hunder, outline_links]

end AnyNode

/-! ## What a step makes -/

/-- From a bench that ends in the given parts, the step uses them up and leaves nodes with the given
outlines in their place. The rest of the bench is as it was. -/
def Makes {α : Type} (step : Maker α) (parts : List (AnyNode Made)) (nodes : α → List (AnyNode Made))
    (seen : List Outline) : Prop :=
  ∀ next bench, Workbench next (bench ++ parts) →
    ∃ a next', step next = some (a, next') ∧ Workbench next' (bench ++ nodes a) ∧
      (nodes a).map AnyNode.outline = seen

def oneNode {k : NodeKind} (made : Made k) : List (AnyNode Made) := [⟨k, made⟩]

section

variable {α β : Type} {parts : List (AnyNode Made)} {nodes : α → List (AnyNode Made)}
  {nodes' : β → List (AnyNode Made)} {seen seen' : List Outline}

theorem Makes.bind {step : Maker α} {rest : α → Maker β} (hstep : Makes step [] nodes seen)
    (hrest : ∀ a, (nodes a).map AnyNode.outline = seen → Makes (rest a) (parts ++ nodes a) nodes' seen') :
    Makes (step >>= rest) parts nodes' seen' := by
  intro next bench hbench
  obtain ⟨a, next₁, ha, hbench₁, hseen⟩ := hstep next (bench ++ parts) (by simpa using hbench)
  rw [List.append_assoc] at hbench₁
  obtain ⟨b, next₂, hb, hbench₂, hseen'⟩ := hrest a hseen next₁ bench hbench₁
  refine ⟨b, next₂, ?_, hbench₂, hseen'⟩
  change (step next).bind (fun made => rest made.1 made.2) = _
  rw [ha]
  exact hb

theorem Makes.map {step : Maker α} {g : α → β} (hstep : Makes step parts nodes seen)
    (hnodes : ∀ a, nodes' (g a) = nodes a) : Makes (step >>= fun a => pure (g a)) parts nodes' seen := by
  intro next bench hbench
  obtain ⟨a, next', ha, hbench', hseen⟩ := hstep next bench hbench
  refine ⟨g a, next', ?_, by rwa [hnodes], by rwa [hnodes]⟩
  change (step next).bind (fun made => some (g made.1, made.2)) = _
  rw [ha]
  rfl

theorem makes_pure {a : α} (hparts : nodes a = parts) (hseen : parts.map AnyNode.outline = seen) :
    Makes (pure a) parts nodes seen := by
  intro next bench hbench
  exact ⟨a, next, rfl, by rwa [hparts], by rwa [hparts]⟩

/-- A list is made from its head on. -/
theorem makes_cons {node : α → AnyNode Made} {step : Maker α} {rest : Maker (List α)} {head : Outline}
    {tail : List Outline} (hstep : Makes step [] (fun a => [node a]) [head])
    (hrest : Makes rest [] (·.map node) tail) :
    Makes (step >>= fun a => rest >>= fun as => pure (a :: as)) [] (·.map node) (head :: tail) := by
  refine .bind hstep fun a ha => .bind hrest fun as has => makes_pure rfl ?_
  rw [List.map_append, has, List.nil_append, ha]
  rfl

theorem makes_mapM {node : β → AnyNode Made} {outline : α → Outline} {make : α → Maker β}
    (l : List α) (h : ∀ x ∈ l, Makes (make x) [] (fun b => [node b]) [outline x]) :
    Makes (l.mapM make) [] (·.map node) (l.map outline) := by
  induction l with
  | nil => exact makes_pure rfl rfl
  | cons x l ih =>
    rw [List.mapM_cons]
    exact makes_cons (h x (by simp)) (ih fun y hy => h y (by simp [hy]))

theorem makes_optional {γ : Type} {k : NodeKind} {outline : γ → Outline} {make : γ → Maker (Made k)}
    (o : Option γ) (h : ∀ x ∈ o, Makes (make x) [] oneNode [outline x]) :
    Makes (o.mapM make) [] (fun o => nodesOf o.toList) (o.toList.map outline) := by
  cases o with
  | none => exact makes_pure rfl rfl
  | some x =>
    rw [Option.mapM_some, map_eq_pure_bind]
    refine .bind (h x rfl) fun y hy => makes_pure rfl ?_
    rwa [List.nil_append]

/-- A new node over parts on the bench. -/
theorem makes_build {k : NodeKind} {form : Form Made k} (pos : Option Position)
    (hparts : form.children = parts) (hseen : parts.map AnyNode.outline = seen) :
    Makes (Made.build form pos) parts oneNode [.node (k.text, pos) seen] := by
  intro next bench hbench
  subst hparts
  obtain ⟨made, hnew, -, hlinks⟩ := hbench.sound.exists_new
  have hmake := hbench.make hnew
  have hchildren := (AnyNode.outline_children hlinks).trans hseen
  rw [AnyNode.links_eq, Tree.node.injEq, AnyNode.link, Link.mk.injEq] at hlinks
  have hpos : made.tag.pos = none := hlinks.1.2.2.2
  cases pos with
  | none =>
    refine ⟨made, next + 1, ?_, hmake, ?_⟩
    · simp [Made.build, hnew]
    · rw [oneNode, List.map_singleton, AnyNode.outline_eq, hchildren]
      simp [AnyNode.pos, AnyNode.tag, hpos]
  | some pos =>
    obtain ⟨placed, hplaced⟩ : ∃ placed, made.attach? pos = some placed :=
      ⟨_, Made.attach_eq_some.mpr ⟨hpos, rfl⟩⟩
    refine ⟨placed, next + 1, ?_, hmake.place hplaced, ?_⟩
    · change (Made.new form next).bind (fun made => (made.1.attach? pos).bind fun placed =>
        some (placed, made.2)) = _
      simp [hnew, hplaced]
    · obtain ⟨-, rfl⟩ := Made.attach_eq_some.mp hplaced
      rw [oneNode, List.map_singleton, AnyNode.outline_eq, ← hchildren]
      rfl

/-- A new node over parts on the bench, as the node of a tree over the trees of the parts. -/
theorem makes_node {k : NodeKind} {form : Form Made k} {pos : Option Position} {label : Node}
    {ts : List NodeTree} (hparts : form.children = parts)
    (hlabel : (k.text, pos) = (label.kind, label.pos))
    (hseen : parts.map AnyNode.outline = ts.map Tree.outline) :
    Makes (Made.build form pos) parts oneNode [(Tree.node label ts).outline] := by
  have hbuild := makes_build pos hparts hseen
  rw [hlabel] at hbuild
  rwa [Tree.outline, Tree.map_node]

end

/-! ## The pieces of a file -/

theorem TypeExpr.makes (a : TypeExpr) : Makes a.make [] oneNode [a.tree.outline] := by
  induction a with
  | array component pos ih =>
    rw [TypeExpr.make, TypeExpr.tree]
    refine .bind ih fun c hc => ?_
    exact makes_node rfl rfl hc
  | primitive name pos | reference name pos | void pos =>
    simp only [TypeExpr.make, TypeExpr.tree]
    exact makes_node rfl rfl rfl

theorem TypeIdentifier.makes (t : TypeIdentifier) : Makes t.make [] oneNode [t.tree.outline] := by
  rw [TypeIdentifier.make, TypeIdentifier.tree]
  exact makes_node rfl rfl rfl

mutual

theorem Expr.makes (e : Expr) : Makes e.make [] oneNode [e.tree.outline] := by
  cases e with
  | literal value pos | name name pos =>
    rw [Expr.make, Expr.tree]
    exact makes_node rfl rfl rfl
  | interpolation parts pos =>
    rw [Expr.make, Expr.tree]
    refine .bind (Expr.makesAll parts) fun ps hps => ?_
    exact makes_node rfl rfl hps
  | staticField subject field pos =>
    rw [Expr.make, Expr.tree]
    refine .bind subject.makes fun s hs => ?_
    exact makes_node rfl rfl hs
  | field subject field pos =>
    rw [Expr.make, Expr.tree]
    refine .bind subject.makes fun s hs => ?_
    exact makes_node rfl rfl hs
  | methodCall subject method args pos =>
    rw [Expr.make, Expr.tree]
    refine .bind subject.makes fun s hs => .bind (Argument.makesAll args) fun as has => ?_
    exact makes_node rfl rfl (by simp [hs, has])
  | call callee args pos =>
    rw [Expr.make, Expr.tree]
    refine .bind callee.makes fun c hc => .bind (Argument.makesAll args) fun as has => ?_
    exact makes_node rfl rfl (by simp [hc, has])
  | index array index pos =>
    rw [Expr.make, Expr.tree]
    refine .bind array.makes fun a ha => .bind index.makes fun i hi => ?_
    exact makes_node rfl rfl (by simp [ha, hi])
  | creation typeName args pos =>
    rw [Expr.make, Expr.tree]
    refine .bind (Argument.makesAll args) fun as has => ?_
    exact makes_node rfl rfl has
  | negation operand pos =>
    rw [Expr.make, Expr.tree]
    refine .bind operand.makes fun o ho => ?_
    exact makes_node rfl rfl ho
  | binary op left right pos =>
    rw [Expr.make, Expr.tree]
    refine .bind left.makes fun l hl => .bind right.makes fun r hr => ?_
    exact makes_node rfl rfl (by simp [hl, hr])

theorem Expr.makesAll (es : List Expr) :
    Makes (Expr.makeAll es) [] nodesOf ((Expr.trees es).map Tree.outline) := by
  cases es with
  | nil => exact makes_pure rfl rfl
  | cons e es =>
    rw [Expr.makeAll, Expr.trees]
    exact makes_cons e.makes (Expr.makesAll es)

theorem Argument.makes (a : Argument) : Makes a.make [] oneNode [a.tree.outline] := by
  cases a with
  | mk name value pos =>
    rw [Argument.make, Argument.tree]
    refine .bind value.makes fun v hv => ?_
    exact makes_node rfl rfl hv

theorem Argument.makesAll (as : List Argument) :
    Makes (Argument.makeAll as) [] nodesOf ((Argument.trees as).map Tree.outline) := by
  cases as with
  | nil => exact makes_pure rfl rfl
  | cons a as =>
    rw [Argument.makeAll, Argument.trees]
    exact makes_cons a.makes (Argument.makesAll as)

end

mutual

theorem Stmt.makes (s : Stmt) : Makes s.make [] oneNode [s.tree.outline] := by
  cases s with
  | block body pos =>
    rw [Stmt.make, Stmt.tree]
    refine .bind (Stmt.makesAll body) fun b hb => ?_
    exact makes_node rfl rfl hb
  | expression value pos =>
    rw [Stmt.make, Stmt.tree]
    refine .bind value.makes fun v hv => ?_
    exact makes_node rfl rfl hv
  | «variable» name value written pos =>
    rw [Stmt.make, Stmt.tree]
    refine .bind (makes_optional written fun a _ => a.makes) fun w hw => .bind value.makes fun v hv => ?_
    exact makes_node rfl rfl (by simp [hw, hv])
  | conditional condition thenBody elifs elseBody pos =>
    rw [Stmt.make, Stmt.tree]
    refine .bind condition.makes fun c hc => .bind thenBody.makes fun t ht =>
      .bind (Elif.makesAll elifs) fun es hes => .bind (Stmt.makesOptional elseBody) fun e he => ?_
    exact makes_node rfl rfl (by simp [hc, ht, hes, he])
  | returns value pos =>
    rw [Stmt.make, Stmt.tree]
    refine .bind (makes_optional value fun e _ => e.makes) fun v hv => ?_
    exact makes_node rfl rfl (by simp [hv])
  | throws value pos =>
    rw [Stmt.make, Stmt.tree]
    refine .bind value.makes fun v hv => ?_
    exact makes_node rfl rfl hv
  | tryCatch body catches pos =>
    rw [Stmt.make, Stmt.tree]
    refine .bind body.makes fun b hb => .bind (Catch.makesAll catches) fun cs hcs => ?_
    exact makes_node rfl rfl (by simp [hb, hcs])

theorem Stmt.makesAll (ss : List Stmt) :
    Makes (Stmt.makeAll ss) [] nodesOf ((Stmt.trees ss).map Tree.outline) := by
  cases ss with
  | nil => exact makes_pure rfl rfl
  | cons s ss =>
    rw [Stmt.makeAll, Stmt.trees]
    exact makes_cons s.makes (Stmt.makesAll ss)

theorem Stmt.makesOptional (s : Option Stmt) :
    Makes (Stmt.makeOptional s) [] (fun o => nodesOf o.toList)
      ((Stmt.optionTrees s).map Tree.outline) := by
  cases s with
  | none => exact makes_pure rfl rfl
  | some s =>
    rw [Stmt.makeOptional, Stmt.optionTrees]
    refine .bind s.makes fun made hmade => ?_
    exact makes_pure rfl hmade

theorem Elif.makes (e : Elif) : Makes e.make [] oneNode [e.tree.outline] := by
  cases e with
  | mk condition body pos =>
    rw [Elif.make, Elif.tree]
    refine .bind condition.makes fun c hc => .bind body.makes fun b hb => ?_
    exact makes_node rfl rfl (by simp [hc, hb])

theorem Elif.makesAll (es : List Elif) :
    Makes (Elif.makeAll es) [] nodesOf ((Elif.trees es).map Tree.outline) := by
  cases es with
  | nil => exact makes_pure rfl rfl
  | cons e es =>
    rw [Elif.makeAll, Elif.trees]
    exact makes_cons e.makes (Elif.makesAll es)

theorem Catch.makes (c : Catch) : Makes c.make [] oneNode [c.tree.outline] := by
  cases c with
  | mk type name body pos =>
    rw [Catch.make, Catch.tree]
    refine .bind type.makes fun t ht => .bind body.makes fun b hb => ?_
    exact makes_node rfl rfl (by simp [ht, hb])

theorem Catch.makesAll (cs : List Catch) :
    Makes (Catch.makeAll cs) [] nodesOf ((Catch.trees cs).map Tree.outline) := by
  cases cs with
  | nil => exact makes_pure rfl rfl
  | cons c cs =>
    rw [Catch.makeAll, Catch.trees]
    exact makes_cons c.makes (Catch.makesAll cs)

end

theorem Parameter.makes (p : Parameter) : Makes p.make [] oneNode [p.tree.outline] := by
  refine .bind p.type.makes fun t ht => ?_
  exact makes_node rfl rfl ht

theorem RelationField.makes (f : RelationField) : Makes f.make [] oneNode [f.tree.outline] := by
  refine .bind f.target.makes fun t ht => ?_
  exact makes_node rfl rfl ht

theorem Routine.makes (r : Routine) :
    Makes r.make [] RoutineForm.children (r.parts.map Tree.outline) := by
  refine .bind r.result.makes fun t ht => .bind (makes_mapM r.params fun p _ => p.makes) fun ps hps =>
    .bind r.body.makes fun b hb => ?_
  exact makes_pure rfl (by simp [Routine.parts, ht, hps, hb])

/-- A property is the same node in a file and in a type. -/
theorem Property.makes (p : Property) {label : Node}
    (hlabel : ("property", p.pos) = (label.kind, label.pos)) :
    Makes p.make [] oneNode [(Tree.node label [p.type.tree]).outline] := by
  refine .bind p.type.makes fun t ht => ?_
  exact makes_node rfl hlabel ht

theorem TypeMember.makes (m : TypeMember) (namespaceText owner : String) :
    Makes m.make [] (fun made => [made.node]) [(OwnedMember.mk namespaceText owner m).tree.outline] := by
  cases m with
  | property p => exact (p.makes rfl).map fun _ => rfl
  | reference r => exact .map (makes_node rfl rfl rfl) fun _ => rfl
  | method r =>
    refine .bind r.makes fun routine hr => ?_
    exact .map (makes_node rfl rfl hr) fun _ => rfl

theorem Member.makes (m : Member) (context : String) (number : Nat) :
    Makes m.make [] (fun made => [made.node]) [(Declaration.mk context number m).tree.outline] := by
  cases m with
  | type t =>
    have hmembers := makes_mapM t.members fun m _ =>
      m.makes context (Declaration.mk context number (.type t)).qualifiedName
    refine .bind hmembers fun ms hms => ?_
    exact .map (makes_node rfl rfl (by simpa [Function.comp_def] using hms)) fun _ => rfl
  | property p => exact (p.makes rfl).map fun _ => rfl
  | function r =>
    refine .bind r.makes fun routine hr => ?_
    exact .map (makes_node rfl rfl hr) fun _ => rfl
  | program p =>
    refine .bind p.body.makes fun b hb => ?_
    exact .map (makes_node rfl rfl hb) fun _ => rfl
  | relation r =>
    refine .bind (makes_mapM r.fields fun f _ => f.makes) fun fs hfs => ?_
    exact .map (makes_node rfl rfl (by simpa [Function.comp_def] using hfs)) fun _ => rfl

theorem Declaration.outline_number (context : String) (n n' : Nat) (m : Member) :
    (Declaration.mk context n m).tree.outline = (Declaration.mk context n' m).tree.outline := by
  cases m <;> rfl

theorem SourceFile.outline_declarations (f : SourceFile) :
    f.declarations.map (fun d => d.tree.outline)
      = f.members.map fun m => (Declaration.mk f.context 0 m).tree.outline := by
  conv_rhs => rw [← List.zipIdx_map_fst 0 f.members]
  rw [declarations, List.map_map, List.map_map]
  exact List.map_congr_left fun _ _ => Declaration.outline_number ..

theorem SourceFile.makes (f : SourceFile) : Makes f.make [] oneNode [f.tree.outline] := by
  have himports : ∀ i ∈ f.imports,
      Makes i.make [] oneNode [Tree.outline (.node (.imported i) [])] :=
    fun i _ => makes_node rfl rfl rfl
  have hmembers := makes_mapM f.members fun m _ => m.makes f.context 0
  rw [← f.outline_declarations] at hmembers
  refine .bind (makes_mapM f.imports himports) fun is his => .bind hmembers fun ms hms => ?_
  exact makes_node rfl rfl (by simp [his, hms, Function.comp_def])

end SemanticCheck
