import SemanticCheck.Proofs.Preorder
import SemanticCheck.Proofs.Registration
import SemanticCheck.Proofs.Settled

/-!
# Clean batches

In a batch about which nothing was recorded, everything that can be found has a type: every annotation
stands in some file, was checked there, and is read in the scope of that file again later. So typing an
expression fails by itself or not at all.
-/

namespace SemanticCheck

/-! ## Annotations -/

namespace Site

theorem denote_of_passes_node (site : Site) {a : TypeExpr} (harray : ∀ c pos, a ≠ .array c pos)
    (h : site.Passes (.typeExpr a)) : ∃ ty, site.scope.denote a = .ok ty := by
  obtain ⟨st, hst⟩ := h
  cases hdenote : site.scope.denote a with
  | ok ty => exact ⟨ty, rfl⟩
  | error e =>
    cases a with
    | array c pos => exact absurd rfl (harray c pos)
    | _ => simp [check, checkTypeExpr, hdenote] at hst

theorem denote_of_passes (site : Site) (a : TypeExpr)
    (h : ∀ node ∈ a.tree.preorder, site.Passes node) : ∃ ty, site.scope.denote a = .ok ty := by
  induction a with
  | array component pos ih =>
    have hcomponent : ∀ node ∈ component.tree.preorder, site.Passes node := by
      intro node hnode
      exact h node (Tree.mem_preorder_of_child (by simp [TypeExpr.tree, Tree.children]) hnode)
    obtain ⟨ty, hty⟩ := ih hcomponent
    exact ⟨.array ty, by simp [Scope.denote, hty, Except.map]⟩
  | _ => exact site.denote_of_passes_node (by simp) (h _ (Tree.label_mem_preorder _))

end Site

theorem mapM_ok {ε α β : Type} {f : α → Except ε β} {l : List α}
    (h : ∀ x ∈ l, ∃ y, f x = .ok y) : ∃ ys, l.mapM f = .ok ys := by
  induction l with
  | nil => exact ⟨[], rfl⟩
  | cons x rest ih =>
    obtain ⟨y, hy⟩ := h x (by simp)
    obtain ⟨ys, hys⟩ := ih fun z hz => h z (by simp [hz])
    exact ⟨y :: ys, by simp [List.mapM_cons, hy, hys, bind, Except.bind, pure, Except.pure]⟩

theorem Scope.signature_ok {s : Scope} {r : Routine} (hresult : ∃ ty, s.denote r.result = .ok ty)
    (hparams : ∀ p ∈ r.params, ∃ ty, s.denote p.type = .ok ty) :
    ∃ signature, s.signature r = .ok signature := by
  obtain ⟨params, hparams⟩ := mapM_ok hparams
  obtain ⟨result, hresult⟩ := hresult
  exact ⟨(params, result), by simp [signature, hparams, hresult, bind, Except.bind, pure, Except.pure]⟩

/-! ## Clean batches -/

/-- Ends a chain: nothing or a host, and no further batch. -/
def Chain.IsEnd : Chain → Prop
  | source .. => False
  | _ => True

/-- Validating the files, each against the whole chain, records nothing. -/
def CleanBatch (batch : Nat) (files : List SourceFile) (delegates : Bool) (outer : Chain) : Prop :=
  ∀ n f, files[n]? = some f →
    (Site.mk (batchChain batch files delegates outer) f batch n).validateFile.2.entries = []

theorem CleanBatch.passes {batch : Nat} {files : List SourceFile} {delegates : Bool} {outer : Chain}
    (h : CleanBatch batch files delegates outer) {n : Nat} {f : SourceFile}
    (hf : files[n]? = some f) {node : Node} (hnode : node ∈ f.tree.preorder) :
    (Site.mk (batchChain batch files delegates outer) f batch n).Passes node :=
  Site.passes_of_nothing_recorded _ (h n f hf) hnode

section Clean

variable {batch : Nat} {files : List SourceFile} {delegates : Bool} {outer : Chain}

theorem CleanBatch.denote (h : CleanBatch batch files delegates outer) {n : Nat} {f : SourceFile}
    (hf : files[n]? = some f) {a : TypeExpr} (ha : f.Holds a.tree) :
    ∃ ty, (Scope.mk (batchChain batch files delegates outer) f).denote a = .ok ty :=
  Site.denote_of_passes _ a fun node hnode => h.passes hf (ha node hnode)

theorem CleanBatch.signature (h : CleanBatch batch files delegates outer) {n : Nat}
    {f : SourceFile} (hf : files[n]? = some f) {r : Routine} (hr : f.HoldsSignature r) :
    ∃ signature, (Scope.mk (batchChain batch files delegates outer) f).signature r
      = .ok signature :=
  Scope.signature_ok (h.denote hf hr.1) fun p hp => h.denote hf (hr.2 p hp)

theorem CleanBatch.property (h : CleanBatch batch files delegates outer) {key : String}
    {d : Declared Property} (hd : (key, d) ∈ declaredIn batch files (·.property?)) :
    ∃ ty, (Symbol.property d).typeIn (batchChain batch files delegates outer) = .ok ty := by
  obtain ⟨hf, -, m, hm, hpick, -⟩ := mem_declaredIn.mp hd
  obtain rfl : m = .property d.item := by
    cases m <;> simp_all [Member.property?]
  exact h.denote hf (SourceFile.holds_property hm)

theorem CleanBatch.function (h : CleanBatch batch files delegates outer) {key : String}
    {d : Declared Routine} (hd : (key, d) ∈ declaredIn batch files (·.function?)) :
    ∃ ty, (Symbol.function d).typeIn (batchChain batch files delegates outer) = .ok ty := by
  obtain ⟨hf, -, m, hm, hpick, -⟩ := mem_declaredIn.mp hd
  obtain rfl : m = .function d.item := by
    cases m <;> simp_all [Member.function?]
  obtain ⟨signature, hsignature⟩ := h.signature hf (SourceFile.holds_function hm)
  exact ⟨.function signature.1 signature.2,
    by simp [Symbol.typeIn, Declared.scope, hsignature, Except.map]⟩

theorem Chain.IsEnd.symbol {chain : Chain} (hend : outer.IsEnd) {name : String} {s : Symbol}
    (hs : outer.symbol? name = some s) : ∃ ty, s.typeIn chain = .ok ty := by
  cases outer with
  | nothing | emptyHost => simp [Chain.symbol?] at hs
  | source => exact hend.elim
  | host host =>
    simp only [Chain.symbol?] at hs
    split at hs
    · obtain rfl := Option.some.inj hs
      exact ⟨_, rfl⟩
    · split at hs
      · obtain rfl := Option.some.inj hs
        exact ⟨_, rfl⟩
      · obtain ⟨m, -, rfl⟩ := Option.map_eq_some_iff.mp hs
        exact ⟨_, rfl⟩

theorem CleanBatch.symbols (h : CleanBatch batch files delegates outer) (hend : outer.IsEnd)
    {name : String} {s : Symbol}
    (hs : (batchChain batch files delegates outer).symbol? name = some s) :
    ∃ ty, s.typeIn (batchChain batch files delegates outer) = .ok ty := by
  simp only [batchChain, Chain.symbol?, Batch.ofFiles] at hs
  split at hs
  · rename_i s' hs'
    obtain rfl := Option.some.inj hs
    rcases symbol_cases hs' with ⟨d, -, rfl⟩ | ⟨d, hd, rfl⟩ | ⟨d, hd, rfl⟩ | ⟨d, -, rfl⟩
    · exact ⟨_, rfl⟩
    · exact h.property hd
    · exact h.function hd
    · exact ⟨_, rfl⟩
  · exact hend.symbol hs

theorem type_cases (hend : outer.IsEnd) {name : String} {t : TypeDef}
    (ht : (batchChain batch files delegates outer).type? name = some t) :
    (∃ d, (name, d) ∈ declaredIn batch files (·.type?) ∧ t = .source d) ∨ ∃ c, t = .host c := by
  simp only [batchChain, Chain.type?, Batch.ofFiles, BatchIndex.lookup_types] at ht
  split at ht
  · rename_i d hd
    exact .inl ⟨d, mem_of_lookup hd, (Option.some.inj ht).symm⟩
  · cases outer with
    | nothing | emptyHost => simp [Chain.type?] at ht
    | source => exact hend.elim
    | host host =>
      obtain ⟨c, -, rfl⟩ := Option.map_eq_some_iff.mp ht
      exact .inr ⟨c, rfl⟩

theorem mem_type_members {d : Declared TypeDefinition} {name : String}
    (hd : (name, d) ∈ declaredIn batch files (·.type?)) :
    files[d.place.file]? = some d.file ∧ ∀ m ∈ d.item.members,
      d.file.Holds (OwnedMember.mk d.file.context (qualify d.file.context d.item.name) m).tree := by
  obtain ⟨hf, -, m, hm, hpick, -⟩ := mem_declaredIn.mp hd
  obtain rfl : m = .type d.item := by
    cases m <;> simp_all [Member.type?]
  exact ⟨hf, fun m hmem => SourceFile.holds_typeMember hm hmem⟩

/-- A member of a type that refers to a property of the namespace refers to one that is there. -/
theorem CleanBatch.reference (h : CleanBatch batch files delegates outer) {n : Nat}
    {f : SourceFile} (hf : files[n]? = some f) {owner : String} {r : PropertyReference}
    (hr : f.Holds (OwnedMember.mk f.context owner (.reference r)).tree) :
    ∃ d, (batchChain batch files delegates outer).property? (qualify f.context r.name)
      = some d := by
  obtain ⟨st, hst⟩ := h.passes hf hr.label
  cases hproperty :
      (batchChain batch files delegates outer).property? (qualify f.context r.name) with
  | some d => exact ⟨d, rfl⟩
  | none =>
    have hkey : (OwnedMember.mk f.context owner (.reference r)).qualifiedName
      = qualify f.context r.name := rfl
    simp only [OwnedMember.tree, Tree.label, Site.check, Site.checkOwned, Site.checkReference, hkey,
      hproperty, Option.isSome_none, require_false, run_bind, report_apply, run_pure,
      Bool.and_false] at hst
    exact absurd hst Bool.false_ne_true

theorem property_mem (hend : outer.IsEnd) {key : String} {d : Declared Property}
    (hd : (batchChain batch files delegates outer).property? key = some d) :
    (key, d) ∈ declaredIn batch files (·.property?) := by
  simp only [batchChain, Chain.property?, Batch.ofFiles, BatchIndex.lookup_properties] at hd
  split at hd
  · rename_i d' hd'
    obtain rfl := Option.some.inj hd
    exact mem_of_lookup hd'
  · cases outer with
    | source => exact hend.elim
    | _ => simp [Chain.property?] at hd

theorem CleanBatch.fields (h : CleanBatch batch files delegates outer) (hend : outer.IsEnd)
    {name field : String} {t : TypeDef} {found : Except ResolutionError Ty}
    (ht : (batchChain batch files delegates outer).type? name = some t)
    (hfound : t.fieldType? (batchChain batch files delegates outer) field = some found) :
    ∃ ty, found = .ok ty := by
  rcases type_cases hend ht with ⟨d, hd, rfl⟩ | ⟨c, rfl⟩
  · obtain ⟨hf, hmembers⟩ := mem_type_members hd
    simp only [TypeDef.fieldType?] at hfound
    split at hfound
    · -- A property of the type itself: its annotation stands in the type.
      rename_i p hp
      obtain rfl := Option.some.inj hfound
      obtain ⟨m, hm, hpick⟩ := List.mem_filterMap.mp (List.mem_of_find?_eq_some hp)
      obtain rfl : m = .property p := by
        cases m <;> simp_all [TypeMember.property?]
      exact h.denote hf ((hmembers _ hm).child (by simp [OwnedMember.tree, Tree.children]))
    · -- A property of the namespace: its annotation stands where it is declared.
      obtain ⟨r, hr, rfl⟩ := Option.map_eq_some_iff.mp hfound
      obtain ⟨m, hm, hpick⟩ := List.mem_filterMap.mp (List.mem_of_find?_eq_some hr)
      obtain rfl : m = .reference r := by
        cases m <;> simp_all [TypeMember.reference?]
      obtain ⟨p, hp⟩ := h.reference hf (hmembers _ hm)
      simp only [hp]
      exact h.property (property_mem hend hp)
  · obtain ⟨f, -, rfl⟩ := Option.map_eq_some_iff.mp hfound
    exact ⟨_, rfl⟩

theorem CleanBatch.methods (h : CleanBatch batch files delegates outer) (hend : outer.IsEnd)
    {name method : String} {t : TypeDef} {m : MethodDef}
    (ht : (batchChain batch files delegates outer).type? name = some t)
    (hm : m ∈ t.methods method) :
    ∃ signature, m.signature (batchChain batch files delegates outer) = .ok signature := by
  rcases type_cases hend ht with ⟨d, hd, rfl⟩ | ⟨c, rfl⟩
  · obtain ⟨hf, hmembers⟩ := mem_type_members hd
    obtain ⟨r, hr, rfl⟩ := List.mem_map.mp hm
    obtain ⟨member, hmember, hpick⟩ := List.mem_filterMap.mp (List.mem_filter.mp hr).1
    obtain rfl : member = .method r := by
      cases member <;> simp_all [TypeMember.method?]
    exact h.signature hf (SourceFile.holdsSignature_of_parts fun t ht => (hmembers _ hmember).child ht)
  · obtain ⟨r, -, rfl⟩ := List.mem_map.mp hm
    exact ⟨_, rfl⟩

theorem CleanBatch.typesResolve (h : CleanBatch batch files delegates outer)
    (hend : outer.IsEnd) : (batchChain batch files delegates outer).TypesResolve :=
  ⟨fun _ _ hs => h.symbols hend hs, fun _ _ _ _ ht hfound => h.fields hend ht hfound,
    fun _ _ _ _ ht hm => h.methods hend ht hm⟩

end Clean

/-! ## Expressions -/

/-- In a batch about which nothing was recorded, no expression fails for want of a resolution. -/
theorem typeOf_ne_resolution_of_clean (batch : Nat) (files : List SourceFile) (delegates : Bool)
    (outer : Chain) (hend : outer.IsEnd) (hclean : CleanBatch batch files delegates outer) :
    let chain := batchChain batch files delegates outer
    (∀ (f : SourceFile) (env : TypeEnv) (e : Expr) (error : ResolutionError),
      (Scope.mk chain f).typeOf env e ≠ .error (.resolution error)) ∧
    (∀ name s, chain.symbol? name = some s → ∃ ty, s.typeIn chain = .ok ty) ∧
    (∀ name t field found, chain.type? name = some t → t.fieldType? chain field = some found →
      ∃ ty, found = .ok ty) ∧
    (∀ name t method m, chain.type? name = some t → m ∈ t.methods method →
      ∃ signature, m.signature chain = .ok signature) := by
  have htypes := hclean.typesResolve hend
  refine ⟨?_, htypes.symbols, htypes.fields, htypes.methods⟩
  intro f env e
  exact Scope.settled_typeOf (s := ⟨_, f⟩) htypes env e

/-- An item has a label of its own and the price of the namespace. -/
def itemFile : SourceFile where
  namespaceName := ⟨["shop"], by decide, by decide⟩
  imports := []
  members :=
    [.property ⟨"price", .primitive "int" none, none⟩,
      .type ⟨"Item", [.property ⟨"label", .reference "Label" none, none⟩, .reference ⟨"price", none⟩,
        .method ⟨"like", .primitive "boolean" none, [⟨.reference "Item" none, "other", none⟩],
          .block [] none, none⟩], none⟩]
  pos := none

def labelFile : SourceFile where
  namespaceName := ⟨["shop"], by decide, by decide⟩
  imports := []
  members :=
    [.type ⟨"Label", [], none⟩,
      .function ⟨"first", .reference "Item" none,
        [⟨.array (.reference "Item" none) none, "items", none⟩], .block [] none, none⟩]
  pos := none

theorem item_price_resolves :
    let chain := batchChain 0 [itemFile, labelFile] false .emptyHost
    CleanBatch 0 [itemFile, labelFile] false .emptyHost ∧
      (Scope.mk chain labelFile).typeOf .empty (.field (.creation "Item" [] none) "price" none)
        ≠ .error (.resolution (.unresolvedProperty "shop.price")) := by
  have hclean : CleanBatch 0 [itemFile, labelFile] false .emptyHost := by
    intro n f hf
    match n, hf with
    | 0, rfl => decide +kernel
    | 1, rfl => decide +kernel
  exact ⟨hclean, (typeOf_ne_resolution_of_clean 0 _ false .emptyHost trivial hclean).1 _ _ _ _⟩

end SemanticCheck
