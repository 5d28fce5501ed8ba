import SemanticCheck.Compilation
import SemanticCheck.Proofs.Ownership
import SemanticCheck.Proofs.Reading

/-!
# The order of the files

Where no two declarations of one kind share a qualified name, a lookup finds the same declaration in
whatever order the files come. Only the number of its file differs, and nothing that is found in a file
depends on that: a name is reported when a declaration of an earlier kind has it, in any order.
-/

namespace SemanticCheck

/-! ## Distinct names -/

def SourceFile.keysOf (f : SourceFile) (kind : DeclarationKind) : List String :=
  (f.declarations.filter (·.member.kind? == some kind)).map (·.qualifiedName)

/-- No two declarations of one kind share their qualified name. -/
def DistinctNames (files : List SourceFile) : Prop :=
  ∀ kind, (files.flatMap (·.keysOf kind)).Nodup

theorem DistinctNames.perm {files files' : List SourceFile} (h : DistinctNames files)
    (hperm : files'.Perm files) : DistinctNames files' :=
  fun kind => (hperm.flatMap_right _).nodup_iff.mpr (h kind)

theorem Member.kind_named (m : Member) : m.named?.map (·.kind) = m.kind? := by
  cases m <;> rfl

theorem keys_ofKind (batch : Nat) (files : List SourceFile) (kind : DeclarationKind) :
    (declaredIn batch files (·.ofKind? kind)).map (·.1) = files.flatMap (·.keysOf kind) := by
  have hkey : ∀ d : Declaration, ((d.member.ofKind? kind).map fun _ => d.qualifiedName)
      = if d.member.kind? == some kind then some d.qualifiedName else none := by
    intro d
    rw [← d.member.kind_named, Member.ofKind?]
    cases d.member.named? with
    | none => rfl
    | some item => by_cases hkind : item.kind = kind <;> simp [Option.filter, hkind]
  have hkeys : ∀ file ∈ files.zipIdx,
      (file.1.declared batch file.2 (·.ofKind? kind)).map (·.1) = file.1.keysOf kind := by
    intro file _
    simp only [SourceFile.declared, SourceFile.keysOf, List.map_filterMap, Option.map_map,
      Function.comp_def, hkey]
    rw [← List.filterMap_eq_map, List.filterMap_filter]
    rfl
  unfold declaredIn
  rw [List.map_flatMap, List.flatMap_congr hkeys]
  exact flatMap_zipIdx_fst files (·.keysOf kind)

theorem DistinctNames.nodup_keys {files : List SourceFile} (h : DistinctNames files) (batch : Nat)
    {α : Type} {pick : Member → Option α} {wrap : α → NamedMember} {kind : DeclarationKind}
    (hpick : ∀ m, m.ofKind? kind = (pick m).map wrap) :
    ((declaredIn batch files pick).map (·.1)).Nodup := by
  have hkeys := h kind
  rw [← keys_ofKind batch, declaredIn_ofKind hpick, List.map_map] at hkeys
  exact hkeys

theorem eq_of_nodup_keys {α : Type} {entries : List (String × α)} (h : (entries.map (·.1)).Nodup)
    {key : String} {a b : α} (ha : (key, a) ∈ entries) (hb : (key, b) ∈ entries) : a = b :=
  (Prod.mk.inj (List.inj_on_of_nodup_map h ha hb rfl)).2

/-! ## What is found in another order -/

section Lookups

variable {α : Type} {batch : Nat} {files files' : List SourceFile} {pick : Member → Option α}

theorem exists_alike (hfiles : files ⊆ files') {key : String} {d : Declared α}
    (h : (key, d) ∈ declaredIn batch files pick) :
    ∃ d', (key, d') ∈ declaredIn batch files' pick ∧ d.Alike d' := by
  obtain ⟨hfile, hbatch, hmember⟩ := mem_declaredIn.mp h
  obtain ⟨n, hn⟩ := List.mem_iff_getElem?.mp (hfiles (List.mem_of_getElem? hfile))
  exact ⟨⟨d.file, ⟨batch, n, d.place.member⟩, d.item⟩, mem_declaredIn.mpr ⟨hn, rfl, hmember⟩, rfl, rfl, rfl⟩

theorem lookup_alike (hperm : files'.Perm files)
    (hkeys : ((declaredIn batch files' pick).map (·.1)).Nodup) (key : String) :
    Option.Rel Declared.Alike ((declaredIn batch files pick).lookup key)
      ((declaredIn batch files' pick).lookup key) := by
  cases hfound : (declaredIn batch files pick).lookup key with
  | none =>
    cases hfound' : (declaredIn batch files' pick).lookup key with
    | none => exact .none
    | some d' =>
      obtain ⟨d, hd, -⟩ := exists_alike hperm.subset (mem_of_lookup hfound')
      obtain ⟨first, hfirst⟩ := lookup_of_mem hd
      rw [hfound] at hfirst
      cases hfirst
  | some d =>
    obtain ⟨d', hd', halike⟩ := exists_alike hperm.symm.subset (mem_of_lookup hfound)
    obtain ⟨first, hfirst⟩ := lookup_of_mem hd'
    rw [hfirst, eq_of_nodup_keys hkeys (mem_of_lookup hfirst) hd']
    exact .some halike

end Lookups

theorem optionRel_isSome {α : Type} {r : α → α → Prop} {a a' : Option α} (h : Option.Rel r a a') :
    a.isSome = a'.isSome := by
  cases h <;> rfl

theorem BatchIndex.packages_after (batch : Nat) (done : List (SourceFile × Nat)) :
    (after batch done).packages = done.flatMap fun file => file.1.namespaceName.enclosingTexts := by
  induction done using List.reverseRecOn with
  | nil => rfl
  | append_singleton done file ih =>
    rw [after_append, List.flatMap_append, ← ih]
    simp [addFile]

theorem BatchIndex.packages_ofFiles (batch : Nat) (files : List SourceFile) :
    (ofFiles batch files).packages = files.flatMap (·.namespaceName.enclosingTexts) :=
  (packages_after batch files.zipIdx).trans (flatMap_zipIdx_fst files (·.namespaceName.enclosingTexts))

section Batches

variable {files files' : List SourceFile} (hdistinct : DistinctNames files')
  (hperm : files'.Perm files) (batch : Nat) (delegates : Bool) (outer : Chain)

include hdistinct hperm

theorem batchChain_alike :
    (batchChain batch files delegates outer).Alike (batchChain batch files' delegates outer) :=
  Chain.alike_source delegates delegates
    (lookup_alike hperm (hdistinct.nodup_keys batch Member.ofKind_type))
    (lookup_alike hperm (hdistinct.nodup_keys batch Member.ofKind_property)) (.refl outer)

theorem symbol_alike (name : String) :
    Option.Rel Symbol.Alike ((batchChain batch files delegates outer).symbol? name)
      ((batchChain batch files' delegates outer).symbol? name) := by
  have htypes := lookup_alike hperm (hdistinct.nodup_keys batch Member.ofKind_type) name
  have hproperties := lookup_alike hperm (hdistinct.nodup_keys batch Member.ofKind_property) name
  have hfunctions := lookup_alike hperm (hdistinct.nodup_keys batch Member.ofKind_function) name
  have hprograms := lookup_alike hperm (hdistinct.nodup_keys batch Member.ofKind_program) name
  have hindex : Option.Rel Symbol.Alike ((BatchIndex.ofFiles batch files).symbol? name)
      ((BatchIndex.ofFiles batch files').symbol? name) := by
    simp only [BatchIndex.symbol?, BatchIndex.lookup_types, BatchIndex.lookup_properties,
      BatchIndex.lookup_functions, BatchIndex.lookup_programs]
    refine optionRel_or (optionRel_or (optionRel_or ?_ ?_) ?_) ?_
    · exact optionRel_map htypes fun _ _ h => .type (.source h)
    · exact optionRel_map hproperties fun _ _ h => .property h
    · exact optionRel_map hfunctions fun _ _ h => .function h
    · exact optionRel_map hprograms fun _ _ h => .program h
  simp only [batchChain, Chain.symbol?, Batch.ofFiles]
  obtain ⟨ho, ho'⟩ | ⟨symbol, symbol', ho, ho', halike⟩ := optionRel_cases hindex
  · rw [ho, ho']
    exact optionRel_refl .refl _
  · rw [ho, ho']
    exact .some halike

omit hdistinct in
theorem hasPackage_perm :
    (batchChain batch files delegates outer).hasPackage
      = (batchChain batch files' delegates outer).hasPackage := by
  funext name
  have hpackages := (hperm.flatMap_right fun f => f.namespaceName.enclosingTexts).mem_iff (a := name)
  simp only [batchChain, Chain.hasPackage, Batch.ofFiles, BatchIndex.packages_ofFiles]
  congr 1
  rw [Bool.eq_iff_iff, List.contains_iff_mem, List.contains_iff_mem, hpackages]

/-! ## Owners in another order -/

omit hdistinct hperm in
/-- A declaration owns its name unless another one with the name precedes it. -/
theorem owner_place_iff {key : String} {d owner : Declared NamedMember}
    (howner : (ranked batch files).lookup key = some owner) (hd : (key, d) ∈ namedIn batch files) :
    owner.place = d.place ↔ ∀ other, (key, other) ∈ namedIn batch files → ¬ other.Precedes d := by
  have hmem := mem_ranked.mp (mem_of_lookup howner)
  constructor
  · intro hplace other hother hprecedes
    obtain rfl := (eq_of_place_eq hmem hd hplace).2
    rcases owner_precedes howner hother with rfl | hfirst
    · exact hprecedes.ne rfl
    · exact (hfirst.trans hprecedes).ne rfl
  · intro hnone
    rcases owner_precedes howner hd with rfl | hprecedes
    · rfl
    · exact absurd hprecedes (hnone owner hmem)

omit hperm in
/-- With distinct names, only a declaration of an earlier kind can precede another one of its name. -/
theorem precedes_iff_rank {key : String} {d other : Declared NamedMember}
    (hd : (key, d) ∈ namedIn batch files') (hother : (key, other) ∈ namedIn batch files') :
    other.Precedes d ↔ other.item.kind.rank < d.item.kind.rank := by
  refine ⟨?_, .inl⟩
  rintro (hrank | ⟨hkind, hbefore⟩)
  · exact hrank
  · have hkeys : ((declaredIn batch files' (·.ofKind? d.item.kind)).map (·.1)).Nodup := by
      rw [keys_ofKind]
      exact hdistinct d.item.kind
    obtain rfl := eq_of_nodup_keys hkeys (mem_ofKind.mpr ⟨hd, rfl⟩) (mem_ofKind.mpr ⟨hother, hkind⟩)
    exact absurd rfl hbefore.ne

theorem owner_perm {key : String} {d d' owner owner' : Declared NamedMember}
    (hd : (key, d) ∈ namedIn batch files) (hd' : (key, d') ∈ namedIn batch files')
    (hitem : d.item = d'.item) (howner : (ranked batch files).lookup key = some owner)
    (howner' : (ranked batch files').lookup key = some owner') :
    owner.place = d.place ↔ owner'.place = d'.place := by
  have hdistinct' := hdistinct.perm hperm.symm
  rw [owner_place_iff batch howner hd, owner_place_iff batch howner' hd']
  constructor
  · intro hnone other hother hprecedes
    obtain ⟨same, hsame, halike⟩ := exists_alike hperm.subset hother
    refine hnone same hsame ?_
    rw [precedes_iff_rank hdistinct' batch hd hsame, ← halike.item, hitem]
    exact (precedes_iff_rank hdistinct batch hd' hother).mp hprecedes
  · intro hnone other hother hprecedes
    obtain ⟨same, hsame, halike⟩ := exists_alike hperm.symm.subset hother
    refine hnone same hsame ?_
    rw [precedes_iff_rank hdistinct batch hd' hsame, ← halike.item, ← hitem]
    exact (precedes_iff_rank hdistinct' batch hd hother).mp hprecedes

end Batches

/-! ## Sites that find the same -/

/-- The same file, in batches that answer alike and agree on which names belong to the file. -/
structure Site.Alike (site site' : Site) : Prop where
  file : site.file = site'.file
  chain : site.chain.Alike site'.chain
  symbols : ∀ name, Option.Rel Symbol.Alike (site.chain.symbol? name) (site'.chain.symbol? name)
  packages : site.chain.hasPackage = site'.chain.hasPackage
  owners : ∀ d ∈ site.file.declarations, d.member.named?.isSome = true →
    ((site.chain.symbol? d.qualifiedName).bind (·.place?) = some (site.placeOf d) ↔
      (site'.chain.symbol? d.qualifiedName).bind (·.place?) = some (site'.placeOf d))

theorem site_alike {files files' : List SourceFile} (hdistinct : DistinctNames files')
    (hperm : files'.Perm files) (batch : Nat) (delegates : Bool) (outer : Chain) {f : SourceFile}
    {n n' : Nat} (hn : files[n]? = some f) (hn' : files'[n']? = some f) :
    (Site.mk (batchChain batch files delegates outer) f batch n).Alike
      (Site.mk (batchChain batch files' delegates outer) f batch n') where
  file := rfl
  chain := batchChain_alike hdistinct hperm batch delegates outer
  symbols := symbol_alike hdistinct hperm batch delegates outer
  packages := hasPackage_perm hperm batch delegates outer
  owners d hmem hnamed := by
    obtain ⟨item, hitem⟩ := Option.isSome_iff_exists.mp hnamed
    obtain ⟨hcontext, hnumber⟩ := SourceFile.mem_declarations.mp hmem
    have hentry : ∀ {files : List SourceFile} {n : Nat}, files[n]? = some f →
        (d.qualifiedName, ⟨f, ⟨batch, n, d.number⟩, item⟩) ∈ namedIn batch files := by
      intro files n hn
      refine mem_declaredIn.mpr ⟨hn, rfl, d.member, hnumber, hitem, ?_⟩
      rw [Declaration.qualifiedName, hcontext]
    obtain ⟨owner, howner, -⟩ := exists_owner (hentry hn)
    obtain ⟨owner', howner', -⟩ := exists_owner (hentry hn')
    simp only [symbol_of_owner howner, symbol_of_owner howner', Option.bind_some,
      Declared.place_symbol, Option.some.injEq]
    exact owner_perm hdistinct hperm batch (hentry hn) (hentry hn') rfl howner howner'

namespace Site.Alike

variable {site site' : Site}

theorem scope (h : site.Alike site') : site.scope.Alike site'.scope :=
  ⟨h.chain, by simp only [Site.scope, h.file], by simp only [Site.scope, h.file]⟩

theorem denoted (h : site.Alike site') : site.denoted? = site'.denoted? := by
  funext a
  simp only [Site.denoted?, h.scope.denote]

theorem typeOf (h : site.Alike site') : site.typeOf = site'.typeOf := by
  funext env e
  refine typeOf_congr h.scope e fun name _ => ⟨rfl, fun _ => ?_⟩
  simp only [Scope.value?, Site.scope, h.file]
  exact findSome_rel h.symbols _

/-! ### Entering and leaving -/

theorem enter (h : site.Alike site') : site.enter = site'.enter := by
  have hroutine : site.openRoutine = site'.openRoutine := by
    funext r st
    simp only [Site.openRoutine, Site.defineParams, h.denoted]
  have hcatch : site.openCatch = site'.openCatch := by
    funext c st
    simp only [Site.openCatch]
    obtain ⟨ho, ho'⟩ | ⟨t, t', ho, ho', ht⟩ := optionRel_cases (h.scope.type c.type.qualifiedName)
    · rw [ho, ho']
    · simp only [ho, ho', ht.type]
  funext node st
  simp only [Site.enter, hroutine, hcatch]

theorem leave (h : site.Alike site') : site.leave = site'.leave := by
  funext node st
  simp only [Site.leave, Site.defineVariable, h.denoted, h.typeOf]

/-! ### Checks -/

theorem checkImport (h : site.Alike site') : site.checkImport = site'.checkImport := by
  funext i
  have htype := fun name => optionRel_isSome (h.chain.types name)
  have hsymbol := fun name => optionRel_isSome (h.symbols name)
  simp only [Site.checkImport, h.packages, htype, hsymbol]

/-- It is enough that the name has an owner on both sides or on none, and that this is asked for on both
or on none. -/
theorem checkUnique (h : site.Alike site') {name : String} {place place' : Option Place}
    (hplace : (site.chain.symbol? name).bind (·.place?) = place ↔
      (site'.chain.symbol? name).bind (·.place?) = place') (pos : Option Position) :
    site.checkUnique name place pos = site'.checkUnique name place' pos := by
  have howned : ((site.chain.symbol? name).bind (·.place?)).isSome
      = ((site'.chain.symbol? name).bind (·.place?)).isSome := by
    obtain ⟨ho, ho'⟩ | ⟨symbol, symbol', ho, ho', halike⟩ := optionRel_cases (h.symbols name)
    · rw [ho, ho']
    · rw [ho, ho']
      cases halike with
      | type ht => cases ht <;> rfl
      | _ => rfl
  unfold Site.checkUnique
  generalize (site.chain.symbol? name).bind (·.place?) = owner at hplace howned
  generalize (site'.chain.symbol? name).bind (·.place?) = owner' at hplace howned
  cases owner with
  | none =>
    cases owner' with
    | none => rfl
    | some owner' => cases howned
  | some owner =>
    cases owner' with
    | none => cases howned
    | some owner' =>
      have heq : (some owner == place) = (some owner' == place') := by
        rw [Bool.eq_iff_iff, beq_iff_eq, beq_iff_eq, hplace]
      simp only [heq]

/-- What stands inside a type asks for no place. -/
theorem checkUnique_none (h : site.Alike site') (name : String) (pos : Option Position) :
    site.checkUnique name none pos = site'.checkUnique name none pos := by
  refine h.checkUnique ?_ pos
  obtain ⟨ho, ho'⟩ | ⟨symbol, symbol', ho, ho', halike⟩ := optionRel_cases (h.symbols name)
  · rw [ho, ho']
  · rw [ho, ho']
    cases halike with
    | type ht => cases ht <;> simp [Symbol.place?]
    | _ => simp [Symbol.place?]

theorem checkDeclaration (h : site.Alike site') {d : Declaration} (hd : d ∈ site.file.declarations) :
    site.checkDeclaration d = site'.checkDeclaration d := by
  have howner := h.owners d hd
  obtain ⟨context, number, member⟩ := d
  cases member with
  | relation r => rfl
  | property p =>
    simp only [Site.checkDeclaration, Site.checkProperty, h.file]
    split
    · exact h.checkUnique (howner rfl) p.pos
    · rfl
  | type t => exact h.checkUnique (howner rfl) t.pos
  | function f => exact h.checkUnique (howner rfl) f.pos
  | program p => exact h.checkUnique (howner rfl) p.pos

theorem checkOwned (h : site.Alike site') (m : OwnedMember) : site.checkOwned m = site'.checkOwned m := by
  have hproperty := optionRel_isSome (h.chain.properties m.qualifiedName)
  obtain ⟨namespaceText, owner, member⟩ := m
  cases member with
  | property p =>
    simp only [Site.checkOwned, Site.checkProperty, h.file, h.checkUnique_none]
  | reference r => simp only [Site.checkOwned, Site.checkReference, hproperty]
  | method r => rfl

theorem checkTyped (h : site.Alike site') : site.checkTyped = site'.checkTyped := by
  funext e around rule
  simp only [Site.checkTyped, Site.expressionType, h.typeOf]

theorem checkStatement (h : site.Alike site') (s : Stmt) :
    site.checkStatement s = site'.checkStatement s := by
  have hinitial : site.checkInitial = site'.checkInitial := by
    funext name written pos value
    simp only [Site.checkInitial, h.denoted]
  cases s with
  | returns value pos => cases value <;> simp only [Site.checkStatement, h.checkTyped]
  | _ => simp only [Site.checkStatement, Site.checkCondition, h.checkTyped, hinitial]

theorem checkCatch (h : site.Alike site') (c : Catch) : site.checkCatch c = site'.checkCatch c := by
  simp only [Site.checkCatch]
  obtain ⟨ho, ho'⟩ | ⟨t, t', ho, ho', ht⟩ := optionRel_cases (h.scope.type c.type.qualifiedName)
  · rw [ho, ho']
  · simp only [ho, ho', ht.type, ht.qualifiedName]

theorem check (h : site.Alike site') {node : Node} (hnode : node ∈ site.file.tree.preorder) :
    site.check node = site'.check node := by
  cases node with
  | imported i => simp only [Site.check, h.checkImport]
  | declaration d =>
    refine h.checkDeclaration ?_
    rcases SourceFile.node_cases hnode with ⟨d', hd', heq⟩ | ⟨name, m, heq⟩ | ⟨hother, -⟩
    · cases heq
      exact hd'
    · cases heq
    · exact absurd rfl (hother d)
  | owned m => exact h.checkOwned m
  | statement s => exact h.checkStatement s
  | elif e => simp only [Site.check, Site.checkCondition, h.checkTyped]
  | caught c => exact h.checkCatch c
  | typeExpr a => simp only [Site.check, Site.checkTypeExpr, h.scope.denote]
  | _ => rfl

/-! ### The walk -/

theorem validate (h : site.Alike site') (node : Node)
    (hnodes : ∀ below ∈ node.tree.preorder, below ∈ site.file.tree.preorder) :
    site.validate node.tree = site'.validate node.tree := by
  induction node using Node.induction with
  | step node ih =>
    have hchildren : ∀ nodes ⊆ node.children,
        site.validateAll (nodes.map Node.tree) = site'.validateAll (nodes.map Node.tree) := by
      intro nodes hsubset
      induction nodes with
      | nil => rfl
      | cons child nodes ihRest =>
        rw [List.cons_subset] at hsubset
        have hchild := ih child hsubset.1 fun below hbelow =>
          hnodes below (Node.mem_preorder_of_mem_child hsubset.1 hbelow)
        funext st
        simp only [List.map_cons, Site.validateAll, hchild, ihRest hsubset.2]
    have hcheck := h.check (hnodes node node.mem_preorder_self)
    funext st
    rw [Node.tree_eq, Site.validate_node, Site.validate_node, hchildren _ (List.Subset.refl _), hcheck,
      h.enter, h.leave]

theorem validateFile (h : site.Alike site') : site.validateFile = site'.validateFile := by
  have hwalk := h.validate (.file site.file) fun _ => id
  have htree : site.file.tree = site'.file.tree := by rw [h.file]
  simp only [Site.validateFile, ← htree]
  exact congrArg (fun walk => ((walk {}).1, (walk {}).2.log)) hwalk

end Site.Alike

/-! ## The batch as a whole -/

namespace Compilation

/-- Whether the files are validated in turn or together makes no difference. -/
theorem diagnostics_check (c : Compilation) :
    c.check.diagnostics = c.sites.map fun site => site.validateFile.2.sorted := by
  have htogether : c.validateTogether = c.validateInTurn := by
    simp only [validateTogether, validateInTurn, List.map_map]
    rfl
  simp only [check, htogether, ite_self, validateInTurn, List.map_map]
  rfl

theorem diagnosticsFor_check (c : Compilation) {n : Nat} {f : SourceFile} (hf : c.files[n]? = some f) :
    c.check.diagnosticsFor n = (Site.mk c.chain f 0 n).validateFile.2.sorted := by
  rw [CheckedBatch.diagnosticsFor, diagnostics_check, List.getD_eq_getElem?_getD, sites, List.map_map,
    List.getElem?_map, List.getElem?_zipIdx, hf]
  simp

/-- Where no two declarations of one kind share a qualified name, each file is given the same diagnostics
in the same order, whatever the order of the files and whether they are validated in turn or together. -/
theorem check_of_reordered (manifest : Manifest) (outer : Chain) {files files' : List SourceFile}
    (hdistinct : DistinctNames files) (hperm : files'.Perm files) (parallel : Bool) :
    let checked := check ⟨manifest, files, outer⟩
    let reordered := check ⟨{ manifest with parallel }, files', outer⟩
    reordered.diagnostics.length = files'.length ∧
      ∀ n n' f, files[n]? = some f → files'[n']? = some f →
        reordered.diagnosticsFor n' = checked.diagnosticsFor n := by
  intro checked reordered
  refine ⟨by simp [reordered, diagnostics_check, sites], fun n n' f hn hn' => ?_⟩
  have halike := site_alike (hdistinct.perm hperm) hperm 0 manifest.delegatePackageLookup outer hn hn'
  rw [diagnosticsFor_check _ hn', diagnosticsFor_check _ hn]
  exact congrArg (·.2.sorted) halike.validateFile.symm

/-- Declares a type, and a function of the same name. -/
def shapesFile : SourceFile :=
  { namespaceName := ⟨["shapes"], by decide, by decide⟩
    imports := []
    members := [.type ⟨"Point", [], none⟩,
      .function ⟨"Point", .void none, [], .block [] none, none⟩]
    pos := none }

/-- Uses the type of the other file, and a type that no file declares. -/
def drawingFile : SourceFile :=
  { namespaceName := ⟨["drawing"], by decide, by decide⟩
    imports := []
    members := [.property ⟨"origin", .reference "shapes.Point" none, none⟩,
      .property ⟨"frame", .reference "shapes.Frame" none, none⟩]
    pos := none }

theorem drawing_reordered :
    DistinctNames [shapesFile, drawingFile] ∧
      (check ⟨{ parallel := true }, [drawingFile, shapesFile], .nothing⟩).diagnosticsFor 1
        = (check ⟨{}, [shapesFile, drawingFile], .nothing⟩).diagnosticsFor 0 ∧
      (check ⟨{}, [shapesFile, drawingFile], .nothing⟩).diagnosticsFor 0 ≠ [] := by
  have hdistinct : DistinctNames [shapesFile, drawingFile] := by
    intro kind
    cases kind <;> decide
  have hsame := (check_of_reordered {} .nothing hdistinct (.swap shapesFile drawingFile []) true).2
  exact ⟨hdistinct, hsame 0 1 shapesFile rfl rfl, by decide +kernel⟩

end Compilation

end SemanticCheck
