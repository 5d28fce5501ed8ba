import Mathlib.Data.Finset.Card
import SemanticCheck.Proofs.Precedence
import SemanticCheck.Proofs.Preorder

/-!
# Who owns a name

Of the declarations in a batch that share a qualified name, one owns it: the one a lookup finds. The
validation of the files reports each of the others once, and nothing else is reported as a duplicate.
-/

namespace SemanticCheck

/-! ## What a declaration is reported for -/

namespace Site

variable (site : Site)

theorem recorded_checkUnique (name : String) (place : Option Place) (pos : Option Position)
    (st : ValidationState) :
    recorded (site.checkUnique name place pos) st =
      match (site.chain.symbol? name).bind (·.place?) with
      | some owner =>
        if some owner = place then [] else [⟨pos, (Finding.duplicateDefinition name).message⟩]
      | none => [] := by
  unfold checkUnique
  cases (site.chain.symbol? name).bind (·.place?) with
  | none => exact recorded_true st
  | some owner => by_cases hplace : some owner = place <;> simp [hplace, require]

theorem check_named {d : Declaration} (hcontext : d.context = site.file.context)
    (hnamed : d.member.named?.isSome) :
    site.check (.declaration d)
      = site.checkUnique d.qualifiedName (some (site.placeOf d)) d.member.pos := by
  obtain ⟨context, number, member⟩ := d
  cases member with
  | relation => cases hnamed
  | property p =>
    simp only [check, checkDeclaration, checkProperty]
    rw [if_pos hcontext]
    rfl
  | _ => rfl

/-- The reports of a repeated name at a node; only at a declaration there are any. -/
def repeats : Node → List Diagnostic
  | .declaration d => (recorded (site.check (.declaration d)) {}).filter (·.isDuplicate)
  | _ => []

theorem repeats_eq_nil {node : Node} (h : ∀ d, node ≠ .declaration d) : site.repeats node = [] := by
  cases node with
  | declaration d => exact absurd rfl (h d)
  | _ => rfl

theorem filter_recorded_eq_nil {node : Node} (h : ¬ site.ownsName node) (st : ValidationState) :
    (recorded (site.check node) st).filter (·.isDuplicate) = [] := by
  rw [List.filter_eq_nil_iff]
  intro d hd hduplicate
  exact h ((site.honest_check node).allowed_of_mem st hd hduplicate)

theorem not_ownsName_of_unnamed {d : Declaration} (h : ¬ d.member.named?.isSome) :
    ¬ site.ownsName (.declaration d) := by
  obtain ⟨context, number, member⟩ := d
  cases member with
  | relation => exact id
  | _ => exact absurd rfl h

theorem filter_recorded_declaration (d : Declaration) (hd : d ∈ site.file.declarations)
    (st : ValidationState) :
    (recorded (site.check (.declaration d)) st).filter (·.isDuplicate) = site.repeats (.declaration d) := by
  by_cases hnamed : d.member.named?.isSome
  · have hcheck := site.check_named (SourceFile.mem_declarations.mp hd).1 hnamed
    rw [repeats, hcheck, recorded_checkUnique, recorded_checkUnique]
  · have hrelation := site.not_ownsName_of_unnamed hnamed
    rw [repeats, site.filter_recorded_eq_nil hrelation, site.filter_recorded_eq_nil hrelation]

end Site

/-! ## What a file is reported for -/

theorem joinDots_ne_empty {segment : String} (h : segment ≠ "") (rest : List String) :
    joinDots (segment :: rest) ≠ "" := by
  cases rest with
  | nil => exact h
  | cons next rest => simp [joinDots]

theorem SourceFile.context_ne_empty (f : SourceFile) : f.context ≠ "" := by
  obtain ⟨⟨segments, hne, hhead⟩, imports, members, pos⟩ := f
  cases segments with
  | nil => exact absurd rfl hne
  | cons segment rest =>
    refine joinDots_ne_empty ?_ rest
    rintro rfl
    simp [validSegment] at hhead

/-- A type is never called like the namespace around it. -/
theorem qualify_ne_self {context : String} (h : context ≠ "") (name : String) :
    qualify context name ≠ context := by
  intro heq
  have hlength := congrArg String.length heq
  have hdot : ".".length = 1 := rfl
  simp only [qualify, String.isEmpty_iff, h, if_false, String.length_append] at hlength
  omega

namespace Site

theorem filter_of_mem_trace (site : Site) {node : Node} {found : List Diagnostic}
    (h : (node, found) ∈ site.trace site.file.tree {}) :
    found.filter (·.isDuplicate) = site.repeats node := by
  obtain ⟨st, rfl⟩ := site.recorded_of_mem_trace _ _ h
  have hnode : node ∈ site.file.tree.preorder := by
    rw [← site.trace_nodes site.file.tree {}]
    exact List.mem_map.mpr ⟨_, h, rfl⟩
  rcases SourceFile.node_cases hnode with ⟨d, hd, rfl⟩ | ⟨name, m, rfl⟩ | ⟨hother, hnone⟩
  · exact site.filter_recorded_declaration d hd st
  · -- A property of a type would ask for its name only if the type were called like the namespace.
    refine site.filter_recorded_eq_nil ?_ st
    cases m with
    | property p => exact qualify_ne_self site.file.context_ne_empty name
    | _ => exact id
  · rw [site.filter_recorded_eq_nil (hnone site) st, site.repeats_eq_nil hother]

theorem duplicates_of_file (site : Site) :
    site.validateFile.2.entries.filter (·.isDuplicate)
      = site.file.declarations.flatMap fun d => site.repeats (.declaration d) := by
  calc site.validateFile.2.entries.filter (·.isDuplicate)
      = (site.trace site.file.tree {}).flatMap fun e => e.2.filter (·.isDuplicate) := by
        rw [validateFile_entries, List.filter_flatMap]
    _ = (site.trace site.file.tree {}).flatMap fun e => site.repeats e.1 :=
        List.flatMap_congr fun e he => site.filter_of_mem_trace he
    _ = site.file.tree.preorder.flatMap site.repeats := by
        rw [← site.trace_nodes site.file.tree {}, List.flatMap_map]
    _ = site.file.declarations.flatMap fun d => site.repeats (.declaration d) :=
        site.file.flatMap_preorder fun _ h => site.repeats_eq_nil h

end Site

/-! ## What a batch is reported for -/

/-- The reports that the name of the declaration is another one's. -/
def Declared.reports (chain : Chain) (d : Declared NamedMember) : List Diagnostic :=
  (Site.mk chain d.file d.place.batch d.place.file).repeats
    (.declaration ⟨d.file.context, d.place.member, d.item.member⟩)

theorem duplicates_of_declared (chain : Chain) (f : SourceFile) (batch n : Nat) :
    (Site.mk chain f batch n).validateFile.2.entries.filter (·.isDuplicate)
      = (f.declared batch n (·.named?)).flatMap fun e => e.2.reports chain := by
  rw [Site.duplicates_of_file, SourceFile.declared, List.filterMap_eq_flatMap_toList, List.flatMap_assoc]
  refine List.flatMap_congr fun d hd => ?_
  obtain ⟨hcontext, -⟩ := SourceFile.mem_declarations.mp hd
  cases hnamed : d.member.named? with
  | none =>
    exact Site.filter_recorded_eq_nil _ (Site.not_ownsName_of_unnamed _ (by simp [hnamed])) _
  | some item =>
    obtain ⟨context, number, member⟩ := d
    obtain rfl := hcontext
    obtain rfl := Member.named_eq_some hnamed
    simp [Declared.reports]

section Batch

variable (batch : Nat) (files : List SourceFile) (delegates : Bool) (outer : Chain)

/-- The reports of repeated names over the validation of all files. -/
def duplicatesIn : List Diagnostic :=
  files.zipIdx.flatMap fun (f, n) =>
    (Site.mk (batchChain batch files delegates outer) f batch n).validateFile.2.entries.filter
      (·.isDuplicate)

theorem duplicatesIn_eq :
    duplicatesIn batch files delegates outer
      = (namedIn batch files).flatMap fun e => e.2.reports (batchChain batch files delegates outer) := by
  unfold duplicatesIn namedIn declaredIn
  rw [List.flatMap_assoc]
  exact List.flatMap_congr fun file _ => duplicates_of_declared _ file.1 batch file.2

variable {batch files delegates outer}

theorem symbol_of_owner {key : String} {owner : Declared NamedMember}
    (howner : (ranked batch files).lookup key = some owner) :
    (batchChain batch files delegates outer).symbol? key = some owner.symbol := by
  simp only [batchChain, Chain.symbol?, Batch.ofFiles, symbol_eq_ranked, howner, Option.map_some]

/-- Only the owner of a name is not reported, and every other declaration of the name once. -/
theorem reports_eq {key : String} {d owner : Declared NamedMember}
    (hd : (key, d) ∈ namedIn batch files) (howner : (ranked batch files).lookup key = some owner) :
    d.reports (batchChain batch files delegates outer)
      = if owner.place = d.place then []
        else [⟨d.item.member.pos, (Finding.duplicateDefinition key).message⟩] := by
  obtain ⟨-, -, m, -, hitem, rfl⟩ := mem_declaredIn.mp hd
  obtain rfl := Member.named_eq_some hitem
  have hplace : ((batchChain batch files delegates outer).symbol?
      (qualify d.file.context d.item.member.name)).bind (·.place?) = some owner.place := by
    rw [symbol_of_owner howner, Option.bind_some, owner.place_symbol]
  rw [Declared.reports, Site.repeats, Site.check_named _ rfl (by simp [hitem]),
    Site.recorded_checkUnique]
  simp only [Declaration.qualifiedName, hplace, Option.some.injEq, Site.placeOf]
  split
  · rfl
  · exact List.filter_cons_of_pos (isDuplicate_message _ (.duplicateDefinition _))

theorem exists_owner {key : String} {d : Declared NamedMember} (hd : (key, d) ∈ namedIn batch files) :
    ∃ owner, (ranked batch files).lookup key = some owner ∧ (key, owner) ∈ namedIn batch files := by
  obtain ⟨owner, howner⟩ := lookup_of_mem (mem_ranked.mpr hd)
  exact ⟨owner, howner, mem_ranked.mp (mem_of_lookup howner)⟩

theorem owner_precedes {key : String} {d owner : Declared NamedMember}
    (howner : (ranked batch files).lookup key = some owner) (hd : (key, d) ∈ namedIn batch files) :
    d = owner ∨ owner.Precedes d :=
  eq_or_of_lookup (pairwise_ranked batch files) howner (mem_ranked.mpr hd)

/-- A declaration is reported exactly when another one of its name precedes it. -/
theorem reports_ne_nil_iff {key : String} {d : Declared NamedMember}
    (hd : (key, d) ∈ namedIn batch files) :
    d.reports (batchChain batch files delegates outer) ≠ [] ↔
      ∃ d', (key, d') ∈ namedIn batch files ∧ d'.Precedes d := by
  obtain ⟨owner, howner, hmem⟩ := exists_owner hd
  have hreported : d.reports (batchChain batch files delegates outer) ≠ [] ↔ owner ≠ d := by
    rw [reports_eq hd howner]
    by_cases hplace : owner.place = d.place
    · simp [(eq_of_place_eq hmem hd hplace).2]
    · have hne : owner ≠ d := fun h => hplace (congrArg _ h)
      simp [hplace, hne]
  rw [hreported]
  constructor
  · intro hne
    rcases owner_precedes howner hd with rfl | hprecedes
    · exact absurd rfl hne
    · exact ⟨owner, hmem, hprecedes⟩
  · rintro ⟨d', hd', hprecedes⟩
    rcases owner_precedes howner hd' with rfl | howner'
    · exact hprecedes.ne
    · exact (howner'.trans hprecedes).ne

end Batch

/-! ## How many are reported -/

theorem length_flatMap_add_filter {α β : Type} {l : List α} {g : α → List β} {own : α → Bool}
    (h : ∀ a ∈ l, (g a).length = if own a then 0 else 1) :
    (l.flatMap g).length + (l.filter own).length = l.length := by
  induction l with
  | nil => rfl
  | cons a rest ih =>
    have ha := h a List.mem_cons_self
    have hrest := ih fun b hb => h b (List.mem_cons_of_mem a hb)
    rw [List.flatMap_cons, List.length_append, ha, List.filter_cons, List.length_cons]
    by_cases hown : own a = true
    · rw [if_pos hown, if_pos hown, List.length_cons]
      omega
    · rw [if_neg hown, if_neg hown]
      omega

/-- The entry is the one its key is looked up as. -/
def owns (batch : Nat) (files : List SourceFile) (e : String × Declared NamedMember) : Bool :=
  ((ranked batch files).lookup e.1).map (·.place) == some e.2.place

theorem nodup_owned_keys (batch : Nat) (files : List SourceFile) :
    (((namedIn batch files).filter (owns batch files)).map (·.1)).Nodup := by
  rw [List.Nodup, List.pairwise_map]
  refine ((pairwise_declaredIn batch files _).filter _).imp_of_mem fun {a b} ha hb hbefore heq => ?_
  have howns := (List.mem_filter.mp ha).2
  have howns' := (List.mem_filter.mp hb).2
  rw [owns, beq_iff_eq] at howns howns'
  rw [heq, howns', Option.some.injEq] at howns
  exact hbefore.ne howns.symm

theorem mem_owned_keys {batch : Nat} {files : List SourceFile} {key : String} :
    key ∈ ((namedIn batch files).filter (owns batch files)).map (·.1) ↔
      key ∈ (namedIn batch files).map (·.1) := by
  simp only [List.mem_map, List.mem_filter, Prod.exists, exists_and_right, exists_eq_right]
  constructor
  · rintro ⟨d, hd, -⟩
    exact ⟨d, hd⟩
  · rintro ⟨d, hd⟩
    obtain ⟨owner, howner, hmem⟩ := exists_owner hd
    exact ⟨owner, hmem, by simp [owns, howner]⟩

theorem card_keys (batch : Nat) (files : List SourceFile) :
    ((namedIn batch files).map (·.1)).toFinset.card
      = ((namedIn batch files).filter (owns batch files)).length := by
  have hkeys : ((namedIn batch files).map (·.1)).toFinset
      = (((namedIn batch files).filter (owns batch files)).map (·.1)).toFinset := by
    ext key
    rw [List.mem_toFinset, List.mem_toFinset, mem_owned_keys]
  rw [hkeys, List.toFinset_card_of_nodup (nodup_owned_keys batch files), List.length_map]

theorem length_duplicatesIn (batch : Nat) (files : List SourceFile) (delegates : Bool)
    (outer : Chain) :
    (duplicatesIn batch files delegates outer).length
        + ((namedIn batch files).map (·.1)).toFinset.card
      = (namedIn batch files).length := by
  rw [duplicatesIn_eq, card_keys]
  refine length_flatMap_add_filter ?_
  rintro ⟨key, d⟩ hd
  obtain ⟨owner, howner, -⟩ := exists_owner hd
  rw [reports_eq hd howner]
  by_cases hplace : owner.place = d.place <;> simp [owns, howner, hplace]

/-- The keys of a file do not depend on where it stands. -/
def SourceFile.keys (f : SourceFile) : List String :=
  f.declarations.filterMap fun d => d.member.named?.map fun _ => d.qualifiedName

theorem keys_namedIn (batch : Nat) (files : List SourceFile) :
    (namedIn batch files).map (·.1) = files.flatMap SourceFile.keys := by
  unfold namedIn declaredIn
  rw [List.map_flatMap]
  have hkeys : ∀ file ∈ files.zipIdx,
      (file.1.declared batch file.2 (·.named?)).map (·.1) = file.1.keys := by
    intro file _
    simp only [SourceFile.declared, SourceFile.keys, List.map_filterMap, Option.map_map]
    rfl
  rw [List.flatMap_congr hkeys]
  exact flatMap_zipIdx_fst files SourceFile.keys

theorem length_duplicatesIn_perm (batch : Nat) {files files' : List SourceFile}
    (h : files'.Perm files) (delegates : Bool) (outer : Chain) :
    (duplicatesIn batch files' delegates outer).length
      = (duplicatesIn batch files delegates outer).length := by
  have hperm : ((namedIn batch files').map (·.1)).Perm ((namedIn batch files).map (·.1)) := by
    rw [keys_namedIn, keys_namedIn]
    exact h.flatMap_right _
  have hlength := hperm.length_eq
  have hcard := congrArg Finset.card (List.toFinset_eq_of_perm _ _ hperm)
  have hcount := length_duplicatesIn batch files delegates outer
  have hcount' := length_duplicatesIn batch files' delegates outer
  simp only [List.length_map] at hlength
  omega

/-! ## Owners -/

/-- Of the declarations of a name the one that a lookup finds owns it, and every other is reported once. -/
theorem one_owner_per_name (batch : Nat) (files : List SourceFile) (delegates : Bool) (outer : Chain) :
    let chain := batchChain batch files delegates outer
    let named := namedIn batch files
    (∀ key d, (key, d) ∈ named → ∃ owner, (key, owner) ∈ named ∧
      chain.symbol? key = some owner.symbol ∧
      (∀ d', (key, d') ∈ named → d' = owner ∨ owner.Precedes d') ∧
      owner.reports chain = [] ∧
      ∀ d', (key, d') ∈ named → d' ≠ owner →
        d'.reports chain = [⟨d'.item.member.pos, (Finding.duplicateDefinition key).message⟩]) ∧
    (∀ f n, (Site.mk chain f batch n).validateFile.2.entries.filter (·.isDuplicate)
      = (f.declared batch n (·.named?)).flatMap fun e => e.2.reports chain) ∧
    (duplicatesIn batch files delegates outer).length + (named.map (·.1)).toFinset.card
      = named.length ∧
    (∀ files', files'.Perm files → (duplicatesIn batch files' delegates outer).length
      = (duplicatesIn batch files delegates outer).length) ∧
    (BatchIndex.ofFiles batch files).duplicates = (refusedIn batch files).map asDuplicate ∧
    ∀ key d, (key, d) ∈ named → (d.reports chain ≠ [] ↔
      (key, d) ∈ refusedIn batch files ∨
        ∃ d', (key, d') ∈ named ∧ d'.item.kind.rank < d.item.kind.rank) := by
  refine ⟨?_, fun f n => duplicates_of_declared _ f batch n, length_duplicatesIn _ _ _ _,
    fun files' h => length_duplicatesIn_perm batch h _ _, BatchIndex.duplicates_ofFiles _ _, ?_⟩
  · intro key d hd
    obtain ⟨owner, howner, hmem⟩ := exists_owner hd
    refine ⟨owner, hmem, symbol_of_owner howner, fun d' hd' => owner_precedes howner hd', ?_, ?_⟩
    · rw [reports_eq hmem howner, if_pos rfl]
    · intro d' hd' hne
      rw [reports_eq hd' howner, if_neg]
      exact fun hplace => hne (eq_of_place_eq hmem hd' hplace).2.symm
  · intro key d hd
    rw [reports_ne_nil_iff hd, mem_refusedIn]
    constructor
    · rintro ⟨d', hd', hrank | ⟨hkind, hbefore⟩⟩
      · exact .inr ⟨d', hd', hrank⟩
      · exact .inl ⟨hd, d', hd', hkind, hbefore⟩
    · rintro (⟨-, d', hd', hkind, hbefore⟩ | ⟨d', hd', hrank⟩)
      · exact ⟨d', hd', .inr ⟨hkind, hbefore⟩⟩
      · exact ⟨d', hd', .inl hrank⟩

/-- A property that comes before the type of its name. -/
def pointFile : SourceFile where
  namespaceName := ⟨["app"], by decide, by decide⟩
  imports := []
  members := [.property ⟨"Point", .primitive "int" none, none⟩, .type ⟨"Point", [], none⟩]
  pos := none

def pointProperty : Declared NamedMember :=
  ⟨pointFile, ⟨0, 0, 0⟩, .ofProperty ⟨"Point", .primitive "int" none, none⟩⟩

def pointType : Declared NamedMember := ⟨pointFile, ⟨0, 0, 1⟩, .ofType ⟨"Point", [], none⟩⟩

theorem pointProperty_reported :
    ("app.Point", pointProperty) ∈ namedIn 0 [pointFile] ∧
      pointProperty.reports (batchChain 0 [pointFile] false .nothing) ≠ [] := by
  have hproperty : ("app.Point", pointProperty) ∈ namedIn 0 [pointFile] :=
    mem_declaredIn.mpr ⟨rfl, rfl, _, rfl, rfl, by decide +kernel⟩
  have htype : ("app.Point", pointType) ∈ namedIn 0 [pointFile] :=
    mem_declaredIn.mpr ⟨rfl, rfl, _, rfl, rfl, by decide +kernel⟩
  obtain ⟨-, -, -, -, -, hreported⟩ := one_owner_per_name 0 [pointFile] false .nothing
  exact ⟨hproperty, (hreported _ _ hproperty).mpr (.inr ⟨pointType, htype, by decide⟩)⟩

end SemanticCheck
