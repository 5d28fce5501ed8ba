import SemanticCheck.Proofs.ChainLookup
import SemanticCheck.Proofs.Reordering

/-!
# The tables of a batch

Registration splits the declarations of each kind: the first one of every qualified name is in the table,
and all the others are duplicates, listed file by file and kind by kind. Nothing is lost on the way. Where
declared names have no dots, a key tells the namespace and the name apart again.
-/

namespace SemanticCheck

/-! ## Registering entries -/

namespace Table

variable {α : Type}

theorem length_register (table : Table α) (entries : List (String × Declared α)) :
    (table.register entries).1.length + (table.register entries).2.length
      = table.length + entries.length := by
  induction entries generalizing table with
  | nil => rfl
  | cons entry rest ih =>
    obtain ⟨key, d⟩ := entry
    rw [register]
    split
    · have hrest := ih table
      simp only [List.length_cons]
      omega
    · have hrest := ih (table ++ [(key, d)])
      simp only [List.length_append, List.length_cons, List.length_nil] at hrest ⊢
      omega

theorem nodup_register {table : Table α} (h : (table.map (·.1)).Nodup)
    (entries : List (String × Declared α)) : ((table.register entries).1.map (·.1)).Nodup := by
  induction entries generalizing table with
  | nil => exact h
  | cons entry rest ih =>
    obtain ⟨key, d⟩ := entry
    rw [register]
    split
    · exact ih h
    · rename_i hfree
      refine ih ?_
      have hkey : key ∉ table.map (·.1) := by
        intro hmem
        obtain ⟨⟨_, d'⟩, hd', rfl⟩ := List.mem_map.mp hmem
        obtain ⟨first, hfirst⟩ := lookup_of_mem hd'
        rw [hfree] at hfirst
        cases hfirst
      rw [List.map_append, List.nodup_append]
      refine ⟨h, by simp, ?_⟩
      intro a ha b hb heq
      rw [List.map_singleton, List.mem_singleton] at hb
      rw [heq, hb] at ha
      exact hkey ha

theorem register_map {β : Type} (g : α → β) (table : Table α) (entries : List (String × Declared α)) :
    (Table.register (table.map (Prod.map id (Declared.map g)))
        (entries.map (Prod.map id (Declared.map g)))).1
      = (table.register entries).1.map (Prod.map id (Declared.map g)) := by
  induction entries generalizing table with
  | nil => rfl
  | cons entry rest ih =>
    obtain ⟨key, d⟩ := entry
    simp only [List.map_cons, Prod.map_apply, id_eq, register, lookup_map]
    cases table.lookup key with
    | some d' => exact ih table
    | none =>
      have hrest := ih (table ++ [(key, d)])
      rw [List.map_append] at hrest
      exact hrest

end Table

/-! ## Tables of one kind -/

theorem Member.kind_of_ofKind {m : Member} {kind : DeclarationKind} {item : NamedMember}
    (h : m.ofKind? kind = some item) : item.kind = kind := by
  rw [ofKind?, Option.filter_eq_some_iff] at h
  exact eq_of_beq h.2

namespace BatchIndex

/-- What the index finds of a kind, by name. -/
def table (index : BatchIndex) : DeclarationKind → Table NamedMember
  | .type => index.types.map (Prod.map id (Declared.map .ofType))
  | .property => index.properties.map (Prod.map id (Declared.map .ofProperty))
  | .function => index.functions.map (Prod.map id (Declared.map .ofFunction))
  | .program => index.programs.map (Prod.map id (Declared.map .ofProgram))

theorem Fills.image {α : Type} {batch : Nat} {pick : Member → Option α} {table : BatchIndex → Table α}
    (h : Fills batch pick table) {wrap : α → NamedMember} {kind : DeclarationKind}
    (hpick : ∀ m, m.ofKind? kind = (pick m).map wrap) :
    Fills batch (·.ofKind? kind) fun index => (table index).map (Prod.map id (Declared.map wrap)) where
  empty := by rw [h.empty, List.map_nil]
  add index f n := by rw [h.add, declared_ofKind hpick, Table.register_map]

theorem fills_table (batch : Nat) (kind : DeclarationKind) :
    Fills batch (·.ofKind? kind) (·.table kind) := by
  cases kind with
  | type => exact (fills_types batch).image Member.ofKind_type
  | property => exact (fills_properties batch).image Member.ofKind_property
  | function => exact (fills_functions batch).image Member.ofKind_function
  | program => exact (fills_programs batch).image Member.ofKind_program

section Runs

variable {α : Type} {batch : Nat} {pick : Member → Option α} {table : BatchIndex → Table α}

theorem Fills.nodup_after (h : Fills batch pick table) (done : List (SourceFile × Nat)) :
    ((table (after batch done)).map (·.1)).Nodup := by
  induction done using List.reverseRecOn with
  | nil =>
    have hempty : table (after batch []) = [] := h.empty
    rw [hempty]
    exact List.nodup_nil
  | append_singleton done file ih =>
    obtain ⟨f, n⟩ := file
    rw [after_append, h.add]
    exact Table.nodup_register ih _

/-- Each file puts as much into the table as it declares, less what is refused. -/
theorem Fills.length_after (h : Fills batch pick table) {files : List SourceFile}
    (done rest : List (SourceFile × Nat)) (hfiles : files.zipIdx = done ++ rest) :
    (table (after batch done)).length
        + (done.flatMap fun file =>
            (file.1.declared batch file.2 pick).filter (isLater (declaredIn batch files pick))).length
      = (done.flatMap fun file => file.1.declared batch file.2 pick).length := by
  -- `rest` varies: what is refused of a file is said with all the files, those to come included.
  induction done using List.reverseRecOn generalizing rest with
  | nil =>
    have hempty : table (after batch []) = [] := h.empty
    rw [hempty]
    rfl
  | append_singleton done file ih =>
    obtain ⟨f, n⟩ := file
    have hnext : files.zipIdx = done ++ (f, n) :: rest := by simpa using hfiles
    have hregister := Table.length_register (table (after batch done)) (f.declared batch n pick)
    have hdone := ih _ hnext
    rw [h.refused_of_file hnext] at hregister
    rw [after_append, h.add]
    simp only [List.flatMap_append, List.flatMap_cons, List.flatMap_nil, List.append_nil,
      List.length_append]
    omega

end Runs

theorem lookup_table (batch : Nat) (files : List SourceFile) (kind : DeclarationKind) (key : String) :
    ((ofFiles batch files).table kind).lookup key
      = (declaredIn batch files (·.ofKind? kind)).lookup key :=
  (fills_table batch kind).lookup_after files.zipIdx key

/-- The table of a kind has, for each name, the first declaration of that kind. -/
theorem lookup_table_iff {batch : Nat} {files : List SourceFile} {kind : DeclarationKind} {key : String}
    {d : Declared NamedMember} :
    ((ofFiles batch files).table kind).lookup key = some d ↔
      (key, d) ∈ namedIn batch files ∧ d.item.kind = kind ∧
        ∀ d', (key, d') ∈ namedIn batch files → d'.item.kind = kind → d' = d ∨ d.place.Before d'.place := by
  have hordered := pairwise_declaredIn batch files (·.ofKind? kind)
  rw [lookup_table]
  constructor
  · intro hd
    obtain ⟨hnamed, hkind⟩ := mem_ofKind.mp (mem_of_lookup hd)
    refine ⟨hnamed, hkind, fun d' hd' hkind' => ?_⟩
    exact eq_or_of_lookup hordered hd (mem_ofKind.mpr ⟨hd', hkind'⟩)
  · rintro ⟨hnamed, hkind, hfirst⟩
    obtain ⟨first, hlookup⟩ := lookup_of_mem (mem_ofKind.mpr ⟨hnamed, hkind⟩)
    obtain ⟨hnamed', hkind'⟩ := mem_ofKind.mp (mem_of_lookup hlookup)
    rw [hlookup]
    rcases hfirst first hnamed' hkind' with rfl | hbefore
    · rfl
    · rcases eq_or_of_lookup hordered hlookup (mem_ofKind.mpr ⟨hnamed, hkind⟩) with rfl | hbefore'
      · rfl
      · exact absurd rfl (hbefore.trans hbefore').ne

end BatchIndex

/-! ## The order of the duplicates -/

/-- In an earlier file, or of an earlier kind in the same file, or earlier among these. -/
def Declared.RegisteredBefore (d d' : Declared NamedMember) : Prop :=
  d.place.file < d'.place.file ∨ d.place.file = d'.place.file ∧
    (d.item.kind.rank < d'.item.kind.rank ∨
      d.item.kind = d'.item.kind ∧ d.place.member < d'.place.member)

section Refused

variable {batch : Nat} {files : List SourceFile}

theorem file_and_kind_of_declared {f : SourceFile} {n : Nat} {kind : DeclarationKind}
    {e : String × Declared NamedMember} (h : e ∈ f.declared batch n (·.ofKind? kind)) :
    e.2.place.file = n ∧ e.2.item.kind = kind := by
  obtain ⟨-, -, hfile, m, -, hpick, -⟩ := mem_declared.mp h
  exact ⟨hfile, Member.kind_of_ofKind hpick⟩

theorem file_of_refused {f : SourceFile} {n : Nat} {e : String × Declared NamedMember}
    (h : e ∈ f.refused batch n files) : e.2.place.file = n := by
  simp only [SourceFile.refused, List.mem_flatMap, List.mem_filter] at h
  obtain ⟨kind, -, he, -⟩ := h
  exact (file_and_kind_of_declared he).1

theorem pairwise_refused (f : SourceFile) (n : Nat) :
    (f.refused batch n files).Pairwise fun a b => a.2.RegisteredBefore b.2 := by
  unfold SourceFile.refused
  rw [List.pairwise_flatMap]
  constructor
  · intro kind _
    refine ((pairwise_declared f n).filter _).imp_of_mem fun {a b} ha hb hbefore => ?_
    obtain ⟨hfile, hkind⟩ := file_and_kind_of_declared (List.mem_of_mem_filter ha)
    obtain ⟨hfile', hkind'⟩ := file_and_kind_of_declared (List.mem_of_mem_filter hb)
    rcases hbefore with hlt | ⟨-, hlt⟩
    · omega
    · exact .inr ⟨hfile.trans hfile'.symm, .inr ⟨hkind.trans hkind'.symm, hlt⟩⟩
  · refine DeclarationKind.pairwise_all.imp fun {kind kind'} hrank a ha b hb => ?_
    obtain ⟨hfile, hkind⟩ := file_and_kind_of_declared (List.mem_of_mem_filter ha)
    obtain ⟨hfile', hkind'⟩ := file_and_kind_of_declared (List.mem_of_mem_filter hb)
    refine .inr ⟨hfile.trans hfile'.symm, .inl ?_⟩
    rw [hkind, hkind']
    exact hrank

variable (batch files) in
theorem pairwise_refusedIn :
    (refusedIn batch files).Pairwise fun a b => a.2.RegisteredBefore b.2 := by
  unfold refusedIn
  rw [List.pairwise_flatMap]
  refine ⟨fun file _ => pairwise_refused file.1 file.2, ?_⟩
  refine (pairwise_zipIdx files).imp fun {a b} hlt x hx y hy => .inl ?_
  rw [file_of_refused hx, file_of_refused hy]
  exact hlt

/-- What is refused is what a lookup does not find, though it is declared. -/
theorem mem_refusedIn_iff {key : String} {d : Declared NamedMember} :
    (key, d) ∈ refusedIn batch files ↔
      (key, d) ∈ namedIn batch files ∧
        ((BatchIndex.ofFiles batch files).table d.item.kind).lookup key ≠ some d := by
  rw [mem_refusedIn]
  refine and_congr_right fun hd => ?_
  rw [ne_eq, BatchIndex.lookup_table_iff]
  constructor
  · rintro ⟨d', hd', hkind, hbefore⟩ ⟨-, -, hfirst⟩
    rcases hfirst d' hd' hkind with rfl | hbefore'
    · exact hbefore.ne rfl
    · exact (hbefore.trans hbefore').ne rfl
  · intro hnot
    obtain ⟨first, hlookup⟩ := lookup_of_mem (mem_ofKind.mpr ⟨hd, rfl⟩)
    rw [← BatchIndex.lookup_table] at hlookup
    obtain ⟨hnamed, hkind, hfirst⟩ := BatchIndex.lookup_table_iff.mp hlookup
    rcases hfirst d hd rfl with rfl | hbefore
    · exact absurd ⟨hnamed, rfl, hfirst⟩ hnot
    · exact ⟨first, hnamed, hkind, hbefore⟩

end Refused

/-! ## Counting -/

section Counting

variable (batch : Nat) (files : List SourceFile) (kind : DeclarationKind)

theorem filter_kind_refused (f : SourceFile) (n : Nat) :
    (f.refused batch n files).filter (·.2.item.kind == kind)
      = (f.declared batch n (·.ofKind? kind)).filter
          (isLater (declaredIn batch files (·.ofKind? kind))) := by
  have hkinds : ∀ kind' : DeclarationKind,
      ((f.declared batch n (·.ofKind? kind')).filter
          (isLater (declaredIn batch files (·.ofKind? kind')))).filter (·.2.item.kind == kind)
        = if kind' = kind then (f.declared batch n (·.ofKind? kind')).filter
            (isLater (declaredIn batch files (·.ofKind? kind'))) else [] := by
    intro kind'
    split
    · rename_i hkind
      refine List.filter_eq_self.mpr fun e he => ?_
      rw [(file_and_kind_of_declared (List.mem_of_mem_filter he)).2, hkind, beq_self_eq_true]
    · rename_i hkind
      refine List.filter_eq_nil_iff.mpr fun e he => ?_
      rw [(file_and_kind_of_declared (List.mem_of_mem_filter he)).2, beq_iff_eq]
      exact hkind
  unfold SourceFile.refused
  rw [List.filter_flatMap]
  simp only [hkinds, DeclarationKind.all, List.flatMap_cons, List.flatMap_nil]
  cases kind <;> simp

theorem length_keysOf (f : SourceFile) :
    (f.keysOf kind).length = f.members.countP (·.kind? == some kind) := by
  have hplaces : f.members = f.members.zipIdx.map Prod.fst := (List.zipIdx_map_fst 0 f.members).symm
  rw [hplaces, List.countP_map, SourceFile.keysOf, List.length_map, ← List.countP_eq_length_filter,
    SourceFile.declarations, List.countP_map]
  rfl

theorem length_declaredIn :
    (declaredIn batch files (·.ofKind? kind)).length
      = (files.flatMap (·.members)).countP (·.kind? == some kind) := by
  rw [← List.length_map (f := Prod.fst), keys_ofKind]
  induction files with
  | nil => rfl
  | cons f rest ih =>
    rw [List.flatMap_cons, List.flatMap_cons, List.length_append, List.countP_append, length_keysOf, ih]

/-- Every declaration is in the table of its kind or among the duplicates. -/
theorem BatchIndex.length_table :
    ((ofFiles batch files).table kind).length
        + ((ofFiles batch files).duplicates.filter (·.kind == kind)).length
      = (files.flatMap (·.members)).countP (·.kind? == some kind) := by
  have hduplicates : ((ofFiles batch files).duplicates.filter (·.kind == kind)).length
      = (files.zipIdx.flatMap fun file => (file.1.declared batch file.2 (·.ofKind? kind)).filter
          (isLater (declaredIn batch files (·.ofKind? kind)))).length := by
    rw [duplicates_ofFiles, List.filter_map, List.length_map, refusedIn, List.filter_flatMap]
    congr 1
    exact List.flatMap_congr fun file _ => filter_kind_refused batch files kind file.1 file.2
  have hlength := (fills_table batch kind).length_after files.zipIdx [] (List.append_nil _).symm
  rw [hduplicates, ← length_declaredIn batch]
  exact hlength

end Counting

/-! ## Keys -/

theorem qualify_inj {context context' name name' : String} (hcontext : context ≠ "")
    (hname : hasDot name = false) (hname' : hasDot name' = false)
    (h : qualify context name = qualify context' name') : context = context' ∧ name = name' := by
  have hsplit := splitLastDot_append context hname
  rw [← qualify_of_ne hcontext, h] at hsplit
  by_cases hempty : context' = ""
  · rw [hempty] at hsplit
    have hbare : qualify "" name' = name' := rfl
    rw [hbare, splitLastDot_eq_none_iff.mpr hname'] at hsplit
    cases hsplit
  · rw [qualify_of_ne hempty, splitLastDot_append context' hname'] at hsplit
    obtain ⟨hcontext', hname''⟩ := Prod.mk.inj (Option.some.inj hsplit)
    exact ⟨hcontext'.symm, hname''.symm⟩

section Dotless

variable {batch : Nat} {files : List SourceFile} {kind : DeclarationKind}

theorem named_cases {key : String} {d : Declared NamedMember} (h : (key, d) ∈ namedIn batch files) :
    d.file ∈ files ∧ d.item.member ∈ d.file.members ∧
      key = qualify d.file.context d.item.member.name := by
  obtain ⟨hfile, -, m, hm, hitem, rfl⟩ := mem_declaredIn.mp h
  obtain rfl := Member.named_eq_some hitem
  exact ⟨List.mem_of_getElem? hfile, List.mem_of_getElem? hm, rfl⟩

theorem exists_declared {f : SourceFile} (hf : f ∈ files) {m : Member} (hm : m ∈ f.members)
    (hkind : m.kind? = some kind) :
    ∃ d, (qualify f.context m.name, d) ∈ declaredIn batch files (·.ofKind? kind) := by
  obtain ⟨n, hn⟩ := List.mem_iff_getElem?.mp hf
  obtain ⟨k, hk⟩ := List.mem_iff_getElem?.mp hm
  rw [← m.kind_named, Option.map_eq_some_iff] at hkind
  obtain ⟨item, hitem, hkind⟩ := hkind
  have hpick : m.ofKind? kind = some item := by
    rw [Member.ofKind?, Option.filter_eq_some_iff]
    exact ⟨hitem, by rw [hkind, beq_self_eq_true]⟩
  exact ⟨⟨f, ⟨batch, n, k⟩, item⟩, mem_declaredIn.mpr ⟨hn, rfl, m, hk, hpick, rfl⟩⟩

variable
  (hdotless : ∀ f ∈ files, ∀ m ∈ f.members, m.kind?.isSome = true → hasDot m.name = false)

include hdotless

/-- The key of a namespace and a name finds nothing from another namespace or of another name. -/
theorem context_of_lookup {context name : String} (hname : hasDot name = false)
    {d : Declared NamedMember}
    (hd : ((BatchIndex.ofFiles batch files).table kind).lookup (qualify context name) = some d) :
    d.file.context = context ∧ d.item.member.name = name := by
  obtain ⟨hnamed, -, -⟩ := BatchIndex.lookup_table_iff.mp hd
  obtain ⟨hfile, hmember, hkey⟩ := named_cases hnamed
  have hmembername := hdotless d.file hfile d.item.member hmember (by rw [d.item.kind_eq]; rfl)
  exact qualify_inj d.file.context_ne_empty hmembername hname hkey.symm

theorem lookup_eq_none_iff {context name : String} (hname : hasDot name = false) :
    ((BatchIndex.ofFiles batch files).table kind).lookup (qualify context name) = none ↔
      ∀ f ∈ files, f.context = context → ∀ m ∈ f.members, m.kind? = some kind → m.name ≠ name := by
  constructor
  · rintro hnone f hf rfl m hm hkind rfl
    obtain ⟨d, hd⟩ : ∃ d, (qualify f.context m.name, d) ∈ declaredIn batch files (·.ofKind? kind) :=
      exists_declared hf hm hkind
    obtain ⟨first, hfirst⟩ := lookup_of_mem hd
    rw [BatchIndex.lookup_table, hfirst] at hnone
    cases hnone
  · intro hother
    cases hd : ((BatchIndex.ofFiles batch files).table kind).lookup (qualify context name) with
    | none => rfl
    | some d =>
      obtain ⟨hcontext, hmembername⟩ := context_of_lookup hdotless hname hd
      obtain ⟨hnamed, hkind, -⟩ := BatchIndex.lookup_table_iff.mp hd
      obtain ⟨hfile, hmember, -⟩ := named_cases hnamed
      exact absurd hmembername
        (hother d.file hfile hcontext d.item.member hmember (by rw [d.item.kind_eq, hkind]))

end Dotless

/-- The table of a kind has the first declaration of each name, and the duplicates are all the others. -/
theorem BatchIndex.tables_split_declarations (batch : Nat) (files : List SourceFile) :
    let index := BatchIndex.ofFiles batch files
    let named := namedIn batch files
    (∀ kind, ((index.table kind).map (·.1)).Nodup ∧
      ∀ key d, (index.table kind).lookup key = some d ↔
        (key, d) ∈ named ∧ d.item.kind = kind ∧
          ∀ d', (key, d') ∈ named → d'.item.kind = kind → d' = d ∨ d.place.Before d'.place) ∧
    (index.duplicates = (refusedIn batch files).map asDuplicate ∧
      ((refusedIn batch files).Pairwise fun a b => a.2.RegisteredBefore b.2) ∧
      ∀ key d, (key, d) ∈ refusedIn batch files ↔
        (key, d) ∈ named ∧ (index.table d.item.kind).lookup key ≠ some d) ∧
    (∀ kind, (index.table kind).length + (index.duplicates.filter (·.kind == kind)).length
      = (files.flatMap (·.members)).countP (·.kind? == some kind)) ∧
    ((∀ f ∈ files, ∀ m ∈ f.members, m.kind?.isSome = true → hasDot m.name = false) →
      ∀ kind context name, hasDot name = false →
        (∀ d, (index.table kind).lookup (qualify context name) = some d →
          d.file.context = context ∧ d.item.member.name = name) ∧
        ((index.table kind).lookup (qualify context name) = none ↔
          ∀ f ∈ files, f.context = context → ∀ m ∈ f.members, m.kind? = some kind →
            m.name ≠ name)) := by
  refine ⟨?_, ⟨duplicates_ofFiles batch files, pairwise_refusedIn batch files, ?_⟩, ?_, ?_⟩
  · intro kind
    exact ⟨(fills_table batch kind).nodup_after files.zipIdx, fun key d => lookup_table_iff⟩
  · exact fun key d => mem_refusedIn_iff
  · exact fun kind => length_table batch files kind
  · intro hdotless kind context name hname
    exact ⟨fun d hd => context_of_lookup hdotless hname hd, lookup_eq_none_iff hdotless hname⟩

/-! ## A batch with a duplicate -/

def depotFile : SourceFile where
  namespaceName := ⟨["depot"], by decide, by decide⟩
  imports := []
  members :=
    [.type ⟨"Crate", [], none⟩, .function ⟨"Crate", .void none, [], .block [] none, none⟩,
      .type ⟨"Crate", [], none⟩]
  pos := none

/-- The namespace below, with a type of the same name. -/
def northFile : SourceFile where
  namespaceName := depotFile.namespaceName.child "north"
  imports := []
  members := [.type ⟨"Crate", [], none⟩]
  pos := none

def northCrate : Declared NamedMember := ⟨northFile, ⟨0, 1, 0⟩, .ofType ⟨"Crate", [], none⟩⟩

theorem BatchIndex.crates_split :
    let index := BatchIndex.ofFiles 0 [depotFile, northFile]
    (∀ f ∈ [depotFile, northFile], ∀ m ∈ f.members, m.kind?.isSome = true → hasDot m.name = false) ∧
    (index.table .type).length + (index.duplicates.filter (·.kind == .type)).length = 3 ∧
    (index.table .type).lookup (qualify "depot.north" "Crate") = some northCrate ∧
    northCrate.file.context = "depot.north" ∧
    (index.table .program).lookup (qualify "depot" "Crate") = none := by
  have hdotless : ∀ f ∈ [depotFile, northFile], ∀ m ∈ f.members, m.kind?.isSome = true →
      hasDot m.name = false := by
    decide
  obtain ⟨-, -, hcount, hkeys⟩ := BatchIndex.tables_split_declarations 0 [depotFile, northFile]
  have hfound : ((BatchIndex.ofFiles 0 [depotFile, northFile]).table .type).lookup
      (qualify "depot.north" "Crate") = some northCrate := rfl
  refine ⟨hdotless, hcount .type, hfound, ?_, ?_⟩
  · exact ((hkeys hdotless .type "depot.north" "Crate" rfl).1 northCrate hfound).1
  · exact (hkeys hdotless .program "depot" "Crate" rfl).2.mpr (by decide)

end SemanticCheck
