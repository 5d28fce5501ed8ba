import SemanticCheck.Lookup.Chain

/-!
# Registration

The tables of a batch are filled file by file. A lookup in a table finds the first declaration of its
kind with the key, in file order and then in member order, and it is a member of a file of the batch.
Every later declaration with the key is refused.
-/

namespace SemanticCheck

/-- What the files of a batch declare of one kind, by key, in file order and then in member order. -/
def declaredIn {α : Type} (batch : Nat) (files : List SourceFile) (pick : Member → Option α) :
    List (String × Declared α) :=
  files.zipIdx.flatMap fun (f, n) => f.declared batch n pick

theorem flatMap_zipIdx_fst {α β : Type} (l : List α) (g : α → List β) :
    (l.zipIdx.flatMap fun a => g a.1) = l.flatMap g := by
  have hmap : (l.zipIdx.flatMap fun a => g a.1) = (l.zipIdx.map Prod.fst).flatMap g :=
    (List.flatMap_map ..).symm
  rw [hmap, List.zipIdx_map_fst]

/-! ## Members behind the entries -/

section Entries

variable {α : Type} {batch : Nat} {files : List SourceFile} {pick : Member → Option α}

theorem mem_declared {f : SourceFile} {n : Nat} {key : String} {d : Declared α} :
    (key, d) ∈ f.declared batch n pick ↔
      d.file = f ∧ d.place.batch = batch ∧ d.place.file = n ∧
        ∃ m, f.members[d.place.member]? = some m ∧ pick m = some d.item ∧
          key = qualify f.context m.name := by
  simp only [SourceFile.declared, SourceFile.declarations, List.mem_filterMap, List.mem_map,
    Option.map_eq_some_iff, Prod.mk.injEq]
  constructor
  · rintro ⟨_, ⟨⟨m, k⟩, hm, rfl⟩, item, hitem, rfl, rfl⟩
    exact ⟨rfl, rfl, rfl, m, List.mk_mem_zipIdx_iff_getElem?.mp hm, hitem, rfl⟩
  · rintro ⟨rfl, rfl, rfl, m, hm, hitem, rfl⟩
    exact ⟨_, ⟨⟨m, d.place.member⟩, List.mk_mem_zipIdx_iff_getElem?.mpr hm, rfl⟩, d.item, hitem, rfl, rfl⟩

theorem mem_declaredIn {key : String} {d : Declared α} :
    (key, d) ∈ declaredIn batch files pick ↔
      files[d.place.file]? = some d.file ∧ d.place.batch = batch ∧
        ∃ m, d.file.members[d.place.member]? = some m ∧ pick m = some d.item ∧
          key = qualify d.file.context m.name := by
  simp only [declaredIn, List.mem_flatMap, Prod.exists]
  constructor
  · rintro ⟨f, n, hf, hd⟩
    obtain ⟨rfl, hbatch, rfl, hm⟩ := mem_declared.mp hd
    exact ⟨List.mk_mem_zipIdx_iff_getElem?.mp hf, hbatch, hm⟩
  · rintro ⟨hf, hbatch, hm⟩
    exact ⟨d.file, d.place.file, List.mk_mem_zipIdx_iff_getElem?.mpr hf,
      mem_declared.mpr ⟨rfl, hbatch, rfl, hm⟩⟩

theorem eq_of_place_eq {key key' : String} {d d' : Declared α}
    (h : (key, d) ∈ declaredIn batch files pick) (h' : (key', d') ∈ declaredIn batch files pick)
    (hplace : d.place = d'.place) : key = key' ∧ d = d' := by
  obtain ⟨hf, -, m, hm, hitem, rfl⟩ := mem_declaredIn.mp h
  obtain ⟨hf', -, m', hm', hitem', rfl⟩ := mem_declaredIn.mp h'
  obtain ⟨file, place, item⟩ := d
  obtain ⟨file', place', item'⟩ := d'
  simp only at *
  subst hplace
  obtain rfl := Option.some.inj (hf.symm.trans hf')
  obtain rfl := Option.some.inj (hm.symm.trans hm')
  obtain rfl := Option.some.inj (hitem.symm.trans hitem')
  exact ⟨rfl, rfl⟩

end Entries

/-! ## The order of the entries -/

/-- Earlier in the batch: in an earlier file, or earlier in the same file. -/
def Place.Before (p q : Place) : Prop := p.file < q.file ∨ p.file = q.file ∧ p.member < q.member

instance : DecidableRel Place.Before := fun _ _ => inferInstanceAs (Decidable (_ ∨ _ ∧ _))

theorem Place.Before.ne {p q : Place} (h : p.Before q) : p ≠ q := by
  rintro rfl
  unfold Before at h
  omega

theorem Place.Before.trans {p q r : Place} (hpq : p.Before q) (hqr : q.Before r) : p.Before r := by
  unfold Before at *
  omega

section Order

variable {α : Type} {batch : Nat} {files : List SourceFile} {pick : Member → Option α}

theorem pairwise_zipIdx {β : Type} (l : List β) : l.zipIdx.Pairwise fun a b => a.2 < b.2 := by
  rw [← List.pairwise_map, List.zipIdx_map_snd]
  exact List.pairwise_lt_range'

theorem pairwise_declared (f : SourceFile) (n : Nat) :
    (f.declared batch n pick).Pairwise fun a b => a.2.place.Before b.2.place := by
  unfold SourceFile.declared SourceFile.declarations
  rw [List.pairwise_filterMap, List.pairwise_map]
  refine (pairwise_zipIdx f.members).imp fun {a b} hlt => ?_
  intro x hx y hy
  obtain ⟨item, -, rfl⟩ := Option.map_eq_some_iff.mp hx
  obtain ⟨item', -, rfl⟩ := Option.map_eq_some_iff.mp hy
  exact .inr ⟨rfl, hlt⟩

variable (batch files pick) in
theorem pairwise_declaredIn :
    (declaredIn batch files pick).Pairwise fun a b => a.2.place.Before b.2.place := by
  unfold declaredIn
  rw [List.pairwise_flatMap]
  refine ⟨fun file _ => pairwise_declared file.1 file.2, ?_⟩
  refine (pairwise_zipIdx files).imp fun {a b} hlt => ?_
  intro x hx y hy
  obtain ⟨-, -, hxfile, -⟩ := mem_declared.mp hx
  obtain ⟨-, -, hyfile, -⟩ := mem_declared.mp hy
  exact .inl (by omega)

end Order

/-- In an ordered list, a lookup finds the least entry with its key. -/
theorem eq_or_of_lookup {α : Type} {R : String × α → String × α → Prop} {l : List (String × α)}
    (hl : l.Pairwise R) {key : String} {a b : α} (ha : l.lookup key = some a) (hb : (key, b) ∈ l) :
    b = a ∨ R (key, a) (key, b) := by
  obtain ⟨before, after, rfl, hbefore⟩ := List.lookup_eq_some_iff.mp ha
  rw [List.mem_append, List.mem_cons] at hb
  rcases hb with hb | hb | hb
  · simpa using hbefore (key, b) hb
  · exact .inl (Prod.mk.inj hb).2
  · have hafter := (List.pairwise_append.mp hl).2.1
    exact .inr ((List.pairwise_cons.mp hafter).1 (key, b) hb)

/-! ## Lookups in the tables -/

theorem lookup_of_mem {α : Type} {entries : List (String × α)} {key : String} {a : α}
    (h : (key, a) ∈ entries) : ∃ b, entries.lookup key = some b := by
  cases hlookup : entries.lookup key with
  | some b => exact ⟨b, rfl⟩
  | none => simpa using List.lookup_eq_none_iff.mp hlookup (key, a) h

theorem mem_of_lookup {α : Type} {entries : List (String × α)} {key : String} {a : α}
    (h : entries.lookup key = some a) : (key, a) ∈ entries := by
  obtain ⟨before, after, rfl, -⟩ := List.lookup_eq_some_iff.mp h
  simp

theorem Table.lookup_register {α : Type} (table : Table α) (entries : List (String × Declared α))
    (key : String) :
    (table.register entries).1.lookup key = (table.lookup key).or (entries.lookup key) := by
  induction entries generalizing table with
  | nil => simp [Table.register]
  | cons entry rest ih =>
    obtain ⟨name, d⟩ := entry
    rw [Table.register]
    split
    · -- The key is taken, so the entry is not the first one with it.
      rename_i d₀ htaken
      simp only [ih, List.lookup_cons]
      by_cases hkey : key == name
      · rw [eq_of_beq hkey, htaken]
        rfl
      · simp [hkey]
    · rename_i hfree
      rw [ih, List.lookup_append, Option.or_assoc]
      congr 1
      simp only [List.lookup_cons, List.lookup_nil]
      cases key == name <;> rfl

namespace BatchIndex

def after (batch : Nat) (done : List (SourceFile × Nat)) : BatchIndex :=
  done.foldl (fun index (f, n) => index.addFile batch f n) {}

theorem after_append (batch : Nat) (done : List (SourceFile × Nat)) (f : SourceFile) (n : Nat) :
    after batch (done ++ [(f, n)]) = (after batch done).addFile batch f n := by
  simp [after]

/-- The table is filled by registering what each file declares of one kind. -/
structure Fills {α : Type} (batch : Nat) (pick : Member → Option α) (table : BatchIndex → Table α) :
    Prop where
  empty : table {} = []
  add : ∀ index f n,
    table (addFile batch index f n) = (Table.register (table index) (f.declared batch n pick)).1

theorem lookup_foldl {α : Type} {batch : Nat} {pick : Member → Option α}
    {table : BatchIndex → Table α} (h : Fills batch pick table) (files : List (SourceFile × Nat))
    (index : BatchIndex) (key : String) :
    (table (files.foldl (fun index (f, n) => index.addFile batch f n) index)).lookup key
      = ((table index).lookup key).or
          ((files.flatMap fun (f, n) => f.declared batch n pick).lookup key) := by
  induction files generalizing index with
  | nil => simp
  | cons file rest ih =>
    simp only [List.foldl_cons, List.flatMap_cons]
    rw [ih, h.add, Table.lookup_register, Option.or_assoc, List.lookup_append]

theorem Fills.lookup_after {α : Type} {batch : Nat} {pick : Member → Option α}
    {table : BatchIndex → Table α} (h : Fills batch pick table) (done : List (SourceFile × Nat))
    (key : String) :
    (table (after batch done)).lookup key
      = (done.flatMap fun (f, n) => f.declared batch n pick).lookup key := by
  unfold after
  rw [lookup_foldl h, h.empty]
  rfl

theorem fills_types (batch : Nat) : Fills batch (·.type?) (·.types) := ⟨rfl, fun _ _ _ => rfl⟩

theorem fills_properties (batch : Nat) : Fills batch (·.property?) (·.properties) :=
  ⟨rfl, fun _ _ _ => rfl⟩

theorem fills_functions (batch : Nat) : Fills batch (·.function?) (·.functions) :=
  ⟨rfl, fun _ _ _ => rfl⟩

theorem fills_programs (batch : Nat) : Fills batch (·.program?) (·.programs) :=
  ⟨rfl, fun _ _ _ => rfl⟩

variable (batch : Nat) (files : List SourceFile) (key : String)

theorem lookup_types :
    (ofFiles batch files).types.lookup key = (declaredIn batch files (·.type?)).lookup key :=
  (fills_types batch).lookup_after files.zipIdx key

theorem lookup_properties :
    (ofFiles batch files).properties.lookup key
      = (declaredIn batch files (·.property?)).lookup key :=
  (fills_properties batch).lookup_after files.zipIdx key

theorem lookup_functions :
    (ofFiles batch files).functions.lookup key
      = (declaredIn batch files (·.function?)).lookup key :=
  (fills_functions batch).lookup_after files.zipIdx key

theorem lookup_programs :
    (ofFiles batch files).programs.lookup key
      = (declaredIn batch files (·.program?)).lookup key :=
  (fills_programs batch).lookup_after files.zipIdx key

end BatchIndex

/-! ## Refused entries -/

/-- An entry is refused when a lookup finds another one, in the table or among the entries. -/
theorem Table.register_refused {α : Type} (table : Table α) (entries : List (String × Declared α))
    (htable : ∀ key d, table.lookup key = some d → ∀ e ∈ entries, d.place ≠ e.2.place)
    (hentries : entries.Pairwise fun a b => a.2.place ≠ b.2.place) :
    (table.register entries).2 = entries.filter fun e =>
      ((table.lookup e.1).or (entries.lookup e.1)).map (·.place) != some e.2.place := by
  induction entries generalizing table with
  | nil => rfl
  | cons entry rest ih =>
    obtain ⟨name, d⟩ := entry
    obtain ⟨hhead, hrest⟩ := List.pairwise_cons.mp hentries
    have hlookup : ∀ key, List.lookup key ([(name, d)] ++ rest)
        = (List.lookup key [(name, d)]).or (rest.lookup key) :=
      fun key => List.lookup_append
    rw [Table.register, List.filter_cons]
    split
    · -- The key is taken: this entry is refused, and it hides none of the rest.
      rename_i d₀ htaken
      have hplace := htable name d₀ htaken (name, d) List.mem_cons_self
      have hkept : (((table.lookup name).or (List.lookup name ((name, d) :: rest))).map (·.place)
          != some d.place) = true := by
        simpa [htaken] using hplace
      rw [if_pos hkept]
      simp only [ih table (fun k d' hd' e he => htable k d' hd' e (List.mem_cons_of_mem _ he)) hrest]
      congr 1
      apply List.filter_congr
      intro e he
      by_cases hkey : e.1 = name
      · rw [hkey, htaken]
        rfl
      · rw [List.lookup_cons, beq_false_of_ne hkey]
    · -- The key is free: this entry is the one a lookup finds from now on.
      rename_i hfree
      have hdropped : (((table.lookup name).or (List.lookup name ((name, d) :: rest))).map (·.place)
          != some d.place) = false := by
        simp [hfree]
      rw [if_neg (ne_true_of_eq_false hdropped), ih (table ++ [(name, d)]) ?_ hrest]
      · apply List.filter_congr
        intro e he
        rw [List.lookup_append, Option.or_assoc, ← hlookup]
        rfl
      · intro k d' hd' e he
        rw [List.lookup_append, Option.or_eq_some_iff] at hd'
        rcases hd' with hd' | ⟨-, hd'⟩
        · exact htable k d' hd' e (List.mem_cons_of_mem _ he)
        · obtain ⟨-, rfl⟩ := Prod.mk.inj (List.mem_singleton.mp (mem_of_lookup hd'))
          exact hhead e he

/-- An earlier entry has the same key. -/
def isLater {α : Type} (entries : List (String × Declared α)) (e : String × Declared α) : Bool :=
  entries.any fun e' => e'.1 == e.1 && decide (e'.2.place.Before e.2.place)

theorem isLater_iff {α : Type} {entries : List (String × Declared α)} {key : String}
    {d : Declared α} :
    isLater entries (key, d) = true ↔ ∃ d', (key, d') ∈ entries ∧ d'.place.Before d.place := by
  simp only [isLater, List.any_eq_true, Bool.and_eq_true, beq_iff_eq, decide_eq_true_eq, Prod.exists]
  constructor
  · rintro ⟨key', d', hmem, rfl, hbefore⟩
    exact ⟨d', hmem, hbefore⟩
  · rintro ⟨d', hmem, hbefore⟩
    exact ⟨key, d', hmem, rfl, hbefore⟩

theorem lookup_bne_eq_isLater {α : Type} {entries : List (String × Declared α)}
    (hentries : entries.Pairwise fun a b => a.2.place.Before b.2.place) {key : String}
    {d : Declared α} (hd : (key, d) ∈ entries) :
    ((entries.lookup key).map (·.place) != some d.place) = isLater entries (key, d) := by
  obtain ⟨first, hfirst⟩ := lookup_of_mem hd
  rw [Bool.eq_iff_iff, isLater_iff, hfirst]
  simp only [Option.map_some, bne_iff_ne, ne_eq, Option.some.injEq]
  constructor
  · intro hne
    rcases eq_or_of_lookup hentries hfirst hd with rfl | hbefore
    · exact absurd rfl hne
    · exact ⟨first, mem_of_lookup hfirst, hbefore⟩
  · rintro ⟨d', hd', hbefore⟩
    rcases eq_or_of_lookup hentries hfirst hd' with rfl | hfirst'
    · exact hbefore.ne
    · exact (hfirst'.trans hbefore).ne

namespace BatchIndex

/-- Of what a file declares, those are refused that come later than another declaration of their key
and kind in the batch. -/
theorem Fills.refused_of_file {α : Type} {batch : Nat} {pick : Member → Option α}
    {table : BatchIndex → Table α} (h : Fills batch pick table) {files : List SourceFile}
    {done rest : List (SourceFile × Nat)} {f : SourceFile} {n : Nat}
    (hfiles : files.zipIdx = done ++ (f, n) :: rest) :
    (Table.register (table (after batch done)) (f.declared batch n pick)).2
      = (f.declared batch n pick).filter (isLater (declaredIn batch files pick)) := by
  have hsplit : declaredIn batch files pick
      = (done.flatMap fun (f, n) => f.declared batch n pick)
        ++ (f.declared batch n pick ++ rest.flatMap fun (f, n) => f.declared batch n pick) := by
    simp [declaredIn, hfiles]
  have hordered := pairwise_declaredIn batch files pick
  have hbefore := (List.pairwise_append.mp (hsplit ▸ hordered)).2.2
  rw [Table.register_refused]
  · apply List.filter_congr
    rintro ⟨key, d⟩ hd
    obtain ⟨first, hfirst⟩ := lookup_of_mem hd
    have hd' : (key, d) ∈ declaredIn batch files pick := by
      rw [hsplit]
      exact List.mem_append_right _ (List.mem_append_left _ hd)
    rw [← lookup_bne_eq_isLater hordered hd', hsplit, List.lookup_append, List.lookup_append,
      h.lookup_after, hfirst]
    rfl
  · intro key d hd e he
    rw [h.lookup_after] at hd
    exact (hbefore _ (mem_of_lookup hd) e (List.mem_append_left _ he)).ne
  · exact (pairwise_declared f n).imp fun h => h.ne

end BatchIndex

/-! ## Symbols of a batch -/

theorem symbol_cases {batch : Nat} {files : List SourceFile} {key : String} {s : Symbol}
    (h : (BatchIndex.ofFiles batch files).symbol? key = some s) :
    (∃ d, (key, d) ∈ declaredIn batch files (·.type?) ∧ s = .type (.source d)) ∨
    (∃ d, (key, d) ∈ declaredIn batch files (·.property?) ∧ s = .property d) ∨
    (∃ d, (key, d) ∈ declaredIn batch files (·.function?) ∧ s = .function d) ∨
    (∃ d, (key, d) ∈ declaredIn batch files (·.program?) ∧ s = .program d) := by
  simp only [BatchIndex.symbol?, BatchIndex.lookup_types, BatchIndex.lookup_properties,
    BatchIndex.lookup_functions, BatchIndex.lookup_programs, Option.or_eq_some_iff,
    Option.map_eq_some_iff] at h
  rcases h with ((⟨d, hd, rfl⟩ | ⟨-, d, hd, rfl⟩) | ⟨-, d, hd, rfl⟩) | ⟨-, d, hd, rfl⟩
  · exact .inl ⟨d, mem_of_lookup hd, rfl⟩
  · exact .inr (.inl ⟨d, mem_of_lookup hd, rfl⟩)
  · exact .inr (.inr (.inl ⟨d, mem_of_lookup hd, rfl⟩))
  · exact .inr (.inr (.inr ⟨d, mem_of_lookup hd, rfl⟩))

/-- The chain of a batch with what stands behind it. -/
def batchChain (batch : Nat) (files : List SourceFile) (delegates : Bool) (outer : Chain) : Chain :=
  .source (Batch.ofFiles batch files) delegates outer

end SemanticCheck
