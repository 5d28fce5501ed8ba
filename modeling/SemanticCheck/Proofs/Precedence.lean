import Mathlib.Data.List.Induction
import SemanticCheck.Proofs.Registration

/-!
# Precedence among declarations

The declarations of a batch that can be found by name stand in one order: by kind, then by file, then by
member. A lookup finds the first one with its key in that order, and registration refuses those that
come after another one of their own kind.
-/

namespace SemanticCheck

/-! ## Named members -/

def Member.kind? : Member → Option DeclarationKind
  | type _ => some .type
  | property _ => some .property
  | function _ => some .function
  | program _ => some .program
  | relation _ => none

/-- A member that can be found by its name: any but a relation. -/
structure NamedMember where
  member : Member
  kind : DeclarationKind
  kind_eq : member.kind? = some kind

namespace NamedMember

def ofType (t : TypeDefinition) : NamedMember := ⟨.type t, .type, rfl⟩

def ofProperty (p : Property) : NamedMember := ⟨.property p, .property, rfl⟩

def ofFunction (r : Routine) : NamedMember := ⟨.function r, .function, rfl⟩

def ofProgram (p : Program) : NamedMember := ⟨.program p, .program, rfl⟩

end NamedMember

def Member.named? : Member → Option NamedMember
  | type t => some (.ofType t)
  | property p => some (.ofProperty p)
  | function r => some (.ofFunction r)
  | program p => some (.ofProgram p)
  | relation _ => none

def Member.ofKind? (kind : DeclarationKind) (m : Member) : Option NamedMember :=
  m.named?.filter (·.kind == kind)

theorem Member.named_eq_some {m : Member} {item : NamedMember} (h : m.named? = some item) :
    item.member = m := by
  cases m <;> cases h <;> rfl

/-- Everything in a batch that can be found by its name. -/
def namedIn (batch : Nat) (files : List SourceFile) : List (String × Declared NamedMember) :=
  declaredIn batch files (·.named?)

theorem mem_ofKind {batch : Nat} {files : List SourceFile} {kind : DeclarationKind} {key : String}
    {d : Declared NamedMember} :
    (key, d) ∈ declaredIn batch files (·.ofKind? kind) ↔
      (key, d) ∈ namedIn batch files ∧ d.item.kind = kind := by
  simp only [namedIn, mem_declaredIn, Member.ofKind?, Option.filter_eq_some_iff, beq_iff_eq]
  constructor
  · rintro ⟨hf, hbatch, m, hm, ⟨hitem, hkind⟩, hkey⟩
    exact ⟨⟨hf, hbatch, m, hm, hitem, hkey⟩, hkind⟩
  · rintro ⟨⟨hf, hbatch, m, hm, hitem, hkey⟩, hkind⟩
    exact ⟨hf, hbatch, m, hm, ⟨hitem, hkind⟩, hkey⟩

/-! ## The tables in terms of named members -/

def Declared.map {α β : Type} (g : α → β) (d : Declared α) : Declared β := ⟨d.file, d.place, g d.item⟩

section Image

variable {α : Type} {pick : Member → Option α} {wrap : α → NamedMember} {kind : DeclarationKind}

theorem declared_ofKind (h : ∀ m, m.ofKind? kind = (pick m).map wrap) (f : SourceFile)
    (batch n : Nat) :
    f.declared batch n (·.ofKind? kind)
      = (f.declared batch n pick).map (Prod.map id (Declared.map wrap)) := by
  unfold SourceFile.declared
  rw [List.map_filterMap]
  congr
  funext d
  simp only [h]
  cases pick d.member <;> rfl

theorem declaredIn_ofKind (h : ∀ m, m.ofKind? kind = (pick m).map wrap) (batch : Nat)
    (files : List SourceFile) :
    declaredIn batch files (·.ofKind? kind)
      = (declaredIn batch files pick).map (Prod.map id (Declared.map wrap)) := by
  unfold declaredIn
  rw [List.map_flatMap]
  congr
  funext file
  exact declared_ofKind h file.1 batch file.2

end Image

theorem lookup_map {α β : Type} (g : α → β) (l : List (String × α)) (key : String) :
    (l.map (Prod.map id g)).lookup key = (l.lookup key).map g := by
  induction l with
  | nil => rfl
  | cons entry rest ih =>
    obtain ⟨name, a⟩ := entry
    simp only [List.map_cons, Prod.map_apply, id_eq, List.lookup_cons, ih]
    cases key == name <;> rfl

theorem isLater_map {α β : Type} (g : α → β) (l : List (String × Declared α))
    (e : String × Declared α) :
    isLater (l.map (Prod.map id (Declared.map g))) (Prod.map id (Declared.map g) e) = isLater l e := by
  simp only [isLater, List.any_map]
  rfl

theorem Member.ofKind_type (m : Member) : m.ofKind? .type = m.type?.map .ofType := by
  cases m <;> rfl

theorem Member.ofKind_property (m : Member) : m.ofKind? .property = m.property?.map .ofProperty := by
  cases m <;> rfl

theorem Member.ofKind_function (m : Member) : m.ofKind? .function = m.function?.map .ofFunction := by
  cases m <;> rfl

theorem Member.ofKind_program (m : Member) : m.ofKind? .program = m.program?.map .ofProgram := by
  cases m <;> rfl

/-! ## The order of ownership -/

namespace DeclarationKind

/-- The kinds in the order a lookup goes through them. -/
def all : List DeclarationKind := [type, property, function, program]

def rank : DeclarationKind → Nat
  | type => 0
  | property => 1
  | function => 2
  | program => 3

theorem mem_all (kind : DeclarationKind) : kind ∈ all := by
  cases kind <;> decide

theorem pairwise_all : all.Pairwise fun a b => a.rank < b.rank := by decide

end DeclarationKind

/-- Of a kind that comes first, or of the same kind and earlier in the batch. -/
def Declared.Precedes (d d' : Declared NamedMember) : Prop :=
  d.item.kind.rank < d'.item.kind.rank ∨ d.item.kind = d'.item.kind ∧ d.place.Before d'.place

theorem Declared.Precedes.ne {d d' : Declared NamedMember} (h : d.Precedes d') : d ≠ d' := by
  rintro rfl
  rcases h with hrank | ⟨-, hbefore⟩
  · omega
  · exact hbefore.ne rfl

theorem Declared.Precedes.trans {d₁ d₂ d₃ : Declared NamedMember} (h : d₁.Precedes d₂)
    (h' : d₂.Precedes d₃) : d₁.Precedes d₃ := by
  rcases h with hrank | ⟨hkind, hbefore⟩
  · rcases h' with hrank' | ⟨hkind', -⟩
    · exact .inl (by omega)
    · exact .inl (hkind' ▸ hrank)
  · rcases h' with hrank' | ⟨hkind', hbefore'⟩
    · exact .inl (hkind ▸ hrank')
    · exact .inr ⟨hkind.trans hkind', hbefore.trans hbefore'⟩

/-- Everything that can be found by its name, in the order of ownership. -/
def ranked (batch : Nat) (files : List SourceFile) : List (String × Declared NamedMember) :=
  DeclarationKind.all.flatMap fun kind => declaredIn batch files (·.ofKind? kind)

section Ranked

variable {batch : Nat} {files : List SourceFile} {key : String} {d : Declared NamedMember}

theorem mem_ranked : (key, d) ∈ ranked batch files ↔ (key, d) ∈ namedIn batch files := by
  simp only [ranked, List.mem_flatMap, mem_ofKind]
  constructor
  · rintro ⟨kind, -, hd, -⟩
    exact hd
  · intro hd
    exact ⟨d.item.kind, DeclarationKind.mem_all _, hd, rfl⟩

variable (batch files) in
theorem pairwise_ranked : (ranked batch files).Pairwise fun a b => a.2.Precedes b.2 := by
  unfold ranked
  rw [List.pairwise_flatMap]
  constructor
  · intro kind _
    refine (pairwise_declaredIn batch files _).imp_of_mem fun {a b} ha hb hbefore => ?_
    exact .inr ⟨(mem_ofKind.mp ha).2.trans (mem_ofKind.mp hb).2.symm, hbefore⟩
  · refine DeclarationKind.pairwise_all.imp fun {kind kind'} hrank a ha b hb => .inl ?_
    rw [(mem_ofKind.mp ha).2, (mem_ofKind.mp hb).2]
    exact hrank

end Ranked

/-! ## What a lookup finds -/

/-- What a name stands for that belongs to the declaration. -/
def Declared.symbol : Declared NamedMember → Symbol
  | ⟨file, place, .type t, _, _⟩ => .type (.source ⟨file, place, t⟩)
  | ⟨file, place, .property p, _, _⟩ => .property ⟨file, place, p⟩
  | ⟨file, place, .function r, _, _⟩ => .function ⟨file, place, r⟩
  | ⟨file, place, .program p, _, _⟩ => .program ⟨file, place, p⟩
  | ⟨_, _, .relation _, _, h⟩ => nomatch h

theorem Declared.place_symbol (d : Declared NamedMember) : d.symbol.place? = some d.place := by
  obtain ⟨file, place, member, kind, hkind⟩ := d
  cases member with
  | relation => cases hkind
  | _ => rfl

theorem lookup_ofKind {α : Type} {pick : Member → Option α} {wrap : α → NamedMember}
    {kind : DeclarationKind} {symbol : Declared α → Symbol}
    (hpick : ∀ m, m.ofKind? kind = (pick m).map wrap)
    (hsymbol : ∀ d, (Declared.map wrap d).symbol = symbol d)
    (batch : Nat) (files : List SourceFile) (key : String) :
    ((declaredIn batch files (·.ofKind? kind)).lookup key).map Declared.symbol
      = ((declaredIn batch files pick).lookup key).map symbol := by
  rw [declaredIn_ofKind hpick, lookup_map, Option.map_map]
  congr 1
  funext d
  exact hsymbol d

theorem symbol_eq_ranked (batch : Nat) (files : List SourceFile) (key : String) :
    (BatchIndex.ofFiles batch files).symbol? key
      = ((ranked batch files).lookup key).map Declared.symbol := by
  have htypes := lookup_ofKind Member.ofKind_type (fun _ => rfl) batch files key
  have hproperties := lookup_ofKind Member.ofKind_property (fun _ => rfl) batch files key
  have hfunctions := lookup_ofKind Member.ofKind_function (fun _ => rfl) batch files key
  have hprograms := lookup_ofKind Member.ofKind_program (fun _ => rfl) batch files key
  simp only [BatchIndex.symbol?, BatchIndex.lookup_types, BatchIndex.lookup_properties,
    BatchIndex.lookup_functions, BatchIndex.lookup_programs, ranked, DeclarationKind.all,
    List.flatMap_cons, List.flatMap_nil, List.lookup_append, Option.map_or, List.lookup_nil]
  rw [htypes, hproperties, hfunctions, hprograms]
  simp only [Option.or_assoc, Option.map_none, Option.or_none]
  rfl

/-! ## What registration refuses -/

/-- What the file declares under a key that an earlier declaration of the same kind has. -/
def SourceFile.refused (f : SourceFile) (batch n : Nat) (files : List SourceFile) :
    List (String × Declared NamedMember) :=
  DeclarationKind.all.flatMap fun kind =>
    (f.declared batch n (·.ofKind? kind)).filter (isLater (declaredIn batch files (·.ofKind? kind)))

/-- The declarations that a batch refuses, in the order they are registered. -/
def refusedIn (batch : Nat) (files : List SourceFile) : List (String × Declared NamedMember) :=
  files.zipIdx.flatMap fun (f, n) => f.refused batch n files

theorem mem_refusedIn {batch : Nat} {files : List SourceFile} {key : String}
    {d : Declared NamedMember} :
    (key, d) ∈ refusedIn batch files ↔
      (key, d) ∈ namedIn batch files ∧
        ∃ d', (key, d') ∈ namedIn batch files ∧ d'.item.kind = d.item.kind ∧
          d'.place.Before d.place := by
  have hfiles : (key, d) ∈ refusedIn batch files ↔
      ∃ kind, (key, d) ∈ declaredIn batch files (·.ofKind? kind) ∧
        isLater (declaredIn batch files (·.ofKind? kind)) (key, d) = true := by
    simp only [refusedIn, SourceFile.refused, declaredIn, List.mem_flatMap, List.mem_filter]
    constructor
    · rintro ⟨file, hfile, kind, -, hd, hlater⟩
      exact ⟨kind, ⟨file, hfile, hd⟩, hlater⟩
    · rintro ⟨kind, ⟨file, hfile, hd⟩, hlater⟩
      exact ⟨file, hfile, kind, kind.mem_all, hd, hlater⟩
  simp only [hfiles, isLater_iff, mem_ofKind]
  constructor
  · rintro ⟨kind, ⟨hd, rfl⟩, d', ⟨hd', hkind⟩, hbefore⟩
    exact ⟨hd, d', hd', hkind, hbefore⟩
  · rintro ⟨hd, d', hd', hkind, hbefore⟩
    exact ⟨d.item.kind, ⟨hd, rfl⟩, d', ⟨hd', hkind⟩, hbefore⟩

def asDuplicate (e : String × Declared NamedMember) : Duplicate :=
  ⟨e.2.item.kind, e.1, e.2.item.member.pos⟩

namespace BatchIndex

theorem Fills.refused_of_kind {α : Type} {batch : Nat} {pick : Member → Option α}
    {table : BatchIndex → Table α} (h : Fills batch pick table) {wrap : α → NamedMember}
    {kind : DeclarationKind} (hpick : ∀ m, m.ofKind? kind = (pick m).map wrap)
    {files : List SourceFile} {done rest : List (SourceFile × Nat)} {f : SourceFile} {n : Nat}
    (hfiles : files.zipIdx = done ++ (f, n) :: rest) :
    ((f.declared batch n (·.ofKind? kind)).filter
        (isLater (declaredIn batch files (·.ofKind? kind)))).map asDuplicate
      = (Table.register (table (after batch done)) (f.declared batch n pick)).2.map
          (asDuplicate ∘ Prod.map id (Declared.map wrap)) := by
  have hlater : isLater ((declaredIn batch files pick).map (Prod.map id (Declared.map wrap)))
      ∘ Prod.map id (Declared.map wrap) = isLater (declaredIn batch files pick) :=
    funext fun e => isLater_map wrap _ e
  rw [h.refused_of_file hfiles, declared_ofKind hpick, declaredIn_ofKind hpick, List.filter_map,
    List.map_map, hlater]

theorem duplicates_after {batch : Nat} {files : List SourceFile} (done rest : List (SourceFile × Nat))
    (hfiles : files.zipIdx = done ++ rest) :
    (after batch done).duplicates
      = (done.flatMap fun (f, n) => f.refused batch n files).map asDuplicate := by
  -- From the right: the last file meets the tables of all the files before it.
  induction done using List.reverseRecOn generalizing rest with
  | nil => rfl
  | append_singleton done file ih =>
    obtain ⟨f, n⟩ := file
    have hnext : files.zipIdx = done ++ (f, n) :: rest := by simpa using hfiles
    have htypes := (fills_types batch).refused_of_kind Member.ofKind_type hnext
    have hproperties := (fills_properties batch).refused_of_kind Member.ofKind_property hnext
    have hfunctions := (fills_functions batch).refused_of_kind Member.ofKind_function hnext
    have hprograms := (fills_programs batch).refused_of_kind Member.ofKind_program hnext
    rw [after_append, List.flatMap_append, List.map_append, ← ih _ hnext]
    simp only [List.flatMap_cons, List.flatMap_nil, SourceFile.refused, DeclarationKind.all,
      List.map_append, htypes, hproperties, hfunctions, hprograms, addFile, List.append_assoc,
      List.append_nil]
    rfl

theorem duplicates_ofFiles (batch : Nat) (files : List SourceFile) :
    (ofFiles batch files).duplicates = (refusedIn batch files).map asDuplicate :=
  duplicates_after files.zipIdx [] (by simp)

end BatchIndex

end SemanticCheck
