import Mathlib.Data.List.Basic
import SemanticCheck.Lookup.Scope

/-!
# Candidates for types and for values

Types and values are looked up in different tables and by different candidates. A declaration of another
kind may hide a type from a value lookup, and the import of a field counts for values only. Still, what
stands for a type stands for something, and a type that a value lookup finds is the one that a type
lookup finds.
-/

namespace SemanticCheck

/-! ## Types among the values -/

namespace BatchIndex

variable {index : BatchIndex} {key : String}

theorem type_of_symbol {t : TypeDef} (h : index.symbol? key = some (.type t)) :
    ∃ d, index.types.lookup key = some d ∧ t = .source d := by
  simp only [symbol?, Option.or_eq_some_iff, Option.map_eq_some_iff] at h
  rcases h with ((⟨d, hd, heq⟩ | ⟨-, d, -, heq⟩) | ⟨-, d, -, heq⟩) | ⟨-, d, -, heq⟩
  · exact ⟨d, hd, (Symbol.type.inj heq).symm⟩
  all_goals cases heq

theorem symbol_of_type {d : Declared TypeDefinition} (h : index.types.lookup key = some d) :
    index.symbol? key = some (.type (.source d)) := by
  simp [symbol?, h]

end BatchIndex

namespace Chain

variable {chain : Chain} {key : String} {t : TypeDef}

theorem type_of_symbol (h : chain.symbol? key = some (.type t)) : chain.type? key = some t := by
  induction chain with
  | nothing | emptyHost => cases h
  | host host =>
    simp only [symbol?] at h
    split at h
    · rename_i c hc
      simp only [type?, hc]
      exact congrArg some (Symbol.type.inj (Option.some.inj h))
    · split at h
      · cases h
      · obtain ⟨m, -, heq⟩ := Option.map_eq_some_iff.mp h
        cases heq
  | source batch delegates outer ih =>
    simp only [symbol?] at h
    split at h
    · rename_i symbol hsymbol
      obtain rfl := Option.some.inj h
      obtain ⟨d, hd, rfl⟩ := BatchIndex.type_of_symbol hsymbol
      simp [type?, hd]
    · rename_i hnone
      have htypes : batch.index.types.lookup key = none := by
        cases hd : batch.index.types.lookup key with
        | none => rfl
        | some d => simp [BatchIndex.symbol_of_type hd] at hnone
      simp only [type?, htypes]
      exact ih h

theorem symbol_of_type (h : chain.type? key = some t) : ∃ symbol, chain.symbol? key = some symbol := by
  induction chain with
  | nothing | emptyHost => cases h
  | host host =>
    obtain ⟨c, hc, -⟩ := Option.map_eq_some_iff.mp h
    exact ⟨.type (.host c), by simp [symbol?, hc]⟩
  | source batch delegates outer ih =>
    simp only [type?] at h
    simp only [symbol?]
    -- A declaration of another kind may hide the type of an outer link.
    split
    · exact ⟨_, rfl⟩
    · rename_i hnone
      split at h
      · rename_i d hd
        simp [BatchIndex.symbol_of_type hd] at hnone
      · exact ih h

theorem type_eq_none_of_symbol (h : chain.symbol? key = none) : chain.type? key = none := by
  cases htype : chain.type? key with
  | none => rfl
  | some t =>
    obtain ⟨symbol, hsymbol⟩ := symbol_of_type htype
    rw [h] at hsymbol
    cases hsymbol

/-- The first candidate that stands for anything stands for the same type in both lookups. -/
theorem findSome_type_of_symbol {candidates : List String}
    (h : candidates.findSome? chain.symbol? = some (.type t)) :
    candidates.findSome? chain.type? = some t := by
  induction candidates with
  | nil => cases h
  | cons candidate rest ih =>
    rw [List.findSome?_cons] at h ⊢
    cases hsymbol : chain.symbol? candidate with
    | none =>
      rw [hsymbol] at h
      rw [type_eq_none_of_symbol hsymbol]
      exact ih h
    | some symbol =>
      rw [hsymbol] at h
      obtain rfl := Option.some.inj h
      rw [type_of_symbol hsymbol]

end Chain

/-! ## Candidates -/

theorem filterMap_of_filter {α β : Type} {p : α → Bool} {g : α → Option β}
    (h : ∀ a, p a = false → g a = none) (l : List α) : (l.filter p).filterMap g = l.filterMap g := by
  rw [List.filterMap_filter]
  refine List.filterMap_congr fun a _ => ?_
  cases hp : p a with
  | true => rfl
  | false => simp [h a hp]

theorem mem_firstOccurrences {x : String} {l : List String} : x ∈ firstOccurrences l ↔ x ∈ l := by
  induction l with
  | nil => rfl
  | cons y rest ih =>
    simp only [firstOccurrences, List.mem_cons, List.mem_filter, ih, bne_iff_ne]
    by_cases hx : x = y <;> simp [hx]

theorem SourceFile.name_mem_candidates (f : SourceFile) (name : String) (typesOnly : Bool) :
    name ∈ f.candidates name typesOnly := by
  simp [candidates, mem_firstOccurrences]

/-- The import makes a field visible under the name. -/
def Import.NamesField (i : Import) (name : String) : Prop :=
  i.localName? = some name ∧ ∃ type field localAlias, i.target = .field type field localAlias

theorem Import.explicitTarget_mono {i : Import} {name key : String}
    (h : i.explicitTarget? name true = some key) : i.explicitTarget? name false = some key := by
  obtain ⟨package, target, pos⟩ := i
  cases target with
  | type type localAlias => exact h
  | field type field localAlias => simp [explicitTarget?] at h
  | all => exact h

theorem Import.explicitTarget_of_no_field {i : Import} {name : String} (h : ¬ i.NamesField name) :
    i.explicitTarget? name false = i.explicitTarget? name true := by
  obtain ⟨package, target, pos⟩ := i
  cases target with
  | type type localAlias => rfl
  | field type field localAlias =>
    have hname : (Import.mk package (.field type field localAlias) pos).localName? ≠ some name :=
      fun hname => h ⟨hname, type, field, localAlias, rfl⟩
    simp [explicitTarget?, hname]
  | all => rfl

namespace SourceFile

theorem candidates_subset (f : SourceFile) (name : String) :
    f.candidates name true ⊆ f.candidates name false := by
  intro key hkey
  simp only [candidates, mem_firstOccurrences, List.mem_append, List.mem_filterMap] at hkey ⊢
  rcases hkey with (((hkey | ⟨i, hi, hkey⟩) | hkey) | hkey) | hkey
  · exact .inl (.inl (.inl (.inl hkey)))
  · exact .inl (.inl (.inl (.inr ⟨i, hi, Import.explicitTarget_mono hkey⟩)))
  · exact .inl (.inl (.inr hkey))
  · exact .inl (.inr hkey)
  · exact .inr hkey

theorem candidates_of_no_field {f : SourceFile} {name : String}
    (h : ∀ i ∈ f.imports, ¬ i.NamesField name) : f.candidates name false = f.candidates name true := by
  have himports : f.imports.filterMap (·.explicitTarget? name false)
      = f.imports.filterMap (·.explicitTarget? name true) :=
    List.filterMap_congr fun i hi => Import.explicitTarget_of_no_field (h i hi)
  simp only [candidates, himports]

end SourceFile

/-- A type that a value lookup finds is what a type lookup finds, unless a field is imported under it. -/
theorem Scope.types_among_values (s : Scope) (name : String) :
    (∀ t, s.chain.symbol? name = some (.type t) → s.chain.type? name = some t) ∧
    (∀ t, s.chain.type? name = some t → ∃ symbol, s.chain.symbol? name = some symbol) ∧
    (∀ t, s.type? name = some t → ∃ symbol, s.value? name = some symbol) ∧
    ((∀ i ∈ s.file.imports, ¬ i.NamesField name) →
      ∀ t, s.value? name = some (.type t) → s.type? name = some t) := by
  refine ⟨fun t => Chain.type_of_symbol, fun t => Chain.symbol_of_type, ?_, ?_⟩
  · intro t ht
    obtain ⟨key, hkey, htype⟩ := List.exists_of_findSome?_eq_some ht
    obtain ⟨symbol, hsymbol⟩ := Chain.symbol_of_type htype
    have hfound : (s.value? name).isSome :=
      List.findSome?_isSome_iff.mpr ⟨key, s.file.candidates_subset name hkey, by simp [hsymbol]⟩
    exact Option.isSome_iff_exists.mp hfound
  · intro hfield t ht
    rw [value?, SourceFile.candidates_of_no_field hfield] at ht
    exact Chain.findSome_type_of_symbol ht

/-- Declares a type under one name. -/
def planeFile : SourceFile where
  namespaceName := ⟨["plane"], by decide, by decide⟩
  imports := []
  members := [.type ⟨"Point", [], none⟩]
  pos := none

/-- Uses the type under another name, and a field of some class. -/
def sketchFile : SourceFile where
  namespaceName := ⟨["sketch"], by decide, by decide⟩
  imports :=
    [⟨⟨["plane"], by decide, by decide⟩, .type "Point" (some "Dot"), none⟩,
      ⟨⟨["constants"], by decide, by decide⟩, .field "Circle" "PI" none, none⟩]
  members := []
  pos := none

def sketchScope : Scope where
  chain := .source (Batch.ofFiles 0 [sketchFile]) false (.source (Batch.ofFiles 1 [planeFile]) false .nothing)
  file := sketchFile

theorem Scope.dot_among_values :
    (∀ i ∈ sketchScope.file.imports, ¬ i.NamesField "Dot") ∧
      ∃ t, sketchScope.value? "Dot" = some (.type t) ∧ sketchScope.type? "Dot" = some t := by
  have hfield : ∀ i ∈ sketchScope.file.imports, ¬ i.NamesField "Dot" := by
    simp [sketchScope, sketchFile, Import.NamesField, Import.localName?]
  refine ⟨hfield, .source ⟨planeFile, ⟨1, 0, 0⟩, ⟨"Point", [], none⟩⟩, rfl, ?_⟩
  exact (sketchScope.types_among_values "Dot").2.2.2 hfield _ rfl

end SemanticCheck
