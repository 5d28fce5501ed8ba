import Mathlib.Algebra.Ring.Nat
import SemanticCheck.Proofs.Preorder
import SemanticCheck.Proofs.Reordering
import SemanticCheck.Proofs.SourceOrder

/-!
# What goes on to code generation

A batch goes on exactly when every file of it is valid, and is reported whole otherwise. Code generation
then asks relations about their two fields without looking at how many there are: in a batch that got
so far, each has two.
-/

namespace SemanticCheck

/-! ## Relations with two fields -/

/-- Everything that is asked of a relation with two fields has an answer, except which field is the single
and which is the many one: only where there is one of each. -/
structure Relation.Answers (r : Relation) (a b : RelationField) : Prop where
  fields : r.fields = [a, b]
  first : r.first = .ok a
  second : r.second = .ok b
  kind : ∃ kind, r.kind = .ok kind ∧ (kind = .oneToMany ↔ a.cardinality ≠ b.cardinality) ∧
    (kind ≠ .oneToMany → ∀ asked, r.fieldWith asked = .error (.notOneToMany r.name kind asked))
  sides : a.cardinality ≠ b.cardinality → ∃ single many,
    r.fieldWith .single = .ok single ∧ r.fieldWith .many = .ok many ∧
    single.cardinality = .single ∧ many.cardinality = .many ∧
    (r.fields = [single, many] ∨ r.fields = [many, single])

namespace Relation

theorem ends_of_fields {r : Relation} {a b : RelationField} (h : r.fields = [a, b]) :
    r.ends = .ok (a, b) := by
  unfold ends
  rw [h]

theorem kindOf_eq_oneToMany {a b : Cardinality} : kindOf a b = .oneToMany ↔ a ≠ b := by
  cases a <;> cases b <;> decide

theorem fieldWith_of_fields {r : Relation} {a b : RelationField} (h : r.fields = [a, b])
    (asked : Cardinality) :
    r.fieldWith asked =
      if a.cardinality ≠ b.cardinality then .ok (if a.cardinality = asked then a else b)
      else .error (.notOneToMany r.name (kindOf a.cardinality b.cardinality) asked) := by
  simp only [fieldWith, ends_of_fields h, bind, Except.bind]
  cases a.cardinality <;> cases b.cardinality <;> rfl

theorem answers_of_validArity {r : Relation} (h : r.validArity = true) : ∃ a b, r.Answers a b := by
  obtain ⟨a, b, hfields⟩ := List.length_eq_two.mp (beq_iff_eq.mp h)
  have hends := ends_of_fields hfields
  refine ⟨a, b, hfields, by rw [first, hends]; rfl, by rw [second, hends]; rfl, ?_, ?_⟩
  · refine ⟨kindOf a.cardinality b.cardinality, by rw [kind, hends]; rfl, kindOf_eq_oneToMany, ?_⟩
    intro hkind asked
    rw [fieldWith_of_fields hfields, if_neg (mt kindOf_eq_oneToMany.mpr hkind)]
  · intro hne
    simp only [fieldWith_of_fields hfields, if_pos hne]
    -- The other field has the other cardinality, whichever stands first.
    cases ha : a.cardinality <;> cases hb : b.cardinality
    case single.many => exact ⟨a, b, by simp [ha, hb, hfields]⟩
    case many.single => exact ⟨b, a, by simp [ha, hb, hfields]⟩
    all_goals exact absurd (ha.trans hb.symm) hne

end Relation

theorem Site.valid_iff_nothing_recorded (site : Site) :
    site.validateFile.1 = true ↔ site.validateFile.2.entries = [] := by
  rw [validateFile_entries]
  exact site.validate_valid_iff site.file.tree {}

theorem Site.validArity_of_valid {site : Site} (h : site.validateFile.1 = true) {r : Relation}
    (hr : .relation r ∈ site.file.members) : r.validArity = true := by
  obtain ⟨n, hn⟩ := List.mem_iff_getElem?.mp hr
  -- A relation of the file is one of the nodes that were checked.
  obtain ⟨st, hst⟩ := site.passes_of_nothing_recorded (site.valid_iff_nothing_recorded.mp h)
    (SourceFile.holds_declaration hn).label
  cases harity : r.validArity with
  | true => rfl
  | false =>
    simp [Tree.label, Declaration.tree, check, checkDeclaration, checkRelation, require, harity] at hst

/-! ## The batch -/

namespace CheckedBatch

theorem errorCount_eq (b : CheckedBatch) : b.errorCount = b.allDiagnostics.length := by
  unfold errorCount allDiagnostics
  rw [List.length_flatten, List.sum_eq_foldr, List.foldr_map]

theorem isReady_iff (b : CheckedBatch) : b.isReady = true ↔ ∀ found ∈ b.diagnostics, found = [] := by
  unfold isReady
  rw [errorCount_eq, beq_iff_eq, List.length_eq_zero_iff]
  exact List.flatten_eq_nil_iff

theorem codegenInput_ok {b : CheckedBatch} {files : List SourceFile} :
    b.codegenInput = .ok files ↔ b.isReady = true ∧ files = b.files := by
  unfold codegenInput
  cases b.isReady with
  | true => simp only [if_true, Except.ok.injEq, true_and, eq_comm]
  | false => simp

theorem diagnostics_of_error {b : CheckedBatch} {error : CompileError} (h : b.codegenInput = .error error) :
    error.diagnostics = b.allDiagnostics := by
  unfold codegenInput at h
  split at h
  · cases h
  · cases h
    rfl

end CheckedBatch

namespace Compilation

theorem isReady_check (c : Compilation) :
    c.check.isReady = true ↔ ∀ site ∈ c.sites, site.validateFile.1 = true := by
  rw [CheckedBatch.isReady_iff, diagnostics_check, List.forall_mem_map]
  refine forall₂_congr fun site _ => ?_
  rw [site.validateFile.2.stablySorted.nil_iff, site.valid_iff_nothing_recorded]

/-- The sites are the files of the batch in their order, each with the chain of the whole batch. -/
theorem sites_files (c : Compilation) :
    c.sites.map (·.file) = c.files ∧ ∀ site ∈ c.sites, site.chain = c.chain := by
  constructor
  · simp [sites, Function.comp_def]
  · simp only [sites, List.mem_map]
    rintro _ ⟨_, -, rfl⟩
    rfl

theorem stablySorted_check (c : Compilation) :
    List.Forall₂ (fun site found => StablySorted site.validateFile.2.entries found) c.sites
      c.check.diagnostics := by
  rw [diagnostics_check, List.forall₂_map_right_iff, List.forall₂_same]
  exact fun site _ => site.validateFile.2.stablySorted

theorem length_of_stablySorted {sites : List Site} {shown : List (List Diagnostic)}
    (h : List.Forall₂ (fun site found => StablySorted site.validateFile.2.entries found) sites shown) :
    shown.flatten.length = (sites.map fun site => site.validateFile.2.size).sum := by
  induction h with
  | nil => rfl
  | cons hsorted _ ih => simp [ih, hsorted.perm.length_eq, Log.size]

/-- A batch goes on to code generation exactly when each file is valid; else all findings are reported. -/
theorem codegen_iff_all_valid (c : Compilation) :
    (c.sites.map (·.file) = c.files ∧ ∀ site ∈ c.sites, site.chain = c.chain) ∧
    ((∃ files, c.check.codegenInput = .ok files) ↔ ∀ site ∈ c.sites, site.validateFile.1 = true) ∧
    (∀ files, c.check.codegenInput = .ok files → files = c.files ∧
      ∀ f ∈ files, ∀ r, .relation r ∈ f.members → r.validArity = true ∧ ∃ a b, r.Answers a b) ∧
    (∀ error, c.check.codegenInput = .error error →
      (∃ shown : List (List Diagnostic), error.diagnostics = shown.flatten ∧
        List.Forall₂ (fun site found => StablySorted site.validateFile.2.entries found) c.sites shown) ∧
      error.count = (c.sites.map fun site => site.validateFile.2.size).sum) := by
  refine ⟨c.sites_files, ?_, ?_, ?_⟩
  · simp only [CheckedBatch.codegenInput_ok, exists_and_left, exists_eq, and_true, isReady_check]
  · intro files hok
    obtain ⟨hready, rfl⟩ := CheckedBatch.codegenInput_ok.mp hok
    refine ⟨rfl, ?_⟩
    intro f hf r hr
    have hfile : f ∈ c.sites.map (·.file) := by
      rw [c.sites_files.1]
      exact hf
    obtain ⟨site, hsite, rfl⟩ := List.mem_map.mp hfile
    have harity := Site.validArity_of_valid (c.isReady_check.mp hready site hsite) hr
    exact ⟨harity, Relation.answers_of_validArity harity⟩
  · intro error herror
    have hshown := CheckedBatch.diagnostics_of_error herror
    refine ⟨⟨c.check.diagnostics, hshown, c.stablySorted_check⟩, ?_⟩
    rw [CompileError.count, hshown]
    exact length_of_stablySorted c.stablySorted_check

/-- The many side is declared first. -/
def mentoring : Relation :=
  ⟨"mentoring", [⟨"pupils", .reference "Student" none, .many, none⟩,
    ⟨"mentor", .reference "Student" none, .single, none⟩], none⟩

def schoolFile : SourceFile where
  namespaceName := ⟨["school"], by decide, by decide⟩
  imports := []
  members := [.type ⟨"Student", [], none⟩, .relation mentoring]
  pos := none

/-- A relation with one field, whose type nobody declares. -/
def leagueFile : SourceFile where
  namespaceName := ⟨["league"], by decide, by decide⟩
  imports := []
  members := [.relation ⟨"rivals", [⟨"home", .reference "Team" none, .single, none⟩], none⟩]
  pos := none

theorem school_ready_league_not :
    let school : Compilation := ⟨{}, [schoolFile], .emptyHost⟩
    let both : Compilation := ⟨{ parallel := true }, [schoolFile, leagueFile], .emptyHost⟩
    (∃ files, school.check.codegenInput = .ok files) ∧ (∃ a b, mentoring.Answers a b) ∧
      ∃ error, both.check.codegenInput = .error error ∧ error.count = 2 := by
  intro school both
  have hready : ∃ files, school.check.codegenInput = .ok files :=
    (codegen_iff_all_valid school).2.1.mpr (by decide +kernel)
  refine ⟨hready, ?_, ?_⟩
  · obtain ⟨files, hfiles⟩ := hready
    obtain ⟨rfl, hrelations⟩ := (codegen_iff_all_valid school).2.2.1 files hfiles
    exact (hrelations schoolFile (by simp [school]) mentoring (by simp [schoolFile])).2
  · cases hinput : both.check.codegenInput with
    | ok files =>
      have hvalid := (codegen_iff_all_valid both).2.1.mp ⟨files, hinput⟩
      exact absurd hvalid (by decide +kernel)
    | error error =>
      refine ⟨error, rfl, ?_⟩
      rw [((codegen_iff_all_valid both).2.2.2 error hinput).2]
      decide +kernel

end Compilation

end SemanticCheck
