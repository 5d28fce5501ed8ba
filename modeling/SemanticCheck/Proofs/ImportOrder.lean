import SemanticCheck.Proofs.Candidates

/-!
# Imports that make no difference

The candidates for a name are the keys near to the file and behind them those of whole packages, each key
once. An explicit import counts for its own name only, and only the order among explicit imports and the
order among those of whole packages count. The import of a package comes too late for a name that is
found nearer, and a dotted name that is known as written is what it says in every file.
-/

namespace SemanticCheck

/-! ## First occurrences -/

theorem nodup_firstOccurrences (l : List String) : (firstOccurrences l).Nodup := by
  induction l with
  | nil => exact List.nodup_nil
  | cons x rest ih =>
    have hx : x ∉ (firstOccurrences rest).filter (· != x) := by simp
    exact List.nodup_cons.mpr ⟨hx, ih.filter _⟩

section FindSome

variable {β : Type} {find : String → Option β}

theorem findSome_filter_ne {x : String} (hx : find x = none) (l : List String) :
    (l.filter (· != x)).findSome? find = l.findSome? find := by
  induction l with
  | nil => rfl
  | cons y rest ih =>
    by_cases hy : y = x
    · simp [hy, hx, ih]
    · simp [hy, List.findSome?_cons, ih]

/-- A lookup never gets to the later copies of a key. -/
theorem findSome_firstOccurrences (l : List String) :
    (firstOccurrences l).findSome? find = l.findSome? find := by
  induction l with
  | nil => rfl
  | cons x rest ih =>
    rw [firstOccurrences, List.findSome?_cons, List.findSome?_cons]
    cases hx : find x with
    | some b => rfl
    | none => rw [findSome_filter_ne hx, ih]

end FindSome

/-! ## Near and far keys -/

def Import.isWildcard (i : Import) : Bool :=
  match i.target with
  | .all => true
  | _ => false

namespace SourceFile

def withImports (f : SourceFile) (imports : List Import) : SourceFile := { f with imports }

/-- The keys of a name in its dotted form, by explicit imports, in the file's namespace and bare. -/
def nearKeys (f : SourceFile) (name : String) (typesOnly : Bool) : List String :=
  (if hasDot name then [name] else [])
    ++ f.imports.filterMap (·.explicitTarget? name typesOnly)
    ++ [qualify f.context name, name]

/-- The keys of a name in imported packages and in the implicit one. -/
def farKeys (f : SourceFile) (name : String) : List String :=
  f.imports.filterMap (·.wildcardTarget? name) ++ [qualify Host.implicitPackage name]

theorem candidates_eq (f : SourceFile) (name : String) (typesOnly : Bool) :
    f.candidates name typesOnly = firstOccurrences (f.nearKeys name typesOnly ++ f.farKeys name) := by
  simp only [candidates, nearKeys, farKeys, List.append_assoc]

theorem findSome_candidates {β : Type} (find : String → Option β) (f : SourceFile) (name : String)
    (typesOnly : Bool) :
    (f.candidates name typesOnly).findSome? find
      = ((f.nearKeys name typesOnly).findSome? find).or ((f.farKeys name).findSome? find) := by
  rw [candidates_eq, findSome_firstOccurrences, List.findSome?_append]

end SourceFile

/-! ## Other imports -/

section Imports

variable {i : Import} {name : String}

theorem Import.explicitTarget_of_wildcard (h : i.isWildcard = true) (typesOnly : Bool) :
    i.explicitTarget? name typesOnly = none := by
  obtain ⟨package, target, pos⟩ := i
  cases target with
  | all => rfl
  | _ => cases h

theorem Import.explicitTarget_of_localName (h : i.localName? ≠ some name) (typesOnly : Bool) :
    i.explicitTarget? name typesOnly = none := by
  simp [Import.explicitTarget?, h]

theorem Import.wildcardTarget_of_explicit (h : i.isWildcard = false) :
    i.wildcardTarget? name = none := by
  obtain ⟨package, target, pos⟩ := i
  cases target with
  | all => cases h
  | _ => rfl

end Imports

namespace SourceFile

variable {f : SourceFile} {name : String} {imports before after : List Import}

theorem nearKeys_congr (h : imports.filter (!·.isWildcard) = f.imports.filter (!·.isWildcard))
    (typesOnly : Bool) :
    (f.withImports imports).nearKeys name typesOnly = f.nearKeys name typesOnly := by
  have hexplicit : ∀ i : Import, (!i.isWildcard) = false → i.explicitTarget? name typesOnly = none := by
    intro i hi
    exact Import.explicitTarget_of_wildcard (by simpa using hi) typesOnly
  unfold nearKeys withImports
  rw [← filterMap_of_filter hexplicit, ← filterMap_of_filter hexplicit f.imports, h]
  rfl

theorem farKeys_congr (h : imports.filter (·.isWildcard) = f.imports.filter (·.isWildcard)) :
    (f.withImports imports).farKeys name = f.farKeys name := by
  have hwildcard : ∀ i : Import, i.isWildcard = false → i.wildcardTarget? name = none :=
    fun _ hi => Import.wildcardTarget_of_explicit hi
  unfold farKeys withImports
  rw [← filterMap_of_filter hwildcard, ← filterMap_of_filter hwildcard f.imports, h]

theorem candidates_of_reordered (hexplicit : imports.filter (!·.isWildcard) = f.imports.filter (!·.isWildcard))
    (hwildcard : imports.filter (·.isWildcard) = f.imports.filter (·.isWildcard)) (typesOnly : Bool) :
    (f.withImports imports).candidates name typesOnly = f.candidates name typesOnly := by
  rw [candidates_eq, candidates_eq, nearKeys_congr hexplicit, farKeys_congr hwildcard]

theorem candidates_of_inserted (himports : f.imports = before ++ after) {i : Import}
    (hexplicit : i.isWildcard = false) (hname : i.localName? ≠ some name) (typesOnly : Bool) :
    (f.withImports (before ++ i :: after)).candidates name typesOnly = f.candidates name typesOnly := by
  have htarget := Import.explicitTarget_of_localName hname typesOnly
  have hpackage : i.wildcardTarget? name = none := Import.wildcardTarget_of_explicit hexplicit
  have hnear : (before ++ i :: after).filterMap (·.explicitTarget? name typesOnly)
      = f.imports.filterMap (·.explicitTarget? name typesOnly) := by
    simp [himports, htarget]
  have hfar : (before ++ i :: after).filterMap (·.wildcardTarget? name)
      = f.imports.filterMap (·.wildcardTarget? name) := by
    simp [himports, hpackage]
  simp only [candidates, withImports, hnear, hfar]
  rfl

/-- A name that is found near keeps its meaning when a whole package is imported. -/
theorem findSome_of_wildcard {β : Type} (find : String → Option β) (himports : f.imports = before ++ after)
    {i : Import} (hwildcard : i.isWildcard = true) (typesOnly : Bool)
    (hnear : ∃ key ∈ f.nearKeys name typesOnly, (find key).isSome = true) :
    ((f.withImports (before ++ i :: after)).candidates name typesOnly).findSome? find
      = (f.candidates name typesOnly).findSome? find := by
  have hexplicit : (before ++ i :: after).filter (!·.isWildcard) = f.imports.filter (!·.isWildcard) := by
    simp [himports, hwildcard]
  obtain ⟨found, hfound⟩ := Option.isSome_iff_exists.mp (List.findSome?_isSome_iff.mpr hnear)
  rw [findSome_candidates, findSome_candidates, nearKeys_congr hexplicit, hfound]
  rfl

theorem findSome_of_dotted {β : Type} {find : String → Option β} {found : β} (hdot : hasDot name = true)
    (hfind : find name = some found) (f : SourceFile) (typesOnly : Bool) :
    (f.candidates name typesOnly).findSome? find = some found := by
  rw [findSome_candidates, nearKeys, if_pos hdot]
  simp [hfind]

end SourceFile

/-- Imports of other names, and the order between the two kinds of imports, make no difference to a lookup. -/
theorem Scope.imports_without_effect (chain : Chain) (f : SourceFile) (name : String) :
    (∀ typesOnly, (f.candidates name typesOnly).Nodup) ∧
    (∀ before after i typesOnly, f.imports = before ++ after → i.isWildcard = false →
      i.localName? ≠ some name →
      (f.withImports (before ++ i :: after)).candidates name typesOnly = f.candidates name typesOnly) ∧
    (∀ imports typesOnly, imports.filter (!·.isWildcard) = f.imports.filter (!·.isWildcard) →
      imports.filter (·.isWildcard) = f.imports.filter (·.isWildcard) →
      (f.withImports imports).candidates name typesOnly = f.candidates name typesOnly) ∧
    (∀ before after i, f.imports = before ++ after → i.isWildcard = true →
      ((∃ key ∈ f.nearKeys name true, (chain.type? key).isSome = true) →
        (Scope.mk chain (f.withImports (before ++ i :: after))).type? name
          = (Scope.mk chain f).type? name) ∧
      ((∃ key ∈ f.nearKeys name false, (chain.symbol? key).isSome = true) →
        (Scope.mk chain (f.withImports (before ++ i :: after))).value? name
          = (Scope.mk chain f).value? name)) ∧
    (hasDot name = true →
      (∀ t, chain.type? name = some t → (Scope.mk chain f).type? name = some t) ∧
      ∀ symbol, chain.symbol? name = some symbol → (Scope.mk chain f).value? name = some symbol) := by
  refine ⟨?_, ?_, ?_, ?_, ?_⟩
  · intro typesOnly
    exact nodup_firstOccurrences _
  · intro before after i typesOnly himports hexplicit hname
    exact SourceFile.candidates_of_inserted himports hexplicit hname typesOnly
  · intro imports typesOnly hexplicit hwildcard
    exact SourceFile.candidates_of_reordered hexplicit hwildcard typesOnly
  · intro before after i himports hwildcard
    exact ⟨SourceFile.findSome_of_wildcard chain.type? himports hwildcard true,
      SourceFile.findSome_of_wildcard chain.symbol? himports hwildcard false⟩
  · intro hdot
    exact ⟨fun t ht => SourceFile.findSome_of_dotted hdot ht f true,
      fun symbol hsymbol => SourceFile.findSome_of_dotted hdot hsymbol f false⟩

/-! ## Two types of one name -/

def woodFile : SourceFile where
  namespaceName := ⟨["wood"], by decide, by decide⟩
  imports := []
  members := [.type ⟨"Frame", [], none⟩]
  pos := none

def paperFile : SourceFile where
  namespaceName := ⟨["paper"], by decide, by decide⟩
  imports := []
  members := [.type ⟨"Frame", [], none⟩]
  pos := none

def woodFrame : Import := ⟨woodFile.namespaceName, .type "Frame" none, none⟩

def allPaper : Import := ⟨paperFile.namespaceName, .all, none⟩

/-- Frames of paper, under another name. -/
def paperFrame : Import := ⟨paperFile.namespaceName, .type "Frame" (some "Sheet"), none⟩

def galleryFile : SourceFile where
  namespaceName := ⟨["gallery"], by decide, by decide⟩
  imports := [woodFrame]
  members := []
  pos := none

def galleryChain : Chain :=
  .source (Batch.ofFiles 0 [galleryFile]) false (.source (Batch.ofFiles 1 [woodFile, paperFile]) false .nothing)

/-- The frame of wood, in whatever company it is imported. The other one is found by its full name. -/
theorem Scope.frame_kept :
    (galleryFile.withImports [paperFrame, woodFrame]).candidates "Frame" false
      = galleryFile.candidates "Frame" false ∧
    ((galleryFile.withImports [woodFrame, allPaper]).withImports [allPaper, woodFrame]).candidates
        "Frame" true
      = (galleryFile.withImports [woodFrame, allPaper]).candidates "Frame" true ∧
    (Scope.mk galleryChain (galleryFile.withImports [allPaper, woodFrame])).type? "Frame"
      = some (.source ⟨woodFile, ⟨1, 0, 0⟩, ⟨"Frame", [], none⟩⟩) ∧
    (Scope.mk galleryChain galleryFile).type? "paper.Frame"
      = some (.source ⟨paperFile, ⟨1, 1, 0⟩, ⟨"Frame", [], none⟩⟩) := by
  obtain ⟨-, hinserted, -, hwildcard, -⟩ :=
    Scope.imports_without_effect galleryChain galleryFile "Frame"
  obtain ⟨-, -, hreordered, -, -⟩ :=
    Scope.imports_without_effect galleryChain (galleryFile.withImports [woodFrame, allPaper]) "Frame"
  obtain ⟨-, -, -, -, hdotted⟩ :=
    Scope.imports_without_effect galleryChain galleryFile "paper.Frame"
  refine ⟨?_, ?_, ?_, ?_⟩
  · exact hinserted [] [woodFrame] paperFrame false rfl rfl (by decide)
  · exact hreordered [allPaper, woodFrame] true rfl rfl
  · refine ((hwildcard [] [woodFrame] allPaper rfl rfl).1 ⟨"wood.Frame", ?_, rfl⟩).trans rfl
    decide
  · exact (hdotted rfl).1 _ rfl

end SemanticCheck
