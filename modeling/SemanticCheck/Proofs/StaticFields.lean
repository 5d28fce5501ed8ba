import SemanticCheck.Proofs.ImportOrder
import SemanticCheck.Proofs.MethodChoice
import SemanticCheck.Proofs.Tables

/-!
# Fields as values

A field of a host class can be named in two ways: by a key, as when it is imported, and as a static field of
its class. The key leads to the first field of the name, whether it is static or not, and static access to
the first static one. So the two agree where the first field of a name is static, and a field of instances
that comes first is a value that static access does not know.
-/

namespace SemanticCheck

/-! ## Keys of members -/

namespace Host

variable {h : Host} {owner key : String} {f : HostField}

/-- The field is the first of its name in the class that the table has for the owner. -/
def HasFirst (h : Host) (owner : String) (f : HostField) : Prop :=
  ∃ c, h.class? owner = some c ∧ IsFirst (·.name = f.name) c.fields f

/-- The field can be reached by its key: no field of the name comes before it, and no class or function has
the key. -/
structure Shows (h : Host) (owner : String) (f : HostField) : Prop where
  first : h.HasFirst owner f
  dotless : hasDot f.name = false
  no_class : h.class? (owner ++ "." ++ f.name) = none
  no_function : h.function? (owner ++ "." ++ f.name) = none

theorem member_field_iff :
    h.member? key = some (.field owner f) ↔
      key = owner ++ "." ++ f.name ∧ hasDot f.name = false ∧ h.HasFirst owner f := by
  simp only [member?, Option.bind_eq_bind, Option.bind_eq_some_iff, Prod.exists,
    splitLastDot_eq_some_iff]
  constructor
  · rintro ⟨front, simple, ⟨rfl, hdot⟩, c, hc, hmember⟩
    split at hmember
    · rename_i found hfound
      cases hmember
      obtain rfl : f.name = simple := by simpa using List.find?_some hfound
      rw [class_name hc]
      exact ⟨rfl, hdot, c, hc, by simpa using find_eq_some_iff_isFirst.mp hfound⟩
    · obtain ⟨m, -, heq⟩ := Option.map_eq_some_iff.mp hmember
      cases heq
  · rintro ⟨rfl, hdot, c, hc, hfirst⟩
    have hfind : c.fields.find? (·.name == f.name) = some f :=
      find_eq_some_iff_isFirst.mpr (by simpa using hfirst)
    refine ⟨owner, f.name, ⟨rfl, hdot⟩, c, hc, ?_⟩
    rw [hfind, class_name hc]

theorem symbol_field_iff :
    (Chain.host h).symbol? key = some (.host (.field owner f)) ↔
      key = owner ++ "." ++ f.name ∧ h.Shows owner f := by
  constructor
  · intro hsymbol
    simp only [Chain.symbol?] at hsymbol
    split at hsymbol
    · cases hsymbol
    · rename_i hclass
      split at hsymbol
      · cases hsymbol
      · rename_i hfunction
        obtain ⟨member, hmember, heq⟩ := Option.map_eq_some_iff.mp hsymbol
        cases heq
        obtain ⟨rfl, hdot, hfirst⟩ := member_field_iff.mp hmember
        exact ⟨rfl, hfirst, hdot, hclass, hfunction⟩
  · rintro ⟨rfl, hshows⟩
    have hmember := member_field_iff.mpr ⟨rfl, hshows.dotless, hshows.first⟩
    simp [Chain.symbol?, hshows.no_class, hshows.no_function, hmember]

/-! ## Static access -/

/-- A static field that no field of its name comes before is the one that static access finds. -/
theorem staticFieldType_of_first {c : HostClass} (hfirst : IsFirst (·.name = f.name) c.fields f)
    (hstatic : f.isStatic = true) : (TypeDef.host c).staticFieldType? f.name = some f.type := by
  have hfind : c.fields.find? (fun g => g.name == f.name && g.isStatic) = some f := by
    rw [find_eq_some_iff_isFirst]
    exact hfirst.imp (fun g hg => by simp_all) (by simp [hstatic])
  simp [TypeDef.staticFieldType?, hfind]

theorem staticFieldType_of_shows (hshows : h.Shows owner f) (hstatic : f.isStatic = true) :
    ((Chain.host h).type? owner).bind (·.staticFieldType? f.name) = some f.type := by
  obtain ⟨c, hc, hfirst⟩ := hshows.first
  simp [Chain.type?, hc, staticFieldType_of_first hfirst hstatic]

end Host

/-! ## Imports of a field -/

namespace Scope

variable {s : Scope} {env : TypeEnv} {h : Host} {name owner : String} {f : HostField}

/-- Under the name the file has the field of a host class, by an import of that one field. -/
def ImportsField (s : Scope) (name owner : String) (f : HostField) : Prop :=
  ∃ i ∈ s.file.imports, i.NamesField name ∧ ∃ key, i.targetName? = some key ∧
    s.chain.symbol? key = some (.host (.field owner f)) ∧ s.value? name = some (.host (.field owner f))

theorem ImportsField.shows (himports : s.ImportsField name owner f) (hend : s.chain.EndsIn h) :
    h.Shows owner f := by
  obtain ⟨i, -, -, key, -, hsymbol, -⟩ := himports
  rcases hend.symbol_cases hsymbol with hplace | hhost
  · cases hplace
  · exact (Host.symbol_field_iff.mp hhost).2

/-- The key of an imported field has a dot on either side of the type, so the owner is a dotted name. -/
theorem ImportsField.owner_dotted (himports : s.ImportsField name owner f) (hend : s.chain.EndsIn h) :
    hasDot owner = true := by
  obtain ⟨i, -, ⟨-, type, field, localAlias, htarget⟩, key, hkey, hsymbol, -⟩ := himports
  rcases hend.symbol_cases hsymbol with hplace | hhost
  · cases hplace
  · obtain ⟨hname, hshows⟩ := Host.symbol_field_iff.mp hhost
    have hdotless : f.name.toList.count '.' = 0 := by
      have hdot := hshows.dotless
      simpa [hasDot, List.count_eq_zero] using hdot
    simp only [Import.targetName?, htarget, Option.some.injEq] at hkey
    rw [hname] at hkey
    have hcount := congrArg (·.toList.count '.') hkey
    simp only [String.toList_append, List.count_append] at hcount
    have hpos : 0 < owner.toList.count '.' := by
      have hone : ".".toList.count '.' = 1 := rfl
      omega
    simpa [hasDot] using List.count_pos_iff.mp hpos

theorem typeOf_staticField_iff {t : TypeIdentifier} {found : TypeDef}
    (ht : s.type? t.qualifiedName = some found) {field : String} {pos : Option Position} {type : Ty} :
    s.typeOf env (.staticField t field pos) = .ok type ↔ found.staticFieldType? field = some type := by
  rw [typeOf, staticFieldType, identified, ht]
  simp only [bind, Except.bind]
  cases found.staticFieldType? field <;> simp [TypingError.fail]

/-- Static access to a static field that its key shows: it has the type of the field unless a batch declares
a type of the owner's name. -/
theorem staticAccess_iff (hend : s.chain.EndsIn h) (hshows : h.Shows owner f)
    (hstatic : f.isStatic = true) (hdot : hasDot owner = true) {t : TypeIdentifier}
    (ht : t.qualifiedName = owner) (pos : Option Position) :
    s.typeOf env (.staticField t f.name pos) = .ok f.type ↔
      s.chain.type? owner = (Chain.host h).type? owner := by
  obtain ⟨c, hc, hfirst⟩ := hshows.first
  have hclass : (h.class? owner).isSome = true := by simp [hc]
  obtain ⟨found, hfound⟩ := Option.isSome_iff_exists.mp (hend.type_isSome hclass)
  have htype : s.type? t.qualifiedName = some found := by
    rw [ht]
    exact SourceFile.findSome_of_dotted hdot hfound s.file true
  rw [typeOf_staticField_iff htype, hfound]
  cases found with
  | source d => simp [TypeDef.staticFieldType?, Chain.type?, hc]
  | host c' =>
    have hc' := hend.class_of_type hfound
    rw [hc] at hc'
    cases hc'
    simp [Chain.type?, hc, Host.staticFieldType_of_first hfirst hstatic]

end Scope

/-- All fields that keys lead to are static exactly if the first field of every name that is reached is. -/
theorem Host.fields_shown_static_iff (h : Host) :
    ((∀ key owner f, (Chain.host h).symbol? key = some (.host (.field owner f)) →
        f.isStatic = true ∧ ∃ type, (Symbol.host (.field owner f)).typeIn (.host h) = .ok type ∧
          ((Chain.host h).type? owner).bind (·.staticFieldType? f.name) = some type) ↔
      ∀ owner f, h.Shows owner f → f.isStatic = true) ∧
    (∀ key owner f, (Chain.host h).symbol? key = some (.host (.field owner f)) → f.isStatic = true →
      ∃ type, (Symbol.host (.field owner f)).typeIn (.host h) = .ok type ∧
        ((Chain.host h).type? owner).bind (·.staticFieldType? f.name) = some type) ∧
    ∀ (s : Scope) (env : TypeEnv) (name owner : String) (f : HostField) (t : TypeIdentifier)
      (pos pos' : Option Position), s.chain.EndsIn h → s.ImportsField name owner f →
      env.lookup? name = none → t.qualifiedName = owner →
      s.typeOf env (.name name pos) = .ok f.type ∧
      (f.isStatic = true →
        (s.typeOf env (.staticField t f.name pos') = .ok f.type ↔
          s.chain.type? owner = (Chain.host h).type? owner)) := by
  have hagree : ∀ key owner f, (Chain.host h).symbol? key = some (.host (.field owner f)) →
      f.isStatic = true → ∃ type, (Symbol.host (.field owner f)).typeIn (.host h) = .ok type ∧
        ((Chain.host h).type? owner).bind (·.staticFieldType? f.name) = some type := by
    intro key owner f hsymbol hstatic
    exact ⟨f.type, rfl, staticFieldType_of_shows (symbol_field_iff.mp hsymbol).2 hstatic⟩
  refine ⟨⟨?_, ?_⟩, hagree, ?_⟩
  · intro hall owner f hshows
    exact (hall _ owner f (symbol_field_iff.mpr ⟨rfl, hshows⟩)).1
  · intro hstatic key owner f hsymbol
    have hf := hstatic owner f (symbol_field_iff.mp hsymbol).2
    exact ⟨hf, hagree key owner f hsymbol hf⟩
  · intro s env name owner f t pos pos' hend himports hlocal ht
    constructor
    · obtain ⟨-, -, -, -, -, -, hvalue⟩ := himports
      rw [Scope.typeOf]
      exact Scope.valueType_of_typeIn (by simp [hlocal]) hvalue rfl
    · intro hstatic
      exact Scope.staticAccess_iff hend (himports.shows hend) hstatic (himports.owner_dotted hend) ht pos'

/-! ## Fields of the sun -/

/-- The age is a field of instances, the mass a static one. -/
def orbitHost : Host :=
  Host.empty.addClass
    ((HostClass.ofName "orbit.Sun").withField "age" .int false |>.withField "mass" .int true)

def orbitPackage : QualifiedName := ⟨["orbit"], by decide, by decide⟩

/-- Imports both fields. -/
def moonFile : SourceFile where
  namespaceName := ⟨["moon"], by decide, by decide⟩
  imports := [⟨orbitPackage, .field "Sun" "age" none, none⟩, ⟨orbitPackage, .field "Sun" "mass" none, none⟩]
  members := []
  pos := none

def moonScope : Scope := ⟨.source (Batch.ofFiles 0 [moonFile]) false (.host orbitHost), moonFile⟩

/-- The type of a field of the sun by its imported name, and by static access. -/
def sunField (field : String) : Typed Ty × Typed Ty :=
  (moonScope.typeOf .empty (.name field none),
    moonScope.typeOf .empty (.staticField ⟨some orbitPackage, "Sun", none⟩ field none))

theorem Host.mass_imported :
    moonScope.chain.EndsIn orbitHost ∧ moonScope.ImportsField "mass" "orbit.Sun" ⟨"mass", .int, true⟩ ∧
      sunField "mass" = (.ok .int, .ok .int) := by
  have hend : moonScope.chain.EndsIn orbitHost := .source _ _ .host
  have himports : moonScope.ImportsField "mass" "orbit.Sun" ⟨"mass", .int, true⟩ := by
    refine ⟨⟨orbitPackage, .field "Sun" "mass" none, none⟩, by simp [moonScope, moonFile], ?_, _, rfl, rfl, rfl⟩
    exact ⟨rfl, _, _, _, rfl⟩
  obtain ⟨hname, hstatic⟩ := (Host.fields_shown_static_iff orbitHost).2.2 moonScope .empty "mass" "orbit.Sun"
    ⟨"mass", .int, true⟩ ⟨some orbitPackage, "Sun", none⟩ none none hend himports rfl rfl
  exact ⟨hend, himports, Prod.ext hname ((hstatic rfl).mpr rfl)⟩

/-- The age is a value by its key and by import, although it belongs to instances, and static access has no
such field. -/
theorem Host.age_shown :
    (∃ f, (Chain.host orbitHost).symbol? "orbit.Sun.age" = some (.host (.field "orbit.Sun" f)) ∧
      f.isStatic = false) ∧
    ((Chain.host orbitHost).type? "orbit.Sun").bind (·.staticFieldType? "age") = none ∧
    sunField "age" = (.ok .int, .error (.type (.unknownField "age" "orbit.Sun"))) :=
  ⟨⟨⟨"age", .int, false⟩, rfl, rfl⟩, rfl, rfl⟩

end SemanticCheck
