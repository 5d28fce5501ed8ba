import SemanticCheck.Proofs.Candidates
import SemanticCheck.Proofs.Reading

/-!
# Local names hide declarations

Of the local names, the type of an expression depends on those it mentions, and not on the scopes that
bind them. An expression that mentions local names only reads nothing but types and properties: whatever
functions and programs the files declare, its type is the same.
-/

namespace SemanticCheck

/-! ## Files that declare the same data -/

/-- Declared to be called or run; nothing else is read through it. -/
def Member.isRunnable : Member → Bool
  | function _ | program _ => true
  | _ => false

/-- The files differ in their functions and programs at most. -/
structure SourceFile.SameData (f f' : SourceFile) : Prop where
  namespaceName : f.namespaceName = f'.namespaceName
  imports : f.imports = f'.imports
  members : f.members.filter (!·.isRunnable) = f'.members.filter (!·.isRunnable)

/-- The chains are the same but for functions and programs in the files of their batches. -/
inductive Chain.SameData : Chain → Chain → Prop
  | nothing : SameData .nothing .nothing
  | emptyHost : SameData .emptyHost .emptyHost
  | host (h : Host) : SameData (.host h) (.host h)
  | source {batch batch' : Batch} {outer outer' : Chain} (delegates : Bool) :
      List.Forall₂ SourceFile.SameData batch.files batch'.files → SameData outer outer' →
      SameData (.source batch delegates outer) (.source batch' delegates outer')

structure Scope.SameData (s s' : Scope) : Prop where
  chain : s.chain.SameData s'.chain
  file : s.file.SameData s'.file

theorem SourceFile.SameData.context {f f' : SourceFile} (h : f.SameData f') : f.context = f'.context :=
  congrArg QualifiedName.text h.namespaceName

/-! ## What their declarations are read through -/

section Readings

variable {α : Type}

def Declared.reading (d : Declared α) : α × String × List Import :=
  (d.item, d.file.context, d.file.imports)

theorem Declared.alike_of_reading {d d' : Declared α} (h : d.reading = d'.reading) : d.Alike d' := by
  simp only [Declared.reading, Prod.mk.injEq] at h
  exact ⟨h.1, h.2.1, h.2.2⟩

/-- What the file declares of one kind, without the places. -/
def SourceFile.readings (f : SourceFile) (pick : Member → Option α) :
    List (String × α × String × List Import) :=
  f.members.filterMap fun m =>
    (pick m).map fun item => (qualify f.context m.name, item, f.context, f.imports)

theorem readings_declared (f : SourceFile) (batch n : Nat) (pick : Member → Option α) :
    (f.declared batch n pick).map (Prod.map id Declared.reading) = f.readings pick := by
  have hplaces : f.members = f.members.zipIdx.map Prod.fst := (List.zipIdx_map_fst 0 f.members).symm
  unfold SourceFile.readings
  rw [hplaces, List.filterMap_map]
  simp only [SourceFile.declared, SourceFile.declarations, List.map_filterMap, List.filterMap_map,
    Function.comp_def, Option.map_map]
  rfl

theorem readings_declaredIn (batch : Nat) (files : List SourceFile) (pick : Member → Option α) :
    (declaredIn batch files pick).map (Prod.map id Declared.reading)
      = files.flatMap (·.readings pick) := by
  unfold declaredIn
  rw [List.map_flatMap, ← flatMap_zipIdx_fst files]
  exact List.flatMap_congr fun file _ => readings_declared file.1 batch file.2 pick

variable {pick : Member → Option α} (hpick : ∀ m, m.isRunnable = true → pick m = none)

include hpick

theorem SourceFile.SameData.readings {f f' : SourceFile} (h : f.SameData f') :
    f.readings pick = f'.readings pick := by
  have hdata : ∀ m : Member, (!m.isRunnable) = false → pick m = none := by
    intro m hm
    exact hpick m (by simpa using hm)
  have hfilter : ∀ f : SourceFile, f.readings pick
      = (f.members.filter (!·.isRunnable)).filterMap fun m =>
          (pick m).map fun item => (qualify f.context m.name, item, f.context, f.imports) := by
    intro f
    rw [filterMap_of_filter fun m hm => by rw [hdata m hm, Option.map_none]]
    rfl
  rw [hfilter, hfilter, h.members, h.context, h.imports]

theorem lookup_of_sameData {files files' : List SourceFile}
    (h : List.Forall₂ SourceFile.SameData files files') (batch batch' : Nat) (key : String) :
    Option.Rel Declared.Alike ((declaredIn batch files pick).lookup key)
      ((declaredIn batch' files' pick).lookup key) := by
  have hreadings : files.flatMap (·.readings pick) = files'.flatMap (·.readings pick) := by
    induction h with
    | nil => rfl
    | cons hf _ ih => rw [List.flatMap_cons, List.flatMap_cons, hf.readings hpick, ih]
  have hlookup : ((declaredIn batch files pick).lookup key).map Declared.reading
      = ((declaredIn batch' files' pick).lookup key).map Declared.reading := by
    rw [← lookup_map, ← lookup_map, readings_declaredIn, readings_declaredIn, hreadings]
  cases hd : (declaredIn batch files pick).lookup key with
  | none =>
    rw [hd, Option.map_none, eq_comm, Option.map_eq_none_iff] at hlookup
    rw [hlookup]
    exact .none
  | some d =>
    rw [hd, Option.map_some, eq_comm, Option.map_eq_some_iff] at hlookup
    obtain ⟨d', hd', hreading⟩ := hlookup
    rw [hd']
    exact .some (Declared.alike_of_reading hreading.symm)

end Readings

theorem Member.type_of_isRunnable (m : Member) (h : m.isRunnable = true) : m.type? = none := by
  cases m <;> simp_all [isRunnable, type?]

theorem Member.property_of_isRunnable (m : Member) (h : m.isRunnable = true) : m.property? = none := by
  cases m <;> simp_all [isRunnable, property?]

theorem Chain.SameData.alike {chain chain' : Chain} (h : chain.SameData chain') :
    chain.Alike chain' := by
  induction h with
  | nothing | emptyHost | host => exact .refl _
  | @source batch batch' outer outer' delegates hfiles _ ih =>
    have htypes := lookup_of_sameData Member.type_of_isRunnable hfiles batch.number batch'.number
    have hproperties :=
      lookup_of_sameData Member.property_of_isRunnable hfiles batch.number batch'.number
    exact alike_source delegates delegates htypes hproperties ih

theorem Scope.SameData.alike {s s' : Scope} (h : s.SameData s') : s.Alike s' :=
  ⟨h.chain.alike, h.file.context, h.file.imports⟩

/-! ## Local names -/

/-- Local names count by what they are bound to and only where they are mentioned. Where every mentioned
name is bound, the type is the same for whatever functions and programs there are. -/
theorem Scope.typeOf_by_locals (s : Scope) (e : Expr) :
    (∀ env env' : TypeEnv,
      (∀ name, (Node.expression e).Mentions name → env.lookup? name = env'.lookup? name) →
      s.typeOf env e = s.typeOf env' e) ∧
    ∀ (s' : Scope) (env : TypeEnv), s.SameData s' →
      (∀ name, (Node.expression e).Mentions name → (env.lookup? name).isSome = true) →
      s.typeOf env e = s'.typeOf env e := by
  constructor
  · intro env env' hlookup
    exact typeOf_congr (.refl s) e fun name hname =>
      ⟨hlookup name hname, fun _ => optionRel_refl .refl _⟩
  · intro s' env hdata hbound
    -- No mentioned name gets as far as the functions and programs, where the scopes differ.
    refine typeOf_congr hdata.alike e fun name hname => ⟨rfl, fun hnone => ?_⟩
    have hsome := hbound name hname
    rw [hnone] at hsome
    cases hsome

/-! ## A call of local names -/

/-- Declares a function under the name of a local. -/
def studioFile : SourceFile where
  namespaceName := ⟨["studio"], by decide, by decide⟩
  imports := []
  members :=
    [.function ⟨"scale", .void none, [], .block [] none, none⟩, .type ⟨"Easel", [], none⟩]
  pos := none

/-- Declares a program under that name, and a function under the name of the other local. -/
def changedStudioFile : SourceFile :=
  { studioFile with
    members :=
      [.type ⟨"Easel", [], none⟩, .program ⟨"scale", "args", .block [] none, none⟩,
        .function ⟨"Math", .void none, [], .block [] none, none⟩] }

def studioScope : Scope :=
  ⟨.source (Batch.ofFiles 0 [studioFile]) false (.host Host.javaLang), studioFile⟩

def changedStudioScope : Scope :=
  ⟨.source (Batch.ofFiles 0 [changedStudioFile]) false (.host Host.javaLang), changedStudioFile⟩

/-- `scale(Math.length())`, where the class of the host is hidden by a text. -/
def scaledLength : Expr :=
  .call (.name "scale" none)
    [.mk none (.methodCall (.name "Math" none) "length" [] none) none] none

def flatEnv : TypeEnv :=
  (TypeEnv.empty.define "Math" .string).define "scale" (.function [.int] .boolean)

def nestedEnv : TypeEnv :=
  (((TypeEnv.empty.define "scale" (.function [.int] .boolean)).define "Math" .int).push.define
    "Math" .string).push

theorem mentions_scaledLength {name : String} (h : (Node.expression scaledLength).Mentions name) :
    name = "scale" ∨ name = "Math" := by
  obtain ⟨pos, hpos⟩ := h
  have hname : (name = "scale" ∧ pos = none) ∨ (name = "Math" ∧ pos = none) := by
    simpa [scaledLength, Node.tree, Expr.tree, Argument.trees, Argument.tree, Tree.preorder,
      Tree.subtrees, Tree.subtreesOf, Tree.label] using hpos
  exact hname.imp And.left And.left

theorem Scope.scaledLength_shielded :
    (∀ name, (Node.expression scaledLength).Mentions name →
      flatEnv.lookup? name = nestedEnv.lookup? name ∧ (flatEnv.lookup? name).isSome = true) ∧
    studioScope.SameData changedStudioScope ∧
    studioScope.typeOf flatEnv scaledLength = .ok .boolean ∧
    studioScope.typeOf nestedEnv scaledLength = .ok .boolean ∧
    changedStudioScope.typeOf flatEnv scaledLength = .ok .boolean := by
  have hlocals : ∀ name, (Node.expression scaledLength).Mentions name →
      flatEnv.lookup? name = nestedEnv.lookup? name ∧ (flatEnv.lookup? name).isSome = true := by
    intro name hname
    rcases mentions_scaledLength hname with rfl | rfl
    · exact ⟨rfl, rfl⟩
    · exact ⟨rfl, rfl⟩
  have hfile : studioFile.SameData changedStudioFile := ⟨rfl, rfl, rfl⟩
  have hdata : studioScope.SameData changedStudioScope :=
    ⟨.source false (.cons hfile .nil) (.host _), hfile⟩
  have hflat : studioScope.typeOf flatEnv scaledLength = .ok .boolean := rfl
  obtain ⟨henv, hcode⟩ := Scope.typeOf_by_locals studioScope scaledLength
  refine ⟨hlocals, hdata, hflat, ?_, ?_⟩
  · rw [← henv flatEnv nestedEnv fun name hname => (hlocals name hname).1]
    exact hflat
  · rw [← hcode changedStudioScope flatEnv hdata fun name hname => (hlocals name hname).2]
    exact hflat

end SemanticCheck
