import SemanticCheck.Proofs.ChainLookup

/-!
# References in types

A type mentions declared types by name: by itself, as what an array holds, or as a parameter or the result
of a function. In a chain that ends in a host, a name is found at the latest in the host, and what no
batch declares is what the host has.
-/

namespace SemanticCheck

/-! ## References -/

namespace Ty

mutual

/-- The references in a type at any depth, each with its ancestors. -/
def references : Ty → List (String × List String)
  | primitive _ | void => []
  | reference name ancestors => [(name, ancestors)]
  | array component => component.references
  | function params result => referencesIn params ++ result.references

def referencesIn : List Ty → List (String × List String)
  | [] => []
  | type :: rest => type.references ++ referencesIn rest

end

/-- Every reference in the type, by its name and its ancestors, has the property. -/
def EachReference (P : String → List String → Prop) (type : Ty) : Prop :=
  ∀ r ∈ type.references, P r.1 r.2

instance (P : String → List String → Prop) [∀ name ancestors, Decidable (P name ancestors)] (type : Ty) :
    Decidable (type.EachReference P) :=
  inferInstanceAs (Decidable (∀ r ∈ type.references, P r.1 r.2))

section EachReference

variable {P : String → List String → Prop}

@[simp] theorem eachReference_primitive (p : Primitive) : (primitive p).EachReference P := by
  simp [EachReference, references]

@[simp] theorem eachReference_void : void.EachReference P := by
  simp [EachReference, references]

@[simp] theorem eachReference_reference {name : String} {ancestors : List String} :
    (reference name ancestors).EachReference P ↔ P name ancestors := by
  simp [EachReference, references]

@[simp] theorem eachReference_array {component : Ty} :
    (array component).EachReference P ↔ component.EachReference P := by
  simp [EachReference, references]

theorem mem_referencesIn {types : List Ty} {r : String × List String} :
    r ∈ referencesIn types ↔ ∃ type ∈ types, r ∈ type.references := by
  induction types with
  | nil => simp [referencesIn]
  | cons type rest ih => simp [referencesIn, ih]

@[simp] theorem eachReference_function {params : List Ty} {result : Ty} :
    (function params result).EachReference P ↔
      (∀ param ∈ params, param.EachReference P) ∧ result.EachReference P := by
  simp only [EachReference, references, List.mem_append, mem_referencesIn]
  constructor
  · intro h
    exact ⟨fun param hparam r hr => h r (.inl ⟨param, hparam, hr⟩), fun r hr => h r (.inr hr)⟩
  · rintro ⟨hparams, hresult⟩ r (⟨param, hparam, hr⟩ | hr)
    · exact hparams param hparam r hr
    · exact hresult r hr

end EachReference

end Ty

/-! ## Declared types -/

def TypeDef.ancestors : TypeDef → List String
  | source _ => [objectName]
  | host c => c.ancestors

theorem TypeDef.type_eq (t : TypeDef) : t.type = .reference t.qualifiedName t.ancestors := by
  cases t <;> rfl

/-! ## Chains that end in a host -/

/-- Batches one behind the other, and last the host. -/
inductive Chain.EndsIn (h : Host) : Chain → Prop
  | host : EndsIn h (.host h)
  | source {outer : Chain} (batch : Batch) (delegates : Bool) :
      EndsIn h outer → EndsIn h (.source batch delegates outer)

namespace Chain.EndsIn

variable {chain : Chain} {h : Host} {key : String}

theorem method_eq (hend : chain.EndsIn h) (r : MethodRequest) : chain.method r = h.method r := by
  induction hend with
  | host => rfl
  | source batch delegates _ ih => exact ih

theorem type_isSome (hend : chain.EndsIn h) (hclass : (h.class? key).isSome) :
    (chain.type? key).isSome := by
  induction hend with
  | host => simpa [type?] using hclass
  | source batch delegates _ ih =>
    unfold type?
    split
    · rfl
    · exact ih

theorem class_of_type (hend : chain.EndsIn h) {c : HostClass} (ht : chain.type? key = some (.host c)) :
    h.class? key = some c := by
  induction hend with
  | host =>
    obtain ⟨c', hc', heq⟩ := Option.map_eq_some_iff.mp ht
    rw [hc', TypeDef.host.inj heq]
  | source batch delegates _ ih =>
    unfold type? at ht
    split at ht
    · cases ht
    · exact ih ht

/-- A symbol is declared in a file of some batch, or the host has it. -/
theorem symbol_cases (hend : chain.EndsIn h) {symbol : Symbol} (hs : chain.symbol? key = some symbol) :
    symbol.place?.isSome ∨ (Chain.host h).symbol? key = some symbol := by
  induction hend with
  | host => exact .inr hs
  | source batch delegates _ ih =>
    unfold symbol? at hs
    split at hs
    · rename_i found hfound
      obtain rfl := Option.some.inj hs
      rw [batch.indexed] at hfound
      left
      rcases SemanticCheck.symbol_cases hfound with ⟨d, -, rfl⟩ | ⟨d, -, rfl⟩ | ⟨d, -, rfl⟩ | ⟨d, -, rfl⟩
      all_goals rfl
    · exact ih hs

end Chain.EndsIn

end SemanticCheck
