import SemanticCheck.Proofs.References

/-!
# Assignability as an order

A reference carries its ancestors with it. Where these come from one table that is closed under taking
ancestors, assignability is transitive, although it is put together from the widening of primitive types,
the table, the root that stands above all, and arrays that follow what they hold. Where the table has no
cycles, types that can be assigned to each other are the same. The types found in a chain that ends in the
implicit package come from such a table, as long as no batch declares the root anew.
-/

namespace SemanticCheck

/-! ## Primitive types -/

namespace Primitive

/-- The place in the numeric order that a type widens from: a character stands where `short` does. -/
def floor? : Primitive → Option Nat
  | char => some 1
  | p => p.rank?

theorem floor_of_rank {p : Primitive} {place : Nat} (h : p.rank? = some place) :
    p.floor? = some place := by
  cases p <;> first | exact h | cases h

theorem widensTo_iff {p q : Primitive} :
    p.widensTo q = true ↔ p = q ∨ ∃ low high, p.floor? = some low ∧ q.rank? = some high ∧ low < high := by
  unfold widensTo
  rw [Bool.or_eq_true, beq_iff_eq]
  refine or_congr_right ?_
  cases hq : q.rank? with
  | none => cases p <;> simp
  | some high => cases p <;> simp [floor?, rank?, Nat.succ_le_iff]

theorem widensTo_trans {p q r : Primitive} (hpq : p.widensTo q = true) (hqr : q.widensTo r = true) :
    p.widensTo r = true := by
  rw [widensTo_iff] at hpq hqr ⊢
  rcases hpq with rfl | ⟨low, mid, hp, hq, hlow⟩
  · exact hqr
  rcases hqr with rfl | ⟨mid', high, hq', hr, hhigh⟩
  · exact .inr ⟨low, mid, hp, hq, hlow⟩
  · obtain rfl := Option.some.inj ((floor_of_rank hq).symm.trans hq')
    exact .inr ⟨low, high, hp, hr, Nat.lt_trans hlow hhigh⟩

theorem widensTo_antisymm {p q : Primitive} (hpq : p.widensTo q = true) (hqp : q.widensTo p = true) :
    p = q := by
  rw [widensTo_iff] at hpq hqp
  rcases hpq with rfl | ⟨low, high, hp, hq, hlow⟩
  · rfl
  rcases hqp with rfl | ⟨low', high', hq', hp', hlow'⟩
  · rfl
  · have hhigh := Option.some.inj ((floor_of_rank hq).symm.trans hq')
    have hhigh' := Option.some.inj ((floor_of_rank hp').symm.trans hp)
    omega

end Primitive

/-! ## Tables of ancestors -/

/-- For each name its ancestors: none for the root, and with a name all that stands above it. -/
structure Ancestry (H : String → List String) : Prop where
  root : H objectName = []
  closed : ∀ {a b}, b ∈ H a → ∀ c ∈ H b, c ∈ H a

/-- No two names stand above each other. -/
def Apart (H : String → List String) : Prop := ∀ a b, a ∈ H b → b ∈ H a → a = b

theorem Ty.isSubtype_iff {name target : String} {ancestors : List String} :
    isSubtype name ancestors target = true ↔ name = target ∨ target = objectName ∨ target ∈ ancestors := by
  simp [isSubtype, or_assoc]

namespace Ancestry

variable {H : String → List String} (hH : Ancestry H) {a b c : String}

include hH

theorem isSubtype_root : Ty.isSubtype objectName (H objectName) a = true ↔ a = objectName := by
  rw [Ty.isSubtype_iff, hH.root]
  simp [eq_comm]

theorem isSubtype_trans (hab : Ty.isSubtype a (H a) b = true) (hbc : Ty.isSubtype b (H b) c = true) :
    Ty.isSubtype a (H a) c = true := by
  rcases Ty.isSubtype_iff.mp hab with rfl | rfl | hb
  · exact hbc
  · exact Ty.isSubtype_iff.mpr (.inr (.inl (hH.isSubtype_root.mp hbc)))
  · rcases Ty.isSubtype_iff.mp hbc with rfl | rfl | hc
    · exact hab
    · exact Ty.isSubtype_iff.mpr (.inr (.inl rfl))
    · exact Ty.isSubtype_iff.mpr (.inr (.inr (hH.closed hb c hc)))

theorem isSubtype_antisymm (hapart : Apart H) (hab : Ty.isSubtype a (H a) b = true)
    (hba : Ty.isSubtype b (H b) a = true) : a = b := by
  rcases Ty.isSubtype_iff.mp hab with rfl | rfl | hb
  · rfl
  · exact hH.isSubtype_root.mp hba
  · rcases Ty.isSubtype_iff.mp hba with rfl | rfl | ha
    · rfl
    · exact (hH.isSubtype_root.mp hab).symm
    · exact hapart a b ha hb

end Ancestry

/-! ## Types -/

namespace Ty

/-- Every reference carries the ancestors the table has for its name. -/
def Follows (H : String → List String) (type : Ty) : Prop :=
  type.EachReference fun name ancestors => ancestors = H name

theorem follows_reference {H : String → List String} {name : String} {ancestors : List String} :
    (reference name ancestors).Follows H ↔ ancestors = H name :=
  eachReference_reference

theorem follows_array {H : String → List String} {component : Ty} :
    (array component).Follows H ↔ component.Follows H :=
  eachReference_array

/-- What an array holds once no array is left. -/
def element : Ty → Ty
  | array component => component.element
  | type => type

theorem assignableTo_primitive {p : Primitive} {target : Ty}
    (h : (primitive p).assignableTo target = true) :
    ∃ q, target = primitive q ∧ p.widensTo q = true := by
  cases target <;> simp_all [assignableTo]

theorem assignableTo_reference {name : String} {ancestors : List String} {target : Ty}
    (h : (reference name ancestors).assignableTo target = true) :
    ∃ above rest, target = reference above rest ∧ isSubtype name ancestors above = true := by
  cases target <;> simp_all [assignableTo]

theorem assignableTo_array {component target : Ty} (h : (array component).assignableTo target = true) :
    (∃ other, target = array other ∧ component.assignableTo other = true) ∨
      ∃ rest, target = reference objectName rest := by
  cases target <;> simp_all [assignableTo]

theorem assignableTo_object {component : Ty} {rest : List String} :
    (array component).assignableTo (reference objectName rest) = true := by
  simp [assignableTo]

section Order

variable {H : String → List String} {a b c : Ty}

-- The induction takes one array off all three types at a time. Below the root there is only the root, so
-- an array that has become an object stays one.
theorem assignableTo_trans (hH : Ancestry H) (ha : a.Follows H) (hb : b.Follows H)
    (hab : a.assignableTo b = true) (hbc : b.assignableTo c = true) : a.assignableTo c = true := by
  fun_induction assignableTo a b generalizing c with
  | case1 p q =>
    obtain ⟨r, rfl, hqr⟩ := assignableTo_primitive hbc
    exact Primitive.widensTo_trans hab hqr
  | case2 name ancestors target rest =>
    obtain ⟨above, rest', rfl, htarget⟩ := assignableTo_reference hbc
    rw [follows_reference] at ha hb
    subst ha hb
    exact hH.isSubtype_trans hab htarget
  | case3 component other ih =>
    rcases assignableTo_array hbc with ⟨third, rfl, hthird⟩ | ⟨rest, rfl⟩
    · exact ih (follows_array.mp ha) (follows_array.mp hb) hab hthird
    · exact assignableTo_object
  | case4 component target rest =>
    obtain rfl := beq_iff_eq.mp hab
    obtain ⟨above, rest', rfl, htarget⟩ := assignableTo_reference hbc
    rw [follows_reference] at hb
    subst hb
    obtain rfl := hH.isSubtype_root.mp htarget
    exact assignableTo_object
  | case5 => cases hab

theorem assignableTo_self_iff (type : Ty) :
    type.assignableTo type = true ↔ type.element.isVoid = false ∧ type.element.signature? = none := by
  fun_induction element type with
  | case1 component ih => exact ih
  | case2 type hother =>
    cases type with
    | array component => exact absurd rfl (hother component)
    | primitive p => simp [assignableTo, isVoid, signature?, Primitive.widensTo_iff]
    | reference name ancestors => simp [assignableTo, isVoid, signature?, isSubtype_iff]
    | function params result => simp [assignableTo, signature?]
    | void => simp [assignableTo, isVoid]

theorem sameType_of_assignableTo (hH : Ancestry H) (hapart : Apart H) (ha : a.Follows H)
    (hb : b.Follows H) (hab : a.assignableTo b = true) (hba : b.assignableTo a = true) :
    a.sameType b = true := by
  fun_induction assignableTo a b with
  | case1 p q => simp [sameType, Primitive.widensTo_antisymm hab hba]
  | case2 name ancestors target rest =>
    rw [follows_reference] at ha hb
    subst ha hb
    simp [sameType, hH.isSubtype_antisymm hapart hab hba]
  | case3 component other ih =>
    rw [sameType]
    exact ih (follows_array.mp ha) (follows_array.mp hb) hab hba
  | case4 component target rest =>
    -- The root is not assigned to an array.
    obtain ⟨_, _, heq, _⟩ := assignableTo_reference hba
    cases heq
  | case5 => cases hab

end Order

end Ty

/-! ## The ancestors found in a chain -/

/-- The ancestors of the type that is found under a name. -/
def Chain.ancestors (chain : Chain) (name : String) : List String :=
  ((chain.type? name).map TypeDef.ancestors).getD []

/-- A host whose classes stand in layers below the root. -/
structure Host.Layered (h : Host) : Prop where
  root : (Chain.host h).ancestors objectName = []
  top : ∀ c ∈ h.classes, c.ancestors ≠ [] → objectName ∈ c.ancestors
  closed : ∀ c ∈ h.classes, ∀ b ∈ c.ancestors, ∀ x ∈ (Chain.host h).ancestors b, x ∈ c.ancestors
  apart : ∀ c ∈ h.classes, ∀ b ∈ c.ancestors, c.name ∉ (Chain.host h).ancestors b

theorem Host.layered_javaLang : javaLang.Layered where
  root := by decide
  top := by decide
  closed := by decide
  apart := by decide

namespace Chain

variable {chain : Chain}

theorem ancestors_of_type {name : String} {t : TypeDef} (ht : chain.type? name = some t) :
    chain.ancestors name = t.ancestors := by
  simp [ancestors, ht]

theorem exists_of_mem_ancestors {a b : String} (hb : b ∈ chain.ancestors a) :
    ∃ t, chain.type? a = some t ∧ chain.ancestors a = t.ancestors := by
  cases ht : chain.type? a with
  | none => simp [ancestors, ht] at hb
  | some t => exact ⟨t, rfl, ancestors_of_type ht⟩

/-- The type that is found under a name carries the ancestors found under it. -/
theorem type_follows {key : String} {t : TypeDef} (ht : chain.type? key = some t) :
    t.type.Follows chain.ancestors := by
  rw [TypeDef.type_eq, Ty.follows_reference, type_qualifiedName ht, ancestors_of_type ht]

namespace EndsIn

variable {h : Host} (hend : chain.EndsIn h) {a b : String}

include hend

theorem host_ancestors {c : HostClass} (ht : chain.type? a = some (.host c)) :
    (Chain.host h).ancestors a = c.ancestors := by
  have hhost : (Chain.host h).type? a = some (.host c) := by
    simp [type?, hend.class_of_type ht]
  exact ancestors_of_type hhost

/-- Only the root stands above a type from source, and the other types are classes of the host. -/
theorem ancestors_cases (hb : b ∈ chain.ancestors a) :
    b = objectName ∨
      ∃ c ∈ h.classes, c.name = a ∧ chain.ancestors a = c.ancestors ∧
        (Chain.host h).ancestors a = c.ancestors := by
  obtain ⟨t, ht, heq⟩ := exists_of_mem_ancestors hb
  cases t with
  | source d =>
    rw [heq] at hb
    exact .inl (List.mem_singleton.mp hb)
  | host c =>
    have hc := hend.class_of_type ht
    exact .inr ⟨c, List.mem_of_find?_eq_some hc, Host.class_name hc, heq, hend.host_ancestors ht⟩

theorem mem_ancestors (hb : b ∈ chain.ancestors a) : b = objectName ∨ b ∈ (Chain.host h).ancestors a := by
  rcases hend.ancestors_cases hb with hroot | ⟨c, -, -, heq, hhost⟩
  · exact .inl hroot
  · rw [hhost, ← heq]
    exact .inr hb

variable (hlayered : h.Layered) (hroot : ∀ d, chain.type? objectName ≠ some (.source d))

include hlayered hroot

theorem ancestors_root : chain.ancestors objectName = [] := by
  cases ht : chain.type? objectName with
  | none => simp [ancestors, ht]
  | some t =>
    cases t with
    | source d => exact absurd ht (hroot d)
    | host c => rw [ancestors_of_type ht, TypeDef.ancestors, ← hend.host_ancestors ht, hlayered.root]

theorem notMem_ancestors_root : a ∉ chain.ancestors objectName := by
  rw [hend.ancestors_root hlayered hroot]
  exact List.not_mem_nil

theorem ancestry : Ancestry chain.ancestors where
  root := hend.ancestors_root hlayered hroot
  closed := by
    intro a b hb x hx
    rcases hend.ancestors_cases hb with rfl | ⟨c, hc, -, heq, -⟩
    · exact absurd hx (hend.notMem_ancestors_root hlayered hroot)
    · rw [heq] at hb ⊢
      rcases hend.mem_ancestors hx with rfl | hx
      · exact hlayered.top c hc (List.ne_nil_of_mem hb)
      · exact hlayered.closed c hc b hb x hx

theorem apart : Apart chain.ancestors := by
  intro a b ha hb
  rcases hend.ancestors_cases hb with rfl | ⟨c, hc, rfl, heq, -⟩
  · exact absurd ha (hend.notMem_ancestors_root hlayered hroot)
  · rcases hend.mem_ancestors ha with hname | ha
    · rw [hname] at hb
      exact absurd hb (hend.notMem_ancestors_root hlayered hroot)
    · rw [heq] at hb
      exact absurd ha (hlayered.apart c hc b hb)

end EndsIn

end Chain

/-- Assignability is an order on the types whose ancestors come from one closed table. -/
theorem Ty.assignableTo_order :
    (∀ H, Ancestry H →
      (∀ a b c : Ty, a.Follows H → b.Follows H → c.Follows H →
        a.assignableTo b = true → b.assignableTo c = true → a.assignableTo c = true) ∧
      (∀ a : Ty, a.Follows H →
        (a.assignableTo a = true ↔ a.element.isVoid = false ∧ a.element.signature? = none)) ∧
      (Apart H → ∀ a b : Ty, a.Follows H → b.Follows H →
        a.assignableTo b = true → b.assignableTo a = true → a.sameType b = true)) ∧
    ∀ chain : Chain, chain.EndsIn Host.javaLang → (∀ d, chain.type? objectName ≠ some (.source d)) →
      Ancestry chain.ancestors ∧ Apart chain.ancestors ∧
      ∀ key t, chain.type? key = some t → t.type.Follows chain.ancestors := by
  refine ⟨fun H hH => ⟨?_, ?_, ?_⟩, fun chain hend hroot => ⟨?_, ?_, ?_⟩⟩
  · intro a b c ha hb _ hab hbc
    exact assignableTo_trans hH ha hb hab hbc
  · intro a _
    exact a.assignableTo_self_iff
  · intro hapart a b ha hb hab hba
    exact sameType_of_assignableTo hH hapart ha hb hab hba
  · exact hend.ancestry Host.layered_javaLang hroot
  · exact hend.apart Host.layered_javaLang hroot
  · intro key t ht
    exact Chain.type_follows ht

/-- Cars, and nothing above them but the root. -/
def garageChain : Chain :=
  .source (Batch.ofFiles 0 [⟨⟨["garage"], by decide, by decide⟩, [], [.type ⟨"Car", [], none⟩], none⟩]) false
    (.host Host.javaLang)

/-- Rows of rows of cars are rows of objects, and so objects; rows of nothing are not even rows of
nothing. -/
theorem Ty.cars_ordered :
    let car := reference "garage.Car" [objectName]
    Ancestry garageChain.ancestors ∧ Apart garageChain.ancestors ∧ car.Follows garageChain.ancestors ∧
      (array (array car)).assignableTo object = true ∧
      (array car).assignableTo (array car) = true ∧
      ¬ (array void).assignableTo (array void) = true ∧
      (array car).sameType (array car) = true := by
  intro car
  have hroot : ∀ d, garageChain.type? objectName ≠ some (.source d) := by
    intro d hd
    cases hd
  obtain ⟨hancestry, hapart, hfound⟩ := assignableTo_order.2 garageChain (.source _ _ .host) hroot
  obtain ⟨htrans, hself, hsame⟩ := assignableTo_order.1 _ hancestry
  have hcar : car.Follows garageChain.ancestors := hfound "garage.Car" _ rfl
  have hcars : (array car).Follows garageChain.ancestors := follows_array.mpr hcar
  have hobject : object.Follows garageChain.ancestors := hfound objectName _ rfl
  refine ⟨hancestry, hapart, hcar, ?_, ?_, ?_, ?_⟩
  · exact htrans (array (array car)) (array object) object (follows_array.mpr hcars)
      (follows_array.mpr hobject) hobject rfl rfl
  · exact (hself (array car) hcars).mpr ⟨rfl, rfl⟩
  · intro hvoid
    cases ((hself (array void) (follows_array.mpr eachReference_void)).mp hvoid).1
  · exact hsame hapart (array car) (array car) hcars hcars rfl rfl

end SemanticCheck
