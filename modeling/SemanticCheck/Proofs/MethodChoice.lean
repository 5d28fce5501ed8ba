import Mathlib.Data.List.Forall2
import SemanticCheck.Proofs.NamedCalls

/-!
# The choice of a method

A call that the host answers goes to one of the methods it can see. Whether there is one for it is a matter
of its name, the number of its arguments and whether it has to be static. The types of the arguments only
say which one: the first that takes them, or the first of all where none does. Batches in front of the host
have no part in it.
-/

namespace SemanticCheck

/-! ## Methods for a request -/

/-- Every argument may be stored in the parameter of its place, and none is missing. -/
def HostMethod.Takes (m : HostMethod) (args : List Ty) : Prop :=
  List.Forall₂ (fun arg param => arg.assignableTo param = true) args m.params

theorem HostMethod.accepts_iff {m : HostMethod} {args : List Ty} :
    m.accepts args = true ↔ m.Takes args := by
  simp only [accepts, arity, Takes, List.forall₂_iff_zip, Bool.and_eq_true, beq_iff_eq,
    List.all_eq_true]
  constructor
  · rintro ⟨hlength, hpairs⟩
    exact ⟨hlength.symm, fun {arg param} hpair => hpairs (arg, param) hpair⟩
  · rintro ⟨hlength, hpairs⟩
    exact ⟨hlength.symm, fun _ hpair => hpairs hpair⟩

namespace MethodRequest

variable {r : MethodRequest} {candidates : List HostMethod} {m : HostMethod}

/-- The method has the name and the number of parameters asked for, and is static where it has to be. -/
def Fits (r : MethodRequest) (m : HostMethod) : Prop :=
  m.name = r.name ∧ m.params.length = r.args.length ∧ (r.isStatic = true → m.isStatic = true)

/-- The method answers the request: the first that fits and takes the arguments, or, where none does
both, the first that fits. -/
def Chooses (r : MethodRequest) (candidates : List HostMethod) (m : HostMethod) : Prop :=
  IsFirst (fun m => r.Fits m ∧ m.Takes r.args) candidates m ∨
    (∀ other ∈ candidates, r.Fits other → ¬ other.Takes r.args) ∧ IsFirst r.Fits candidates m

theorem chooses_iff : r.Chooses candidates m ↔
    (candidates.find? fun m => r.matchedBy m && m.accepts r.args).or (candidates.find? r.matchedBy)
      = some m := by
  have hfits : ∀ other, r.matchedBy other = true ↔ r.Fits other := fun _ => matchedBy_iff
  have htakes : ∀ other, (r.matchedBy other && other.accepts r.args) = true ↔
      r.Fits other ∧ other.Takes r.args := by
    intro other
    rw [Bool.and_eq_true, hfits, HostMethod.accepts_iff]
  have hnone : (candidates.find? fun m => r.matchedBy m && m.accepts r.args) = none ↔
      ∀ other ∈ candidates, r.Fits other → ¬ other.Takes r.args := by
    simp only [List.find?_eq_none, htakes, not_and]
  rw [Option.or_eq_some_iff, hnone, find_eq_some_iff_isFirst, find_eq_some_iff_isFirst,
    isFirst_congr htakes, isFirst_congr hfits, Chooses]

theorem select_eq_ok_iff : r.select candidates = .ok m ↔ r.Chooses candidates m := by
  rw [chooses_iff]
  simp only [select, List.find?_filter, List.head?_filter, Bool.decide_and, Bool.decide_eq_true]
  split
  · rename_i found hfound
    simp [hfound]
  · rename_i hfound
    simp [hfound]

theorem select_eq_error {e : ResolutionError} (h : r.select candidates = .error e) :
    e = .unsolvedMethod r.text := by
  unfold select at h
  dsimp only at h
  split at h
  · cases h
  · exact (Except.error.inj h).symm

theorem Chooses.mem (h : r.Chooses candidates m) : m ∈ candidates ∧ r.Fits m := by
  rcases h with h | ⟨-, h⟩
  · exact ⟨h.mem.1, h.mem.2.1⟩
  · exact h.mem

end MethodRequest

/-! ## What a request can see -/

namespace Host

variable {h : Host} {r : MethodRequest} {m : HostMethod}

/-- The methods a request can see: functions when it has no owner; otherwise those of its owner, and for
an instance those of every ancestor that the table has. -/
inductive Sees (h : Host) (r : MethodRequest) : HostMethod → Prop
  | function {m : HostMethod} : r.owner = none → m ∈ h.functions → Sees h r m
  | own {owner : String} {c : HostClass} {m : HostMethod} :
      r.owner = some owner → h.class? owner = some c → m ∈ c.methods → Sees h r m
  | inherited {owner : String} {c : HostClass} {name : String} {ancestor : HostClass} {m : HostMethod} :
      r.owner = some owner → h.class? owner = some c → r.isStatic = false →
      name ∈ c.ancestors → h.class? name = some ancestor → m ∈ ancestor.methods → Sees h r m

/-- The methods of a class of the table; none for a name that it does not have. -/
def methodsOf (h : Host) (name : String) : List HostMethod :=
  match h.class? name with
  | some c => c.methods
  | none => []

/-- What a request can see, in order: the methods of the owner, then those of its ancestors as listed. -/
def offered (h : Host) (r : MethodRequest) : List HostMethod :=
  match r.owner with
  | none => h.functions
  | some owner =>
    match h.class? owner with
    | some c => c.methods ++ if r.isStatic then [] else c.ancestors.flatMap h.methodsOf
    | none => []

theorem mem_methodsOf {name : String} :
    m ∈ h.methodsOf name ↔ ∃ c, h.class? name = some c ∧ m ∈ c.methods := by
  unfold methodsOf
  cases h.class? name <;> simp

theorem mem_offered : m ∈ h.offered r ↔ h.Sees r m := by
  constructor
  · intro hm
    unfold offered at hm
    split at hm
    · rename_i howner
      exact .function howner hm
    · rename_i owner howner
      split at hm
      · rename_i c hc
        rcases List.mem_append.mp hm with hm | hm
        · exact .own howner hc hm
        · split at hm
          · cases hm
          · rename_i hstatic
            obtain ⟨name, hname, hm⟩ := List.mem_flatMap.mp hm
            obtain ⟨ancestor, hancestor, hm⟩ := mem_methodsOf.mp hm
            exact .inherited howner hc (by simpa using hstatic) hname hancestor hm
      · cases hm
  · intro hsees
    unfold offered
    cases hsees with
    | function howner hm => simpa [howner] using hm
    | own howner hc hm => simp [howner, hc, hm]
    | inherited howner hc hstatic hname hancestor hm =>
      have hinherited := List.mem_flatMap.mpr ⟨_, hname, mem_methodsOf.mpr ⟨_, hancestor, hm⟩⟩
      simp [howner, hc, hstatic, hinherited]

theorem visibleMethods_eq (c : HostClass) (isStatic : Bool) :
    h.visibleMethods c isStatic
      = c.methods ++ if isStatic then [] else c.ancestors.flatMap h.methodsOf := by
  have hinherited : (c.ancestors.filterMap h.class?).flatMap (·.methods)
      = c.ancestors.flatMap h.methodsOf := by
    induction c.ancestors with
    | nil => rfl
    | cons name rest ih =>
      cases hname : h.class? name <;> simp [methodsOf, hname, ih]
  cases isStatic <;> simp [visibleMethods, hinherited]

theorem method_eq_select (h : Host) (r : MethodRequest) : h.method r = r.select (h.offered r) := by
  unfold method offered
  cases r.owner with
  | none => rfl
  | some owner =>
    cases hc : h.class? owner with
    | some c => simp only [hc, visibleMethods_eq]
    | none =>
      simp only [hc]
      rfl

theorem method_eq_ok_iff : h.method r = .ok m ↔ r.Chooses (h.offered r) m := by
  rw [method_eq_select, MethodRequest.select_eq_ok_iff]

theorem method_isOk_iff : (∃ m, h.method r = .ok m) ↔ ∃ m, h.Sees r m ∧ r.Fits m := by
  rw [method_eq_select, MethodRequest.select_isOk_iff]
  simp only [mem_offered, MethodRequest.matchedBy_iff]
  rfl

/-- Of a call without its argument types only their number is left. -/
theorem sees_fits_with_args {args : List Ty} (hlength : args.length = r.args.length) :
    (h.Sees { r with args } m ∧ MethodRequest.Fits { r with args } m) ↔ h.Sees r m ∧ r.Fits m := by
  have hsees : h.Sees { r with args } m ↔ h.Sees r m := by
    rw [← mem_offered, ← mem_offered]
    rfl
  rw [hsees]
  simp only [MethodRequest.Fits, hlength]

end Host

theorem Chain.method_of_no_host {chain : Chain} (hend : ∀ h, ¬ chain.EndsIn h) (r : MethodRequest) :
    chain.method r = .error (.unsolvedMethod r.text) := by
  induction chain with
  | nothing | emptyHost => rfl
  | host h => exact absurd .host (hend h)
  | source batch delegates outer ih => exact ih fun h houter => hend h (.source batch delegates houter)

/-- The host answers with the first method that fits and takes the arguments, or else the first that fits. -/
theorem Host.method_by_order (h : Host) (r : MethodRequest) :
    (∀ args : List Ty, args.length = r.args.length →
      ((∃ m, h.method { r with args } = .ok m) ↔ ∃ m, h.method r = .ok m)) ∧
    ((∃ m, h.method r = .ok m) ↔ ∃ m, h.Sees r m ∧ r.Fits m) ∧
    (∀ m, h.method r = .ok m → h.Sees r m ∧ r.Fits m ∧
      ((∃ other, h.Sees r other ∧ r.Fits other ∧ other.Takes r.args) →
        IsFirst (fun other => r.Fits other ∧ other.Takes r.args) (h.offered r) m) ∧
      ((¬ ∃ other, h.Sees r other ∧ r.Fits other ∧ other.Takes r.args) →
        IsFirst r.Fits (h.offered r) m)) ∧
    (∀ e, h.method r = .error e → e = .unsolvedMethod r.text) ∧
    ∀ chain : Chain,
      (chain.EndsIn h → chain.method r = h.method r) ∧
      ((∀ h', ¬ chain.EndsIn h') → chain.method r = .error (.unsolvedMethod r.text)) := by
  refine ⟨?_, Host.method_isOk_iff, ?_, ?_, ?_⟩
  · intro args hlength
    rw [method_isOk_iff, method_isOk_iff]
    exact exists_congr fun m => sees_fits_with_args hlength
  · intro m hm
    have hchosen := method_eq_ok_iff.mp hm
    obtain ⟨hmem, hfits⟩ := hchosen.mem
    refine ⟨mem_offered.mp hmem, hfits, ?_, ?_⟩
    · rintro ⟨other, hsees, hfits, htakes⟩
      rcases hchosen with hfirst | ⟨hnone, -⟩
      · exact hfirst
      · exact absurd htakes (hnone other (mem_offered.mpr hsees) hfits)
    · intro hnone
      rcases hchosen with hfirst | ⟨-, hfirst⟩
      · obtain ⟨hmem, hfits, htakes⟩ := hfirst.mem
        exact absurd ⟨m, mem_offered.mp hmem, hfits, htakes⟩ hnone
      · exact hfirst
  · intro e he
    rw [method_eq_select] at he
    exact MethodRequest.select_eq_error he
  · intro chain
    exact ⟨fun hend => hend.method_eq r, fun hend => Chain.method_of_no_host hend r⟩

/-! ## Overloads on two levels -/

/-- An animal takes anything that is an object, a cat a text or a number; what a pet is, nobody knows. -/
def zooHost : Host :=
  Host.empty.addClass ((HostClass.ofName "zoo.Animal").withMethod "feed" [.object] .void false)
    |>.addClass ((HostClass.ofName "zoo.Cat").extending ["zoo.Pet", "zoo.Animal"]
      |>.withMethod "feed" [.string] .boolean false
      |>.withMethod "feed" [.int] .boolean false)

/-- The call of `feed` on a cat. -/
def feedCat (arg : Ty) : MethodRequest := .onInstance "zoo.Cat" "feed" [arg]

def animalFeed : HostMethod := ⟨"zoo.Animal", "feed", [.object], .void, false⟩

def catFeed : HostMethod := ⟨"zoo.Cat", "feed", [.string], .boolean, false⟩

/-- An array is an object and goes to the method of the ancestor. Nothing takes a truth value, which
goes to the first method of the cat. -/
theorem Host.cat_fed :
    IsFirst (fun m => (feedCat (.array .int)).Fits m ∧ m.Takes [.array .int])
      (zooHost.offered (feedCat (.array .int))) animalFeed ∧
    IsFirst (feedCat .boolean).Fits (zooHost.offered (feedCat .boolean)) catFeed ∧
    (Chain.source (Batch.ofFiles 0 []) false (.host zooHost)).method (feedCat .boolean) = .ok catFeed := by
  obtain ⟨-, -, harray, -, -⟩ := Host.method_by_order zooHost (feedCat (.array .int))
  obtain ⟨-, -, hboolean, -, hchain⟩ := Host.method_by_order zooHost (feedCat .boolean)
  refine ⟨?_, ?_, ?_⟩
  · obtain ⟨hsees, hfits, hfirst, -⟩ := harray animalFeed rfl
    exact hfirst ⟨animalFeed, hsees, hfits, HostMethod.accepts_iff.mp (by decide)⟩
  · obtain ⟨-, -, -, hfirst⟩ := hboolean catFeed rfl
    refine hfirst ?_
    rintro ⟨other, hsees, -, htakes⟩
    have hrefused : ∀ m ∈ zooHost.offered (feedCat .boolean), m.accepts (feedCat .boolean).args = false := by
      decide
    rw [← HostMethod.accepts_iff, hrefused other (mem_offered.mpr hsees)] at htakes
    cases htakes
  · exact ((hchain _).1 (.source _ _ .host)).trans rfl

end SemanticCheck
