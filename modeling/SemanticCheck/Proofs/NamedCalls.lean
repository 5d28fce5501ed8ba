import SemanticCheck.Proofs.References
import SemanticCheck.Proofs.Subexpression

/-!
# Calls of declared names

A call through a plain name that no local has is decided by what the name stands for. A type makes a
value of itself. A function or a method of the host is chosen anew among those of its name, and one is
found exactly when the number of arguments fits. A name that stands for nothing cannot be called.
-/

namespace SemanticCheck

open TypingError (fail)

/-! ## Choosing a method -/

theorem MethodRequest.select_isOk_iff {r : MethodRequest} {candidates : List HostMethod} :
    (∃ m, r.select candidates = .ok m) ↔ ∃ m ∈ candidates, r.matchedBy m = true := by
  constructor
  · rintro ⟨m, hm⟩
    exact ⟨m, select_ok hm⟩
  · rintro ⟨m, hm⟩
    rw [← List.mem_filter] at hm
    simp only [select]
    cases hmatching : candidates.filter r.matchedBy with
    | nil => simp [hmatching] at hm
    | cons first rest =>
      cases (first :: rest).find? (·.accepts r.args) with
      | some accepting => exact ⟨accepting, rfl⟩
      | none => exact ⟨first, rfl⟩

theorem Scope.hostCall_isOk_iff {s : Scope} {r : MethodRequest} :
    (∃ type, s.hostCall r = .ok type) ↔ ∃ m, s.chain.method r = .ok m := by
  unfold hostCall
  cases s.chain.method r with
  | ok m => simp
  | error e => simp [fail]

/-! ## What the host offers -/

/-- The table has a function of the name with so many parameters. -/
def Host.HasFunction (h : Host) (name : String) (arity : Nat) : Prop :=
  ∃ f ∈ h.functions, f.name = name ∧ f.arity = arity

/-- The class itself has a static method of the name with so many parameters. -/
def HostClass.HasStatic (c : HostClass) (name : String) (arity : Nat) : Prop :=
  ∃ m ∈ c.methods, m.isStatic = true ∧ m.name = name ∧ m.arity = arity

instance (h : Host) (name : String) (arity : Nat) : Decidable (h.HasFunction name arity) :=
  inferInstanceAs (Decidable (∃ f ∈ h.functions, f.name = name ∧ f.arity = arity))

instance (c : HostClass) (name : String) (arity : Nat) : Decidable (c.HasStatic name arity) :=
  inferInstanceAs (Decidable (∃ m ∈ c.methods, m.isStatic = true ∧ m.name = name ∧ m.arity = arity))

namespace Host

variable {h : Host}

theorem Filled.method_function_isOk_iff (hfilled : h.Filled) (name : String) (args : List Ty) :
    (∃ m, h.method (.function name args) = .ok m) ↔ h.HasFunction name args.length := by
  simp only [Host.method, MethodRequest.function, MethodRequest.select_isOk_iff,
    MethodRequest.matchedBy_iff]
  constructor
  · rintro ⟨f, hf, hname, harity, -⟩
    exact ⟨f, hf, hname, harity⟩
  · rintro ⟨f, hf, hname, harity⟩
    exact ⟨f, hf, hname, harity, fun _ => (hfilled.functions f hf).2⟩

theorem method_onClass_isOk_iff {owner : String} {c : HostClass} (hc : h.class? owner = some c)
    (name : String) (args : List Ty) :
    (∃ m, h.method (.onClass owner name args) = .ok m) ↔ c.HasStatic name args.length := by
  simp only [Host.method, MethodRequest.onClass, hc, visibleMethods, if_true,
    MethodRequest.select_isOk_iff, MethodRequest.matchedBy_iff]
  constructor
  · rintro ⟨m, hm, hname, harity, hstatic⟩
    exact ⟨m, hm, hstatic trivial, hname, harity⟩
  · rintro ⟨m, hm, hstatic, hname, harity⟩
    exact ⟨m, hm, hname, harity, fun _ => hstatic⟩

/-- A method that a name stands for is a free function, or belongs to the class that owns it. -/
theorem Filled.method_cases (hfilled : h.Filled) {key : String} {m : HostMethod}
    (hm : (Chain.host h).symbol? key = some (.host (.method m))) :
    m ∈ h.functions ∨ ∃ c, h.class? m.owner = some c ∧ m ∈ c.methods := by
  obtain ⟨classes, functions, hwith, hadded⟩ := hfilled
  cases hwith.symbol_iff.mp hm with
  | ofFunction _ hfirst =>
    left
    rw [hwith.functions_eq]
    exact hfirst.mem.1
  | @ofMethod c name _ hinto _ hfirst =>
    right
    have howner := (hadded c hinto.latest.mem.1).1.owner m hfirst.mem.1
    exact ⟨c, by rw [howner, hwith.class_eq_some_iff.mpr hinto.latest], hfirst.mem.1⟩

end Host

/-! ## Chains -/

theorem Chain.exists_host {chain : Chain} {key : String} {m : HostMember}
    (hm : chain.symbol? key = some (.host m)) :
    ∃ h, chain.EndsIn h ∧ (Chain.host h).symbol? key = some (.host m) := by
  induction chain with
  | nothing | emptyHost => cases hm
  | host h => exact ⟨h, .host, hm⟩
  | source batch delegates outer ih =>
    simp only [symbol?] at hm
    split at hm
    · rename_i symbol hsymbol
      cases hm
      rw [batch.indexed] at hsymbol
      rcases SemanticCheck.symbol_cases hsymbol with ⟨d, -, heq⟩ | ⟨d, -, heq⟩ | ⟨d, -, heq⟩ | ⟨d, -, heq⟩
      all_goals cases heq
    · obtain ⟨h, hend, hsymbol⟩ := ih hm
      exact ⟨h, .source batch delegates hend, hsymbol⟩

theorem Chain.EndsIn.filled {chain : Chain} {h : Host} (hend : chain.EndsIn h)
    (hfilled : chain.Filled) : h.Filled := by
  induction hend with
  | host => exact hfilled
  | source batch delegates _ ih => exact ih hfilled

/-! ## Calls -/

namespace Scope

variable {s : Scope} {env : TypeEnv}

theorem length_argumentTypes {args : List Argument} {types : List Ty}
    (h : s.argumentTypes env args = .ok types) : types.length = args.length := by
  induction args generalizing types with
  | nil =>
    rw [argumentTypes] at h
    cases h
    rfl
  | cons arg rest ih =>
    obtain ⟨name, value, pos⟩ := arg
    rw [argumentTypes] at h
    obtain ⟨type, -, h⟩ := bind_ok h
    obtain ⟨restTypes, hrest, h⟩ := bind_ok h
    cases h
    rw [List.length_cons, List.length_cons, ih hrest]

/-- A call through a name that no local has goes by what is declared. -/
theorem typeOf_call_name {name : String} (hlocal : env.lookup? name = none) {args : List Argument}
    {types : List Ty} (hargs : s.argumentTypes env args = .ok types) (calleePos pos : Option Position) :
    s.typeOf env (.call (.name name calleePos) args pos) = s.namedCall name types := by
  rw [typeOf, hargs]
  simp [bind, Except.bind, directCall?, hlocal]

theorem typeOf_creation_of_args {args : List Argument} {types : List Ty}
    (hargs : s.argumentTypes env args = .ok types) (name : String) (pos : Option Position) :
    s.typeOf env (.creation name args pos) = s.creationType name := by
  rw [typeOf, hargs]
  simp only [bind, Except.bind]

theorem namedCall_of_unknown {name : String} (hunknown : s.value? name = none) (types : List Ty) :
    s.namedCall name types = fail (.unsolvedMethod name) := by
  simp only [namedCall, hunknown, hostCall]
  cases hmethod : s.chain.method (.function name types) with
  | ok m => exact absurd hmethod (method_function_of_unknown hunknown types m)
  | error e => rfl

theorem type_of_value {name : String} {t : TypeDef} (h : s.value? name = some (.type t))
    (hfield : ∀ i ∈ s.file.imports, ¬ i.NamesField name) : s.type? name = some t := by
  rw [value?, SourceFile.candidates_of_no_field hfield] at h
  exact Chain.findSome_type_of_symbol h

section HostMethods

variable {h : Host} {name : String} {m : HostMethod}

theorem exists_host_method (hfilled : s.chain.Filled) (hvalue : s.value? name = some (.host (.method m))) :
    ∃ h, s.chain.EndsIn h ∧ h.Filled ∧
      (m ∈ h.functions ∨ ∃ c, h.class? m.owner = some c ∧ m ∈ c.methods) := by
  obtain ⟨key, -, hkey⟩ := List.exists_of_findSome?_eq_some hvalue
  obtain ⟨h, hend, hsymbol⟩ := Chain.exists_host hkey
  have hhost := hend.filled hfilled
  exact ⟨h, hend, hhost, hhost.method_cases hsymbol⟩

variable (hvalue : s.value? name = some (.host (.method m))) (hend : s.chain.EndsIn h)
  (hfilled : h.Filled)

include hvalue hend hfilled

theorem namedCall_function_isOk_iff (hm : m ∈ h.functions) (types : List Ty) :
    (∃ type, s.namedCall name types = .ok type) ↔ h.HasFunction m.name types.length := by
  -- Of the function that was found only the name is kept: the host looks again, by arity.
  have howner : m.owner = "" := (hfilled.functions m hm).1
  simp only [namedCall, hvalue, HostMethod.request, String.isEmpty_iff, if_pos howner]
  rw [hostCall_isOk_iff, hend.method_eq]
  exact hfilled.method_function_isOk_iff m.name types

theorem namedCall_member_isOk_iff {c : HostClass} (hc : h.class? m.owner = some c)
    (types : List Ty) :
    (∃ type, s.namedCall name types = .ok type) ↔ c.HasStatic m.name types.length := by
  have howner : m.owner ≠ "" := by
    rw [← Host.class_name hc]
    exact (hfilled.classes c (List.mem_of_find?_eq_some hc)).2
  simp only [namedCall, hvalue, HostMethod.request, String.isEmpty_iff, if_neg howner]
  rw [hostCall_isOk_iff, hend.method_eq]
  exact Host.method_onClass_isOk_iff hc m.name types

end HostMethods

/-- A call through a name that is not local is decided by what the name stands for. -/
theorem typeOf_call_by_name (s : Scope) (hfilled : s.chain.Filled) (env : TypeEnv) (name : String)
    (hlocal : env.lookup? name = none) (args : List Argument) (types : List Ty)
    (hargs : s.argumentTypes env args = .ok types) (calleePos callPos pos : Option Position) :
    let call := s.typeOf env (.call (.name name calleePos) args callPos)
    (s.value? name = none → call = .error (.type (.unsolvedMethod name))) ∧
    (∀ m, s.value? name = some (.host (.method m)) → ∃ h, s.chain.EndsIn h ∧
      (m ∈ h.functions ∨ ∃ c, h.class? m.owner = some c ∧ m ∈ c.methods) ∧
      (m ∈ h.functions → ((∃ type, call = .ok type) ↔ h.HasFunction m.name args.length)) ∧
      ∀ c, h.class? m.owner = some c → m ∈ c.methods →
        ((∃ type, call = .ok type) ↔ c.HasStatic m.name args.length)) ∧
    ∀ t, s.value? name = some (.type t) → (∀ i ∈ s.file.imports, ¬ i.NamesField name) →
      call = .ok t.type ∧ s.typeOf env (.creation name args pos) = .ok t.type := by
  rw [typeOf_call_name hlocal hargs, ← length_argumentTypes hargs]
  refine ⟨fun hunknown => namedCall_of_unknown hunknown types, ?_, ?_⟩
  · intro m hvalue
    obtain ⟨h, hend, hhost, horigin⟩ := exists_host_method hfilled hvalue
    refine ⟨h, hend, horigin, ?_, ?_⟩
    · intro hm
      exact namedCall_function_isOk_iff hvalue hend hhost hm types
    · intro c hc _
      exact namedCall_member_isOk_iff hvalue hend hhost hc types
  · intro t hvalue hfield
    constructor
    · simp only [namedCall, hvalue]
    · rw [typeOf_creation_of_args hargs]
      simp only [creationType, type_of_value hvalue hfield]

/-! ## Calls of a small host -/

/-- The classes of every program, and a function with two arities. -/
def tallyHost : Host :=
  (Host.javaLang.addFunction "log" [.string] .void).addFunction "log" [.string, .int] .int

def tallyFile : SourceFile where
  namespaceName := ⟨["tally"], by decide, by decide⟩
  imports := []
  members := []
  pos := none

def tallyScope : Scope := ⟨.source (Batch.ofFiles 0 [tallyFile]) false (.host tallyHost), tallyFile⟩

/-- One argument, a text. -/
def tallyArgs : List Argument := [.mk none (.literal (.string "done") none) none]

def tallyCall (name : String) : Typed Ty :=
  tallyScope.typeOf .empty (.call (.name name none) tallyArgs none)

theorem tally_calls :
    tallyScope.chain.Filled ∧
    tallyScope.argumentTypes .empty tallyArgs = .ok [.string] ∧
    tallyCall "missing" = .error (.type (.unsolvedMethod "missing")) ∧
    (∃ type, tallyCall "log" = .ok type) ∧
    (¬ ∃ type, tallyCall "java.lang.Math.max" = .ok type) ∧
    tallyCall "Integer" = .ok (.reference "java.lang.Integer" [objectName]) := by
  have hfilled : tallyScope.chain.Filled :=
    (Host.filled_javaLang.addFunction "log" _ _).addFunction "log" _ _
  have hargs : tallyScope.argumentTypes .empty tallyArgs = .ok [.string] := rfl
  have hcall := fun name => typeOf_call_by_name tallyScope hfilled .empty name rfl tallyArgs _ hargs
    none none none
  have hend : ∀ h, tallyScope.chain.EndsIn h → h = tallyHost := by
    intro h hend
    cases hend with
    | source _ _ hhost =>
      cases hhost
      rfl
  refine ⟨hfilled, hargs, (hcall "missing").1 rfl, ?_, ?_, ?_⟩
  · obtain ⟨h, hh, -, hfunction, -⟩ := (hcall "log").2.1 _ rfl
    obtain rfl := hend h hh
    exact (hfunction (by simp [tallyHost, Host.addFunction])).mpr (by decide)
  · obtain ⟨h, hh, -, -, hmember⟩ := (hcall "java.lang.Math.max").2.1 _ rfl
    obtain rfl := hend h hh
    have hmax := hmember Host.JavaLang.mathClass rfl
      (by simp [Host.JavaLang.mathClass, HostClass.withMethod])
    exact fun htyped => absurd (hmax.mp htyped) (by decide)
  · exact ((hcall "Integer").2.2 _ rfl (by simp [tallyScope, tallyFile])).1

end Scope

end SemanticCheck
