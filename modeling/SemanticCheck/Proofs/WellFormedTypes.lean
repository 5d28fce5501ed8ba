import SemanticCheck.Proofs.Children
import SemanticCheck.Proofs.References
import SemanticCheck.Proofs.Settled
import SemanticCheck.Proofs.Subexpression

/-!
# Types that are declared

A type is well formed when every type it refers to is found in the chain. Whatever an expression is typed
by (a literal, a local name, an annotation in some file, a member of the host), its type is built from the
qualified names of what was found, so it is well formed again. A value of reference type therefore always
has a declared type to look its members up in.
-/

namespace SemanticCheck

/-- Every type that is referred to is found. -/
abbrev Ty.WellFormedIn (chain : Chain) (type : Ty) : Prop :=
  type.EachReference fun name _ => (chain.type? name).isSome = true

/-! ## Closed hosts -/

/-- A host with a class for texts and for all that the types of its members refer to. -/
structure Host.Closed (h : Host) : Prop where
  string : Ty.string.WellFormedIn (.host h)
  fields : ∀ c ∈ h.classes, ∀ f ∈ c.fields, f.type.WellFormedIn (.host h)
  methods : ∀ c ∈ h.classes, ∀ m ∈ c.methods, m.type.WellFormedIn (.host h)
  functions : ∀ f ∈ h.functions, f.type.WellFormedIn (.host h)

theorem Host.closed_javaLang : javaLang.Closed where
  string := by decide
  fields := by decide
  methods := by decide
  functions := by decide

namespace Host.Closed

variable {h : Host} (hclosed : h.Closed)

include hclosed

theorem method {r : MethodRequest} {m : HostMethod} (hm : h.method r = .ok m) :
    m.type.WellFormedIn (.host h) := by
  unfold Host.method at hm
  split at hm
  · exact hclosed.functions m (MethodRequest.select_ok hm).1
  · split at hm
    · rename_i c hc
      have hown := List.mem_of_find?_eq_some hc
      have hmem := (MethodRequest.select_ok hm).1
      unfold Host.visibleMethods at hmem
      split at hmem
      · exact hclosed.methods c hown m hmem
      · rcases List.mem_append.mp hmem with hmem | hmem
        · exact hclosed.methods c hown m hmem
        · obtain ⟨ancestor, hancestor, hmem⟩ := List.mem_flatMap.mp hmem
          obtain ⟨name, -, hname⟩ := List.mem_filterMap.mp hancestor
          exact hclosed.methods ancestor (List.mem_of_find?_eq_some hname) m hmem
    · cases hm

theorem member {name : String} {m : HostMember} (hm : h.member? name = some m) :
    m.type.WellFormedIn (.host h) := by
  simp only [Host.member?, Option.bind_eq_bind, Option.bind_eq_some_iff, Prod.exists] at hm
  obtain ⟨owner, simple, -, c, hc, hmember⟩ := hm
  have hown := List.mem_of_find?_eq_some hc
  split at hmember
  · rename_i f hf
    obtain rfl := Option.some.inj hmember
    exact hclosed.fields c hown f (List.mem_of_find?_eq_some hf)
  · obtain ⟨method, hmethod, rfl⟩ := Option.map_eq_some_iff.mp hmember
    exact hclosed.methods c hown method (List.mem_of_find?_eq_some hmethod)

theorem symbol {key : String} {m : HostMember} (hm : (Chain.host h).symbol? key = some (.host m)) :
    m.type.WellFormedIn (.host h) := by
  unfold Chain.symbol? at hm
  split at hm
  · cases hm
  · split at hm
    · rename_i f hf
      cases hm
      exact hclosed.functions f (List.mem_of_find?_eq_some hf)
    · obtain ⟨m', hm', heq⟩ := Option.map_eq_some_iff.mp hm
      cases heq
      exact hclosed.member hm'

end Host.Closed

/-! ## What is found -/

theorem Chain.type_wellFormed {chain : Chain} {key : String} {t : TypeDef}
    (ht : chain.type? key = some t) : t.type.WellFormedIn chain := by
  rw [TypeDef.type_eq]
  refine Ty.eachReference_reference.mpr ?_
  rw [type_qualifiedName ht, ht]
  rfl

theorem Chain.EndsIn.wellFormed {chain : Chain} {h : Host} (hend : chain.EndsIn h) {type : Ty}
    (ht : type.WellFormedIn (.host h)) : type.WellFormedIn chain := by
  intro r hr
  refine hend.type_isSome ?_
  simpa [Chain.type?] using ht r hr

theorem Scope.type_found {s : Scope} {name : String} {t : TypeDef} (ht : s.type? name = some t) :
    ∃ key, s.chain.type? key = some t := by
  obtain ⟨key, -, hkey⟩ := List.exists_of_findSome?_eq_some ht
  exact ⟨key, hkey⟩

theorem map_ok {ε α β : Type} {f : α → β} {r : Except ε α} {b : β} (h : r.map f = .ok b) :
    ∃ a, r = .ok a ∧ f a = b := by
  cases r with
  | ok a => exact ⟨a, rfl, Except.ok.inj h⟩
  | error e => cases h

theorem exists_of_mapM_ok {ε α β : Type} {f : α → Except ε β} {l : List α} {ys : List β}
    (h : l.mapM f = .ok ys) : ∀ y ∈ ys, ∃ x ∈ l, f x = .ok y := by
  induction l generalizing ys with
  | nil =>
    cases h
    simp
  | cons x rest ih =>
    rw [List.mapM_cons] at h
    obtain ⟨y, hy, h⟩ := bind_ok h
    obtain ⟨ys', hys, h⟩ := bind_ok h
    cases h
    simp only [List.mem_cons, forall_eq_or_imp, exists_eq_or_imp]
    exact ⟨.inl hy, fun z hz => .inr (ih hys z hz)⟩

section Found

variable {chain : Chain} {h : Host} (hend : chain.EndsIn h) (hclosed : h.Closed)

include hend hclosed

theorem Scope.denote_wellFormed (file : SourceFile) {a : TypeExpr} {type : Ty}
    (ha : (Scope.mk chain file).denote a = .ok type) : type.WellFormedIn chain := by
  induction a generalizing type with
  | primitive name pos =>
    unfold denote at ha
    split at ha
    · cases ha
      exact Ty.eachReference_primitive _
    · split at ha
      · cases ha
        exact hend.wellFormed hclosed.string
      · cases ha
  | reference name pos =>
    unfold denote at ha
    split at ha
    · rename_i t ht
      cases ha
      obtain ⟨key, hkey⟩ := type_found ht
      exact Chain.type_wellFormed hkey
    · cases ha
  | array component pos ih =>
    unfold denote at ha
    obtain ⟨held, hheld, rfl⟩ := map_ok ha
    exact Ty.eachReference_array.mpr (ih hheld)
  | void pos =>
    unfold denote at ha
    cases ha
    exact Ty.eachReference_void

theorem Scope.signature_wellFormed (file : SourceFile) {r : Routine} {params : List Ty} {result : Ty}
    (hr : (Scope.mk chain file).signature r = .ok (params, result)) :
    (Ty.function params result).WellFormedIn chain := by
  unfold signature at hr
  obtain ⟨params', hparams, hr⟩ := bind_ok hr
  obtain ⟨result', hresult, hr⟩ := bind_ok hr
  cases hr
  refine Ty.eachReference_function.mpr ⟨fun param hparam => ?_, denote_wellFormed hend hclosed file hresult⟩
  obtain ⟨p, -, hp⟩ := exists_of_mapM_ok hparams param hparam
  exact denote_wellFormed hend hclosed file hp

theorem Symbol.typeIn_wellFormed {key : String} {symbol : Symbol}
    (hs : chain.symbol? key = some symbol) {type : Ty} (ht : symbol.typeIn chain = .ok type) :
    type.WellFormedIn chain := by
  cases symbol with
  | type t =>
    cases ht
    exact Chain.type_wellFormed (Chain.type_of_symbol hs)
  | property d => exact Scope.denote_wellFormed hend hclosed d.file ht
  | function d =>
    obtain ⟨signature, hsignature, rfl⟩ := map_ok ht
    exact Scope.signature_wellFormed hend hclosed d.file hsignature
  | program d =>
    cases ht
    have hstring := hend.wellFormed hclosed.string
    exact Ty.eachReference_function.mpr ⟨by simpa using hstring, Ty.eachReference_void⟩
  | host m =>
    cases ht
    rcases hend.symbol_cases hs with hplace | hhost
    · cases hplace
    · exact hend.wellFormed (hclosed.symbol hhost)
  | localName name type =>
    rcases hend.symbol_cases hs with hplace | hhost
    · cases hplace
    · unfold Chain.symbol? at hhost
      split at hhost
      · cases hhost
      · split at hhost
        · cases hhost
        · simp at hhost

theorem Chain.EndsIn.field_wellFormed {key : String} {c : HostClass} {f : HostField}
    (ht : chain.type? key = some (.host c)) (hf : f ∈ c.fields) : f.type.WellFormedIn chain := by
  have hc : c ∈ h.classes := List.mem_of_find?_eq_some (hend.class_of_type ht)
  exact hend.wellFormed (hclosed.fields c hc f hf)

theorem TypeDef.fieldType_wellFormed {key field : String} {t : TypeDef} {type : Ty}
    (ht : chain.type? key = some t) (hfield : t.fieldType? chain field = some (.ok type)) :
    type.WellFormedIn chain := by
  cases t with
  | source d =>
    simp only [fieldType?] at hfield
    split at hfield
    · exact Scope.denote_wellFormed hend hclosed d.file (Option.some.inj hfield)
    · obtain ⟨r, -, hr⟩ := Option.map_eq_some_iff.mp hfield
      split at hr
      · rename_i p hp
        exact Scope.denote_wellFormed hend hclosed p.file hr
      · cases hr
  | host c =>
    obtain ⟨f, hf, hok⟩ := Option.map_eq_some_iff.mp hfield
    obtain rfl := Except.ok.inj hok
    exact hend.field_wellFormed hclosed ht (List.mem_of_find?_eq_some hf)

theorem TypeDef.staticFieldType_wellFormed {key field : String} {t : TypeDef} {type : Ty}
    (ht : chain.type? key = some t) (hfield : t.staticFieldType? field = some type) :
    type.WellFormedIn chain := by
  cases t with
  | source d => cases hfield
  | host c =>
    obtain ⟨f, hf, rfl⟩ := Option.map_eq_some_iff.mp hfield
    exact hend.field_wellFormed hclosed ht (List.mem_of_find?_eq_some hf)

end Found

/-! ## Results -/

/-- A result of one kind, or a failure of another. -/
structure Meets {α : Type} (Q : α → Prop) (E : TypingError → Prop) (r : Typed α) : Prop where
  ok : ∀ {a}, r = .ok a → Q a
  error : ∀ {e}, r = .error e → E e

section Meets

variable {α β : Type} {Q : α → Prop} {R : β → Prop} {E E' : TypingError → Prop}

theorem meets_ok {a : α} (h : Q a) : Meets Q E (.ok a) where
  ok heq := by cases heq; exact h
  error heq := by cases heq

theorem meets_error {e : TypingError} (h : E e) : Meets Q E (.error e) where
  ok heq := by cases heq
  error heq := by cases heq; exact h

theorem meets_bind {r : Typed α} {next : α → Typed β} (hr : Meets Q E r)
    (hnext : ∀ a, r = .ok a → Q a → Meets R E (next a)) : Meets R E (r >>= next) := by
  cases r with
  | ok a => exact hnext a rfl (hr.ok rfl)
  | error e => exact meets_error (hr.error rfl)

theorem Meets.imp {r : Typed α} (h : Meets Q E r) (hE : ∀ e, E e → E' e) : Meets Q E' r where
  ok := h.ok
  error herror := hE _ (h.error herror)

end Meets

/-- Some other cause than the want of a type. -/
def OtherCause (e : TypingError) : Prop := ∀ name, e ≠ .type (.notAType name)

theorem meets_fail {α : Type} {Q : α → Prop} {e : TypeError} (h : ∀ name, e ≠ .notAType name) :
    Meets Q OtherCause (TypingError.fail e) :=
  meets_error fun name heq => h name (TypingError.type.inj heq)

theorem meets_resolved {α : Type} {Q : α → Prop} {r : Except ResolutionError α}
    (h : ∀ a, r = .ok a → Q a) : Meets Q OtherCause (resolved r) := by
  cases r with
  | ok a => exact meets_ok (h a rfl)
  | error e => exact meets_error (by simp [OtherCause])

/-! ## Operators and calls -/

theorem meets_mathType {chain : Chain} (hstring : Ty.string.WellFormedIn chain) (op : MathOperator)
    (left right : Ty) : Meets (Ty.WellFormedIn chain) OtherCause (mathType op left right) := by
  unfold mathType
  split
  · exact meets_ok hstring
  · split
    · split
      · exact meets_ok (Ty.eachReference_primitive _)
      · exact meets_fail (by simp)
    · exact meets_fail (by simp)

theorem meets_logicType (chain : Chain) (op : LogicOperator) (left right : Ty) :
    Meets (Ty.WellFormedIn chain) OtherCause (logicType op left right) := by
  unfold logicType
  split
  · exact meets_ok (Ty.eachReference_primitive _)
  · exact meets_fail (by simp)

theorem meets_relationalType (chain : Chain) (op : RelationalOperator) (left right : Ty) :
    Meets (Ty.WellFormedIn chain) OtherCause (relationalType op left right) := by
  unfold relationalType
  split
  · exact meets_ok (Ty.eachReference_primitive _)
  · exact meets_fail (by simp)

theorem meets_operator {chain : Chain} (hstring : Ty.string.WellFormedIn chain) (op : BinaryOperator)
    (left right : Ty) : Meets (Ty.WellFormedIn chain) OtherCause (op.type left right) := by
  cases op with
  | math op => exact meets_mathType hstring op left right
  | logic op => exact meets_logicType chain op left right
  | relational op => exact meets_relationalType chain op left right

theorem meets_negationType (chain : Chain) (operand : Ty) :
    Meets (Ty.WellFormedIn chain) OtherCause (negationType operand) := by
  unfold negationType
  split
  · exact meets_ok (Ty.eachReference_primitive _)
  · exact meets_fail (by simp)

theorem meets_componentOf {chain : Chain} {array : Ty} (harray : array.WellFormedIn chain) :
    Meets (Ty.WellFormedIn chain) OtherCause (componentOf array) := by
  cases array with
  | array component => exact meets_ok (Ty.eachReference_array.mp harray)
  | _ => exact meets_fail (by simp)

theorem meets_checkIndex (index : Ty) : Meets (fun _ => True) OtherCause (checkIndex index) := by
  unfold checkIndex
  split
  · exact meets_ok trivial
  · exact meets_fail (by simp)

theorem meets_invoke {chain : Chain} {callee : Ty} (hcallee : callee.WellFormedIn chain) (name : String)
    (args : List Ty) : Meets (Ty.WellFormedIn chain) OtherCause (invoke name callee args) := by
  cases callee with
  | function params result =>
    simp only [invoke, Ty.signature?]
    split
    · exact meets_ok (Ty.eachReference_function.mp hcallee).2
    · exact meets_fail (by simp)
  | _ => exact meets_fail (by simp)

namespace Scope

section Calls

variable {s : Scope} {h : Host} (hend : s.chain.EndsIn h) (hclosed : h.Closed)

include hend hclosed

theorem method_wellFormed {r : MethodRequest} {m : HostMethod} (hm : s.chain.method r = .ok m) :
    m.result.WellFormedIn s.chain := by
  rw [hend.method_eq] at hm
  exact (Ty.eachReference_function.mp (hend.wellFormed (hclosed.method hm))).2

theorem meets_hostCall (r : MethodRequest) :
    Meets (Ty.WellFormedIn s.chain) OtherCause (s.hostCall r) := by
  unfold hostCall
  split
  · rename_i m hm
    exact meets_ok (method_wellFormed hend hclosed hm)
  · exact meets_fail (by simp)

theorem meets_staticCall (owner : TypeDef) (method : String) (args : List Ty) :
    Meets (Ty.WellFormedIn s.chain) OtherCause (s.staticCall owner method args) := by
  cases owner with
  | source d => exact meets_fail (by simp)
  | host c => exact meets_hostCall hend hclosed _

theorem meets_sourceCall (d : Declared TypeDefinition) (method : String) (subject : Ty)
    (args : List Ty) :
    Meets (Ty.WellFormedIn s.chain) OtherCause (s.sourceCall (.source d) method subject args) := by
  unfold sourceCall
  split
  · rename_i declared hdeclared
    obtain ⟨r, -, rfl⟩ := List.mem_map.mp (List.mem_of_mem_head? hdeclared)
    refine meets_bind (Q := fun signature => (Ty.function signature.1 signature.2).WellFormedIn s.chain)
      (meets_resolved fun signature hsignature => ?_) fun signature _ hsignature => ?_
    · exact signature_wellFormed hend hclosed d.file hsignature
    · exact meets_invoke hsignature _ _
  · split
    · rename_i m hm
      exact meets_ok (method_wellFormed hend hclosed hm)
    · exact meets_fail (by simp)

omit hclosed hend in
/-- A value of a well formed type has a declared type. -/
theorem meets_ownerOf {name : String} (hname : (s.chain.type? name).isSome) :
    Meets (fun owner => s.chain.type? name = some owner) OtherCause (s.ownerOf name) := by
  obtain ⟨owner, howner⟩ := Option.isSome_iff_exists.mp hname
  simp only [ownerOf, howner]
  exact meets_ok rfl

theorem meets_instanceCall {subject : Ty} (hsubject : subject.WellFormedIn s.chain) (method : String)
    (args : List Ty) :
    Meets (Ty.WellFormedIn s.chain) OtherCause (s.instanceCall subject method args) := by
  cases subject with
  | reference name ancestors =>
    refine meets_bind (meets_ownerOf (Ty.eachReference_reference.mp hsubject)) fun owner _ _ => ?_
    cases owner with
    | source d => exact meets_sourceCall hend hclosed d method _ args
    | host c => exact meets_hostCall hend hclosed _
  | _ => exact meets_fail (by simp)

theorem meets_fieldType {subject : Ty} (hsubject : subject.WellFormedIn s.chain) (field : String) :
    Meets (Ty.WellFormedIn s.chain) OtherCause (s.fieldType subject field) := by
  cases subject with
  | reference name ancestors =>
    refine meets_bind (meets_ownerOf (Ty.eachReference_reference.mp hsubject)) fun owner _ howner => ?_
    split
    · rename_i found hfound
      refine meets_resolved fun type htype => ?_
      rw [htype] at hfound
      exact TypeDef.fieldType_wellFormed hend hclosed howner hfound
    · exact meets_fail (by simp)
  | array component =>
    simp only [fieldType]
    split
    · exact meets_ok (Ty.eachReference_primitive _)
    · exact meets_fail (by simp)
  | _ => exact meets_fail (by simp)

theorem meets_valueType {env : TypeEnv}
    (henv : ∀ name type, env.lookup? name = some type → type.WellFormedIn s.chain) (name : String) :
    Meets (Ty.WellFormedIn s.chain) OtherCause (s.valueType env name) := by
  unfold valueType
  split
  · rename_i type htype
    exact meets_ok (henv name type htype)
  · split
    · rename_i symbol hsymbol
      obtain ⟨key, hkey⟩ := value_found hsymbol
      exact meets_resolved fun type htype => Symbol.typeIn_wellFormed hend hclosed hkey htype
    · exact meets_fail (by simp)

theorem meets_namedCall (name : String) (args : List Ty) :
    Meets (Ty.WellFormedIn s.chain) OtherCause (s.namedCall name args) := by
  unfold namedCall
  split
  · rename_i t ht
    obtain ⟨key, hkey⟩ := value_found ht
    exact meets_ok (Chain.type_wellFormed (Chain.type_of_symbol hkey))
  · exact meets_hostCall hend hclosed _
  · rename_i symbol _ _ hsymbol
    obtain ⟨key, hkey⟩ := value_found hsymbol
    refine meets_bind (meets_resolved fun type htype =>
      Symbol.typeIn_wellFormed hend hclosed hkey htype) fun callee _ hcallee => ?_
    exact meets_invoke hcallee name args
  · exact meets_hostCall hend hclosed _

end Calls

end Scope

/-! ## Types as written -/

/-- The name is written in the node for a type, to make a value of it or to use a static member. -/
def Node.NamesType (node : Node) (name : String) : Prop :=
  (∃ args pos, .expression (.creation name args pos) ∈ node.tree.preorder) ∨
    ∃ t : TypeIdentifier, .typeIdentifier t ∈ node.tree.preorder ∧ t.qualifiedName = name

theorem Node.NamesType.of_child {node child : Node} {name : String} (hchild : child ∈ node.children)
    (h : child.NamesType name) : node.NamesType name := by
  rcases h with ⟨args, pos, hmem⟩ | ⟨t, hmem, hname⟩
  · exact .inl ⟨args, pos, mem_preorder_of_mem_child hchild hmem⟩
  · exact .inr ⟨t, mem_preorder_of_mem_child hchild hmem, hname⟩

/-- A want of a type is that of one written in the node, which stands for nothing. -/
def Scope.WrittenCause (s : Scope) (node : Node) (e : TypingError) : Prop :=
  ∀ name, e = .type (.notAType name) → s.type? name = none ∧ node.NamesType name

section WrittenCause

variable {α : Type} {Q : α → Prop} {r : Typed α} {s : Scope}

theorem Meets.written (h : Meets Q OtherCause r) {node : Node} : Meets Q (s.WrittenCause node) r :=
  h.imp fun _ he name heq => absurd heq (he name)

/-- What a part lacks is written in the part, and so in the whole. -/
theorem Meets.of_child {node child : Node} (h : Meets Q (s.WrittenCause child) r)
    (hchild : child ∈ node.children) : Meets Q (s.WrittenCause node) r := by
  refine h.imp fun e he name heq => ?_
  obtain ⟨hnone, hnames⟩ := he name heq
  exact ⟨hnone, hnames.of_child hchild⟩

theorem Meets.of_argument {node : Node} {arg : Argument}
    (h : Meets Q (s.WrittenCause (.expression arg.value)) r) (harg : .argument arg ∈ node.children) :
    Meets Q (s.WrittenCause node) r := by
  have hvalue : .expression arg.value ∈ (Node.argument arg).children := List.mem_singleton.mpr rfl
  exact (h.of_child hvalue).of_child harg

end WrittenCause

namespace Scope

variable {s : Scope}

theorem meets_identified (t : TypeIdentifier) :
    Meets (fun owner => ∃ key, s.chain.type? key = some owner) (s.WrittenCause (.typeIdentifier t))
      (s.identified t) := by
  unfold identified
  split
  · rename_i found hfound
    exact meets_ok (type_found hfound)
  · rename_i hnone
    refine meets_error fun name heq => ?_
    cases heq
    exact ⟨hnone, .inr ⟨t, Node.mem_preorder_self _, rfl⟩⟩

theorem meets_subject (subject : TypeIdentifier) (field : String) (pos : Option Position) :
    Meets (fun owner => ∃ key, s.chain.type? key = some owner)
      (s.WrittenCause (.expression (.staticField subject field pos))) (s.identified subject) := by
  have hchild : .typeIdentifier subject ∈ (Node.expression (.staticField subject field pos)).children :=
    List.mem_singleton.mpr rfl
  exact (meets_identified subject).of_child hchild

theorem meets_creationType (typeName : String) (args : List Argument) (pos : Option Position) :
    Meets (Ty.WellFormedIn s.chain) (s.WrittenCause (.expression (.creation typeName args pos)))
      (s.creationType typeName) := by
  unfold creationType
  split
  · rename_i t ht
    obtain ⟨key, hkey⟩ := type_found ht
    exact meets_ok (Chain.type_wellFormed hkey)
  · rename_i hnone
    refine meets_error fun name heq => ?_
    cases heq
    exact ⟨hnone, .inl ⟨args, pos, Node.mem_preorder_self _⟩⟩

/-! ## Expressions -/

theorem meets_typesOf {env : TypeEnv} {E : TypingError → Prop} {es : List Expr}
    (h : ∀ e ∈ es, Meets (Ty.WellFormedIn s.chain) E (s.typeOf env e)) :
    Meets (fun _ => True) E (s.typesOf env es) := by
  induction es with
  | nil =>
    rw [typesOf]
    exact meets_ok trivial
  | cons e rest ih =>
    obtain ⟨hfirst, hrest⟩ := List.forall_mem_cons.mp h
    rw [typesOf]
    refine meets_bind hfirst fun _ _ _ => ?_
    exact meets_bind (ih hrest) fun _ _ _ => meets_ok trivial

theorem meets_argumentTypes {env : TypeEnv} {E : TypingError → Prop} {args : List Argument}
    (h : ∀ arg ∈ args, Meets (Ty.WellFormedIn s.chain) E (s.typeOf env arg.value)) :
    Meets (fun _ => True) E (s.argumentTypes env args) := by
  induction args with
  | nil =>
    rw [argumentTypes]
    exact meets_ok trivial
  | cons arg rest ih =>
    obtain ⟨name, value, pos⟩ := arg
    obtain ⟨hfirst, hrest⟩ := List.forall_mem_cons.mp h
    rw [argumentTypes]
    refine meets_bind hfirst fun _ _ _ => ?_
    exact meets_bind (ih hrest) fun _ _ _ => meets_ok trivial

section Expressions

variable {h : Host} (hend : s.chain.EndsIn h) (hclosed : h.Closed) {env : TypeEnv}

include hend hclosed

theorem meets_directCall {args : List Ty} {callee : Expr} {result : Typed Ty}
    (hresult : s.directCall? env args callee = some result) :
    Meets (Ty.WellFormedIn s.chain) (s.WrittenCause (.expression callee)) result := by
  cases callee with
  | staticField subject field pos =>
    obtain rfl := Option.some.inj hresult
    refine meets_bind (meets_subject subject field pos) ?_
    intro owner _ _
    exact (meets_staticCall hend hclosed owner field args).written
  | name name pos =>
    simp only [directCall?] at hresult
    split at hresult
    · cases hresult
    · obtain rfl := Option.some.inj hresult
      exact (meets_namedCall hend hclosed name args).written
  | _ => cases hresult

theorem meets_staticFieldType (subject : TypeIdentifier) (field : String) (pos : Option Position) :
    Meets (Ty.WellFormedIn s.chain) (s.WrittenCause (.expression (.staticField subject field pos)))
      (s.staticFieldType subject field) := by
  refine meets_bind (meets_subject subject field pos) ?_
  rintro owner - ⟨key, hkey⟩
  split
  · rename_i type htype
    exact meets_ok (TypeDef.staticFieldType_wellFormed hend hclosed hkey htype)
  · exact (meets_fail (by simp)).written

theorem meets_typeOf
    (henv : ∀ name type, env.lookup? name = some type → type.WellFormedIn s.chain) (e : Expr) :
    Meets (Ty.WellFormedIn s.chain) (s.WrittenCause (.expression e)) (s.typeOf env e) := by
  have hstring : Ty.string.WellFormedIn s.chain := hend.wellFormed hclosed.string
  induction e using Expr.induction with
  | literal value pos =>
    rw [typeOf]
    cases value with
    | string text => exact meets_ok hstring
    | _ => exact meets_ok (Ty.eachReference_primitive _)
  | name name pos =>
    rw [typeOf]
    exact (meets_valueType hend hclosed henv name).written
  | interpolation parts pos ih =>
    rw [typeOf]
    refine meets_bind (meets_typesOf fun e he => (ih e he).of_child (List.mem_map_of_mem he)) ?_
    exact fun _ _ _ => meets_ok hstring
  | staticField subject field pos =>
    rw [typeOf]
    exact meets_staticFieldType hend hclosed subject field pos
  | field subject field pos ih =>
    rw [typeOf]
    refine meets_bind (ih.of_child (List.mem_singleton.mpr rfl)) fun type _ htype => ?_
    exact (meets_fieldType hend hclosed htype field).written
  | methodCall subject method args pos ih ihArgs =>
    rw [typeOf]
    refine meets_bind (meets_argumentTypes fun arg harg => (ihArgs arg harg).of_argument
      (List.mem_cons_of_mem _ (List.mem_map_of_mem harg))) fun types _ _ => ?_
    split
    · exact (meets_staticCall hend hclosed _ _ _).written
    · refine meets_bind (ih.of_child List.mem_cons_self) fun type _ htype => ?_
      exact (meets_instanceCall hend hclosed htype method types).written
  | call callee args pos ih ihArgs =>
    rw [typeOf]
    refine meets_bind (meets_argumentTypes fun arg harg => (ihArgs arg harg).of_argument
      (List.mem_cons_of_mem _ (List.mem_map_of_mem harg))) fun types _ _ => ?_
    split
    · rename_i result hresult
      exact (meets_directCall hend hclosed hresult).of_child List.mem_cons_self
    · refine meets_bind (ih.of_child List.mem_cons_self) fun type _ htype => ?_
      exact (meets_invoke htype _ types).written
  | index array position pos ihArray ihPosition =>
    rw [typeOf]
    refine meets_bind (ihArray.of_child List.mem_cons_self) fun arrayType _ harray => ?_
    refine meets_bind (meets_componentOf harray).written fun component _ hcomponent => ?_
    refine meets_bind (ihPosition.of_child (by simp [Node.children, Expr.children])) ?_
    intro positionType _ _
    refine meets_bind (meets_checkIndex positionType).written fun _ _ _ => ?_
    exact meets_ok hcomponent
  | creation typeName args pos ih =>
    rw [typeOf]
    refine meets_bind (meets_argumentTypes fun arg harg => (ih arg harg).of_argument
      (List.mem_map_of_mem harg)) fun types _ _ => ?_
    exact meets_creationType typeName args pos
  | negation operand pos ih =>
    rw [typeOf]
    refine meets_bind (ih.of_child (List.mem_singleton.mpr rfl)) fun type _ _ => ?_
    exact (meets_negationType s.chain type).written
  | binary op left right pos ihLeft ihRight =>
    rw [typeOf]
    refine meets_bind (ihLeft.of_child List.mem_cons_self) fun leftType _ _ => ?_
    refine meets_bind (ihRight.of_child (by simp [Node.children, Expr.children])) ?_
    intro rightType _ _
    exact (meets_operator hstring op leftType rightType).written

end Expressions

/-- Where local names have well formed types, so has every expression that has a type. -/
theorem typeOf_wellFormed (s : Scope) (hend : s.chain.EndsIn Host.javaLang) (env : TypeEnv)
    (henv : ∀ name type, env.lookup? name = some type → type.WellFormedIn s.chain) (e : Expr) :
    (∀ type, s.typeOf env e = .ok type →
      type.WellFormedIn s.chain ∧
      (∀ field name, s.fieldType type field ≠ .error (.type (.notAType name))) ∧
      ∀ method args name, s.instanceCall type method args ≠ .error (.type (.notAType name))) ∧
    ∀ name, s.typeOf env e = .error (.type (.notAType name)) →
      s.type? name = none ∧ (Node.expression e).NamesType name := by
  have hmeets := meets_typeOf hend Host.closed_javaLang henv e
  refine ⟨fun type htype => ?_, fun name herror => hmeets.error herror name rfl⟩
  have hwell := hmeets.ok htype
  refine ⟨hwell, fun field name herror => ?_, fun method args name herror => ?_⟩
  · exact (meets_fieldType hend Host.closed_javaLang hwell field).error herror name rfl
  · exact (meets_instanceCall hend Host.closed_javaLang hwell method args).error herror name rfl

/-- Boxes with labels, kept in a library. -/
def boxFile : SourceFile where
  namespaceName := ⟨["storage"], by decide, by decide⟩
  imports := []
  members := [.type ⟨"Box", [.property ⟨"label", .primitive "string" none, none⟩], none⟩]
  pos := none

def storeScope : Scope where
  chain := .source (Batch.ofFiles 0 []) false
    (.source (Batch.ofFiles 1 [boxFile]) false (.host Host.javaLang))
  file := ⟨⟨["store"], by decide, by decide⟩, [], [], none⟩

def storeEnv : TypeEnv := TypeEnv.empty.define "box" (.reference "storage.Box" [objectName])

/-- The label of a box is a text. A crate is nothing, and that is said of the crate. -/
theorem box_label_wellFormed :
    storeScope.chain.EndsIn Host.javaLang ∧
      storeScope.typeOf storeEnv (.field (.name "box" none) "label" none) = .ok .string ∧
      Ty.string.WellFormedIn storeScope.chain ∧
      storeScope.typeOf storeEnv (.field (.creation "Crate" [] none) "label" none)
        = .error (.type (.notAType "Crate")) ∧
      storeScope.type? "Crate" = none := by
  have hend : storeScope.chain.EndsIn Host.javaLang := .source _ _ (.source _ _ .host)
  have henv : ∀ name type, storeEnv.lookup? name = some type → type.WellFormedIn storeScope.chain := by
    intro name type hlookup
    obtain ⟨scope, hscope, hlookup⟩ := List.exists_of_findSome?_eq_some hlookup
    obtain rfl := List.mem_singleton.mp hscope
    obtain ⟨rfl, rfl⟩ := Prod.mk.inj (List.mem_singleton.mp (mem_of_lookup hlookup))
    decide
  have hlabel := typeOf_wellFormed storeScope hend storeEnv henv (.field (.name "box" none) "label" none)
  have hcrate := typeOf_wellFormed storeScope hend storeEnv henv
    (.field (.creation "Crate" [] none) "label" none)
  exact ⟨hend, rfl, (hlabel.1 .string rfl).1, rfl, (hcrate.2 "Crate" rfl).1⟩

end Scope

end SemanticCheck
