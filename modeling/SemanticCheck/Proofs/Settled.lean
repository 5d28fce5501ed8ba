import SemanticCheck.Typing.Infer

/-!
# Failures of typing

Typing an expression fails by itself, or because something it uses could not be resolved. Where whatever
is found has a type, the second never happens.
-/

namespace SemanticCheck

/-- Whatever the chain finds has a type. -/
structure Chain.TypesResolve (chain : Chain) : Prop where
  symbols : ∀ name s, chain.symbol? name = some s → ∃ ty, s.typeIn chain = .ok ty
  fields : ∀ name t field found, chain.type? name = some t →
    t.fieldType? chain field = some found → ∃ ty, found = .ok ty
  methods : ∀ name t method m, chain.type? name = some t → m ∈ t.methods method →
    ∃ signature, m.signature chain = .ok signature

/-! ## Settled results -/

/-- Has a result, or fails by itself: what it uses could be resolved. -/
def Settled {α : Type} (r : Typed α) : Prop := ∀ e, r ≠ .error (.resolution e)

theorem settled_ok {α : Type} (a : α) : Settled (.ok a : Typed α) := by
  intro e h
  cases h

theorem settled_fail {α : Type} (e : TypeError) : Settled (TypingError.fail e : Typed α) := by
  intro e' h
  cases h

theorem settled_bind {α β : Type} {r : Typed α} {next : α → Typed β} (hr : Settled r)
    (hnext : ∀ a, r = .ok a → Settled (next a)) : Settled (r >>= next) := by
  cases r with
  | ok a => exact hnext a rfl
  | error error =>
    intro e h
    cases h
    exact hr e rfl

theorem settled_resolved {α : Type} {r : Except ResolutionError α} (h : ∃ a, r = .ok a) :
    Settled (resolved r) := by
  obtain ⟨a, rfl⟩ := h
  exact settled_ok a

theorem settled_mathType (op : MathOperator) (left right : Ty) : Settled (mathType op left right) := by
  unfold mathType
  split
  · exact settled_ok _
  · split
    · split
      · exact settled_ok _
      · exact settled_fail _
    · exact settled_fail _

theorem settled_logicType (op : LogicOperator) (left right : Ty) :
    Settled (logicType op left right) := by
  unfold logicType
  split
  · exact settled_ok _
  · exact settled_fail _

theorem settled_relationalType (op : RelationalOperator) (left right : Ty) :
    Settled (relationalType op left right) := by
  unfold relationalType
  split
  · exact settled_ok _
  · exact settled_fail _

theorem settled_operator (op : BinaryOperator) (left right : Ty) : Settled (op.type left right) := by
  cases op with
  | math op => exact settled_mathType op left right
  | logic op => exact settled_logicType op left right
  | relational op => exact settled_relationalType op left right

theorem settled_componentOf (array : Ty) : Settled (componentOf array) := by
  unfold componentOf
  split
  · exact settled_ok _
  · exact settled_fail _

theorem settled_checkIndex (index : Ty) : Settled (checkIndex index) := by
  unfold checkIndex
  split
  · exact settled_ok _
  · exact settled_fail _

theorem settled_invoke (name : String) (callee : Ty) (args : List Ty) :
    Settled (invoke name callee args) := by
  unfold invoke
  split
  · split
    · exact settled_ok _
    · exact settled_fail _
  · exact settled_fail _

namespace Scope

theorem settled_hostCall (s : Scope) (r : MethodRequest) : Settled (s.hostCall r) := by
  unfold hostCall
  split
  · exact settled_ok _
  · exact settled_fail _

theorem settled_staticCall (s : Scope) (owner : TypeDef) (method : String) (args : List Ty) :
    Settled (s.staticCall owner method args) := by
  unfold staticCall
  split
  · exact settled_fail _
  · exact s.settled_hostCall _

theorem settled_identified (s : Scope) (t : TypeIdentifier) : Settled (s.identified t) := by
  unfold identified
  split
  · exact settled_ok _
  · exact settled_fail _

theorem ownerOf_ok {s : Scope} {name : String} {owner : TypeDef}
    (h : s.ownerOf name = .ok owner) : s.chain.type? name = some owner := by
  unfold ownerOf at h
  split at h
  · rename_i t ht
    cases h
    exact ht
  · cases h

theorem settled_ownerOf (s : Scope) (name : String) : Settled (s.ownerOf name) := by
  unfold ownerOf
  split
  · exact settled_ok _
  · exact settled_fail _

theorem value_found {s : Scope} {name : String} {symbol : Symbol} (h : s.value? name = some symbol) :
    ∃ key, s.chain.symbol? key = some symbol := by
  obtain ⟨key, -, hkey⟩ := List.exists_of_findSome?_eq_some h
  exact ⟨key, hkey⟩

variable {s : Scope} (h : s.chain.TypesResolve)

include h

theorem settled_valueType (env : TypeEnv) (name : String) : Settled (s.valueType env name) := by
  unfold valueType
  split
  · exact settled_ok _
  · split
    · rename_i symbol hsymbol
      obtain ⟨key, hkey⟩ := value_found hsymbol
      exact settled_resolved (h.symbols key symbol hkey)
    · exact settled_fail _

theorem settled_fieldType (subject : Ty) (field : String) : Settled (s.fieldType subject field) := by
  unfold fieldType
  split
  · refine settled_bind (s.settled_ownerOf _) fun owner howner => ?_
    split
    · rename_i found hfound
      exact settled_resolved (h.fields _ owner field found (ownerOf_ok howner) hfound)
    · exact settled_fail _
  · split
    · exact settled_ok _
    · exact settled_fail _
  · exact settled_fail _

theorem settled_sourceCall {name : String} {owner : TypeDef}
    (howner : s.chain.type? name = some owner) (method : String) (subject : Ty) (args : List Ty) :
    Settled (s.sourceCall owner method subject args) := by
  unfold sourceCall
  split
  · rename_i declared hdeclared
    have hmem : declared ∈ owner.methods method := List.mem_of_mem_head? hdeclared
    exact settled_bind (settled_resolved (h.methods name owner method declared howner hmem))
      fun _ _ => settled_invoke _ _ _
  · split
    · exact settled_ok _
    · exact settled_fail _

theorem settled_instanceCall (subject : Ty) (method : String) (args : List Ty) :
    Settled (s.instanceCall subject method args) := by
  unfold instanceCall
  split
  · exact settled_fail _
  · refine settled_bind (s.settled_ownerOf _) fun owner howner => ?_
    split
    · exact settled_sourceCall h (ownerOf_ok howner) method subject args
    · exact s.settled_hostCall _

theorem settled_namedCall (name : String) (args : List Ty) : Settled (s.namedCall name args) := by
  unfold namedCall
  split
  · exact settled_ok _
  · exact s.settled_hostCall _
  · rename_i symbol _ _ hsymbol
    obtain ⟨key, hkey⟩ := value_found hsymbol
    exact settled_bind (settled_resolved (h.symbols key _ hkey)) fun _ _ => settled_invoke _ _ _
  · exact s.settled_hostCall _

theorem settled_directCall {env : TypeEnv} {args : List Ty} {callee : Expr} {result : Typed Ty}
    (hresult : s.directCall? env args callee = some result) : Settled result := by
  unfold directCall? at hresult
  split at hresult
  · obtain rfl := Option.some.inj hresult
    exact settled_bind (s.settled_identified _) fun owner _ => s.settled_staticCall owner _ _
  · split at hresult
    · cases hresult
    · obtain rfl := Option.some.inj hresult
      exact settled_namedCall h _ _
  · cases hresult

omit h

mutual

theorem settled_typeOf (h : s.chain.TypesResolve) (env : TypeEnv) (e : Expr) :
    Settled (s.typeOf env e) := by
  cases e with
  | literal value pos =>
    rw [typeOf]
    exact settled_ok _
  | name name pos =>
    rw [typeOf]
    exact settled_valueType h env name
  | interpolation parts pos =>
    rw [typeOf]
    exact settled_bind (settled_typesOf h env parts) fun _ _ => settled_ok _
  | staticField subject field pos =>
    rw [typeOf, staticFieldType]
    refine settled_bind (s.settled_identified subject) fun owner _ => ?_
    split
    · exact settled_ok _
    · exact settled_fail _
  | field subject field pos =>
    rw [typeOf]
    exact settled_bind (settled_typeOf h env subject) fun type _ => settled_fieldType h type field
  | methodCall subject method args pos =>
    rw [typeOf]
    refine settled_bind (settled_argumentTypes h env args) fun types _ => ?_
    split
    · exact s.settled_staticCall _ _ _
    · exact settled_bind (settled_typeOf h env subject) fun type _ =>
        settled_instanceCall h type method types
  | call callee args pos =>
    rw [typeOf]
    refine settled_bind (settled_argumentTypes h env args) fun types _ => ?_
    split
    · rename_i result hresult
      exact settled_directCall h hresult
    · exact settled_bind (settled_typeOf h env callee) fun type _ => settled_invoke _ type types
  | index array index pos =>
    rw [typeOf]
    refine settled_bind (settled_typeOf h env array) fun arrayType _ => ?_
    refine settled_bind (settled_componentOf arrayType) fun component _ => ?_
    refine settled_bind (settled_typeOf h env index) fun indexType _ => ?_
    exact settled_bind (settled_checkIndex indexType) fun _ _ => settled_ok component
  | creation typeName args pos =>
    rw [typeOf]
    refine settled_bind (settled_argumentTypes h env args) fun _ _ => ?_
    unfold creationType
    split
    · exact settled_ok _
    · exact settled_fail _
  | negation operand pos =>
    rw [typeOf]
    refine settled_bind (settled_typeOf h env operand) fun type _ => ?_
    unfold negationType
    split
    · exact settled_ok _
    · exact settled_fail _
  | binary op left right pos =>
    rw [typeOf]
    refine settled_bind (settled_typeOf h env left) fun leftType _ => ?_
    exact settled_bind (settled_typeOf h env right) fun rightType _ =>
      settled_operator op leftType rightType

theorem settled_typesOf (h : s.chain.TypesResolve) (env : TypeEnv) (es : List Expr) :
    Settled (s.typesOf env es) := by
  cases es with
  | nil =>
    rw [typesOf]
    exact settled_ok _
  | cons e rest =>
    rw [typesOf]
    refine settled_bind (settled_typeOf h env e) fun _ _ => ?_
    exact settled_bind (settled_typesOf h env rest) fun _ _ => settled_ok _

theorem settled_argumentTypes (h : s.chain.TypesResolve) (env : TypeEnv) (args : List Argument) :
    Settled (s.argumentTypes env args) := by
  cases args with
  | nil =>
    rw [argumentTypes]
    exact settled_ok _
  | cons arg rest =>
    cases arg with
    | mk name value pos =>
      rw [argumentTypes]
      refine settled_bind (settled_typeOf h env value) fun _ _ => ?_
      exact settled_bind (settled_argumentTypes h env rest) fun _ _ => settled_ok _

end

end Scope

end SemanticCheck
