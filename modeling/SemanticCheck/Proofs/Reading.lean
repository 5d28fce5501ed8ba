import SemanticCheck.Proofs.ChainLookup
import SemanticCheck.Proofs.Children

/-!
# What the type of an expression depends on

A declaration is read through its item and the context and imports of its file; where it stands in the
batch plays no part. Two scopes that find the same things to read, under local names that agree on what
an expression mentions, give the expression the same type or the same failure.
-/

namespace SemanticCheck

/-! ## Things that read the same -/

structure Declared.Alike {α : Type} (d d' : Declared α) : Prop where
  item : d.item = d'.item
  context : d.file.context = d'.file.context
  imports : d.file.imports = d'.file.imports

inductive TypeDef.Alike : TypeDef → TypeDef → Prop
  | source {d d' : Declared TypeDefinition} : d.Alike d' → Alike (.source d) (.source d')
  | host (c : HostClass) : Alike (.host c) (.host c)

inductive Symbol.Alike : Symbol → Symbol → Prop
  | type {t t' : TypeDef} : t.Alike t' → Alike (.type t) (.type t')
  | property {d d' : Declared Property} : d.Alike d' → Alike (.property d) (.property d')
  | function {d d' : Declared Routine} : d.Alike d' → Alike (.function d) (.function d')
  | program {d d' : Declared Program} : d.Alike d' → Alike (.program d) (.program d')
  | host (m : HostMember) : Alike (.host m) (.host m)
  | localName (name : String) (type : Ty) : Alike (.localName name type) (.localName name type)

/-- The chains answer alike, except perhaps for what a name stands for as a value. -/
structure Chain.Alike (chain chain' : Chain) : Prop where
  types : ∀ name, Option.Rel TypeDef.Alike (chain.type? name) (chain'.type? name)
  properties : ∀ name, Option.Rel Declared.Alike (chain.property? name) (chain'.property? name)
  methods : chain.method = chain'.method

structure Scope.Alike (s s' : Scope) : Prop where
  chain : s.chain.Alike s'.chain
  context : s.file.context = s'.file.context
  imports : s.file.imports = s'.file.imports

@[refl] theorem Declared.Alike.refl {α : Type} (d : Declared α) : d.Alike d := ⟨rfl, rfl, rfl⟩

@[refl] theorem TypeDef.Alike.refl (t : TypeDef) : t.Alike t := by
  cases t with
  | source d => exact .source (.refl d)
  | host c => exact .host c

@[refl] theorem Symbol.Alike.refl (symbol : Symbol) : symbol.Alike symbol := by
  cases symbol with
  | type t => exact .type (.refl t)
  | property d => exact .property (.refl d)
  | function d => exact .function (.refl d)
  | program d => exact .program (.refl d)
  | host m => exact .host m
  | localName name type => exact .localName name type

theorem optionRel_refl {α : Type} {r : α → α → Prop} (h : ∀ a, r a a) (o : Option α) :
    Option.Rel r o o := by
  cases o with
  | none => exact .none
  | some a => exact .some (h a)

theorem optionRel_cases {α : Type} {r : α → α → Prop} {o o' : Option α} (h : Option.Rel r o o') :
    (o = none ∧ o' = none) ∨ ∃ a a', o = some a ∧ o' = some a' ∧ r a a' := by
  cases h with
  | none => exact .inl ⟨rfl, rfl⟩
  | some hr => exact .inr ⟨_, _, rfl, rfl, hr⟩

theorem optionRel_or {α : Type} {r : α → α → Prop} {a a' b b' : Option α} (ha : Option.Rel r a a')
    (hb : Option.Rel r b b') : Option.Rel r (a.or b) (a'.or b') := by
  cases ha with
  | none => exact hb
  | some h => exact .some h

theorem optionRel_map {α β : Type} {r : α → α → Prop} {q : β → β → Prop} {f : α → β}
    {a a' : Option α} (h : Option.Rel r a a') (hf : ∀ x y, r x y → q (f x) (f y)) :
    Option.Rel q (a.map f) (a'.map f) := by
  cases h with
  | none => exact .none
  | some hr => exact .some (hf _ _ hr)

@[refl] theorem Chain.Alike.refl (chain : Chain) : chain.Alike chain :=
  ⟨fun _ => optionRel_refl .refl _, fun _ => optionRel_refl .refl _, rfl⟩

@[refl] theorem Scope.Alike.refl (s : Scope) : s.Alike s := ⟨.refl s.chain, rfl, rfl⟩

/-- Batches whose first declarations read the same, before chains that answer alike. -/
theorem Chain.alike_source {batch batch' : Batch} {outer outer' : Chain} (delegates delegates' : Bool)
    (htypes : ∀ key, Option.Rel Declared.Alike
      ((declaredIn batch.number batch.files (·.type?)).lookup key)
      ((declaredIn batch'.number batch'.files (·.type?)).lookup key))
    (hproperties : ∀ key, Option.Rel Declared.Alike
      ((declaredIn batch.number batch.files (·.property?)).lookup key)
      ((declaredIn batch'.number batch'.files (·.property?)).lookup key))
    (houter : outer.Alike outer') :
    (source batch delegates outer).Alike (source batch' delegates' outer') where
  types name := by
    rw [type_step (source batch delegates outer), type_step (source batch' delegates' outer')]
    exact optionRel_or (optionRel_map (htypes name) fun _ _ h => .source h) (houter.types name)
  properties name := by
    rw [property_step (source batch delegates outer), property_step (source batch' delegates' outer')]
    exact optionRel_or (hproperties name) (houter.properties name)
  methods := funext fun r => congrFun houter.methods r

theorem findSome_rel {α β : Type} {r : β → β → Prop} {f g : α → Option β}
    (h : ∀ a, Option.Rel r (f a) (g a)) (l : List α) :
    Option.Rel r (l.findSome? f) (l.findSome? g) := by
  induction l with
  | nil => exact .none
  | cons a l ih =>
    rw [List.findSome?_cons, List.findSome?_cons]
    obtain ⟨hf, hg⟩ | ⟨b, b', hf, hg, hb⟩ := optionRel_cases (h a)
    · rw [hf, hg]
      exact ih
    · rw [hf, hg]
      exact .some hb

/-! ## Annotations -/

theorem SourceFile.candidates_congr {f f' : SourceFile} (hcontext : f.context = f'.context)
    (himports : f.imports = f'.imports) (name : String) (typesOnly : Bool) :
    f.candidates name typesOnly = f'.candidates name typesOnly := by
  unfold candidates
  rw [hcontext, himports]

namespace TypeDef.Alike

variable {t t' : TypeDef}

theorem qualifiedName (h : t.Alike t') : t.qualifiedName = t'.qualifiedName := by
  cases h with
  | source hd => simp only [TypeDef.qualifiedName, hd.item, hd.context]
  | host c => rfl

theorem type (h : t.Alike t') : t.type = t'.type := by
  cases h with
  | source hd =>
    have hname := (TypeDef.Alike.source hd).qualifiedName
    simp only [TypeDef.type, hname]
  | host c => rfl

theorem staticFieldType (h : t.Alike t') (field : String) :
    t.staticFieldType? field = t'.staticFieldType? field := by
  cases h <;> rfl

end TypeDef.Alike

theorem Declared.Alike.scope {α : Type} {d d' : Declared α} (h : d.Alike d') {chain chain' : Chain}
    (hchain : chain.Alike chain') : (d.scope chain).Alike (d'.scope chain') :=
  ⟨hchain, h.context, h.imports⟩

namespace Scope.Alike

variable {s s' : Scope}

theorem type (h : s.Alike s') (name : String) :
    Option.Rel TypeDef.Alike (s.type? name) (s'.type? name) := by
  unfold Scope.type?
  rw [SourceFile.candidates_congr h.context h.imports]
  exact findSome_rel h.chain.types _

theorem denote (h : s.Alike s') (a : TypeExpr) : s.denote a = s'.denote a := by
  induction a with
  | primitive name pos => rfl
  | reference name pos =>
    unfold Scope.denote
    obtain ⟨ho, ho'⟩ | ⟨t, t', ho, ho', ht⟩ := optionRel_cases (h.type name)
    · rw [ho, ho']
    · simp only [ho, ho', ht.type]
  | array component pos ih =>
    unfold Scope.denote
    rw [ih]
  | void pos => rfl

theorem signature (h : s.Alike s') (r : Routine) : s.signature r = s'.signature r := by
  have hdenote : s.denote = s'.denote := funext h.denote
  simp only [Scope.signature, hdenote]

end Scope.Alike

/-! ## Members and symbols -/

theorem Symbol.Alike.typeIn {symbol symbol' : Symbol} (h : symbol.Alike symbol') {chain chain' : Chain}
    (hchain : chain.Alike chain') : symbol.typeIn chain = symbol'.typeIn chain' := by
  cases h with
  | type ht => simp only [Symbol.typeIn, ht.type]
  | property hd => simp only [Symbol.typeIn, (hd.scope hchain).denote, hd.item]
  | function hd => simp only [Symbol.typeIn, (hd.scope hchain).signature, hd.item]
  | program hd => rfl
  | host m => rfl
  | localName name type => rfl

theorem TypeDef.Alike.fieldType {t t' : TypeDef} (h : t.Alike t') {chain chain' : Chain}
    (hchain : chain.Alike chain') (field : String) :
    t.fieldType? chain field = t'.fieldType? chain' field := by
  cases h with
  | source hd =>
    have hdenote := funext (hd.scope hchain).denote
    simp only [TypeDef.fieldType?, hd.item, hd.context, hdenote]
    split
    · rfl
    · congr 1
      funext r
      obtain ⟨ho, ho'⟩ | ⟨p, p', ho, ho', hp⟩ := optionRel_cases (hchain.properties _)
      · rw [ho, ho']
      · rw [ho, ho']
        exact (Symbol.Alike.property hp).typeIn hchain
  | host c => rfl

/-! ## Names and calls -/

section Scopes

variable {s s' : Scope}

/-- Equal continuations on alike answers: a failure to find the type is the same on both sides. -/
theorem ownerOf_bind (h : s.Alike s') (name : String) {k k' : TypeDef → Typed Ty}
    (hk : ∀ t t', t.Alike t' → k t = k' t') : (s.ownerOf name >>= k) = (s'.ownerOf name >>= k') := by
  unfold Scope.ownerOf
  obtain ⟨ho, ho'⟩ | ⟨t, t', ho, ho', ht⟩ := optionRel_cases (h.chain.types name)
  · rw [ho, ho']
    rfl
  · rw [ho, ho']
    exact hk t t' ht

theorem identified_bind (h : s.Alike s') (subject : TypeIdentifier) {k k' : TypeDef → Typed Ty}
    (hk : ∀ t t', t.Alike t' → k t = k' t') :
    (s.identified subject >>= k) = (s'.identified subject >>= k') := by
  unfold Scope.identified
  obtain ⟨ho, ho'⟩ | ⟨t, t', ho, ho', ht⟩ := optionRel_cases (h.type subject.qualifiedName)
  · rw [ho, ho']
    rfl
  · rw [ho, ho']
    exact hk t t' ht

theorem hostCall_congr (h : s.Alike s') (r : MethodRequest) : s.hostCall r = s'.hostCall r := by
  simp only [Scope.hostCall, h.chain.methods]

theorem staticCall_congr (h : s.Alike s') {t t' : TypeDef} (ht : t.Alike t') (method : String)
    (args : List Ty) : s.staticCall t method args = s'.staticCall t' method args := by
  cases ht with
  | source hd => simp only [Scope.staticCall, (TypeDef.Alike.source hd).qualifiedName]
  | host c => exact hostCall_congr h _

theorem sourceCall_congr (h : s.Alike s') {d d' : Declared TypeDefinition} (hd : d.Alike d')
    (method : String) (subject : Ty) (args : List Ty) :
    s.sourceCall (.source d) method subject args = s'.sourceCall (.source d') method subject args := by
  have hsignature := funext (hd.scope h.chain).signature
  have hname := (TypeDef.Alike.source hd).qualifiedName
  unfold Scope.sourceCall
  simp only [TypeDef.methods, List.head?_map, hd.item]
  cases (d'.item.methods.filter (·.name == method)).head? with
  | none => simp only [Option.map_none, h.chain.methods]
  | some r =>
    simp only [Option.map_some, MethodDef.signature, MethodDef.qualifiedName, hsignature, hname]

theorem instanceCall_congr (h : s.Alike s') (subject : Ty) (method : String) (args : List Ty) :
    s.instanceCall subject method args = s'.instanceCall subject method args := by
  unfold Scope.instanceCall
  split
  · rfl
  · refine ownerOf_bind h _ fun t t' ht => ?_
    cases ht with
    | source hd => exact sourceCall_congr h hd method subject args
    | host c => exact hostCall_congr h _

theorem staticFieldType_congr (h : s.Alike s') (subject : TypeIdentifier) (field : String) :
    s.staticFieldType subject field = s'.staticFieldType subject field :=
  identified_bind h subject fun t t' ht => by simp only [ht.staticFieldType, ht.qualifiedName]

theorem fieldType_congr (h : s.Alike s') (subject : Ty) (field : String) :
    s.fieldType subject field = s'.fieldType subject field := by
  unfold Scope.fieldType
  split
  · exact ownerOf_bind h _ fun t t' ht => by simp only [ht.fieldType h.chain]
  · rfl
  · rfl

theorem creationType_congr (h : s.Alike s') (typeName : String) :
    s.creationType typeName = s'.creationType typeName := by
  unfold Scope.creationType
  obtain ⟨ho, ho'⟩ | ⟨t, t', ho, ho', ht⟩ := optionRel_cases (h.type typeName)
  · rw [ho, ho']
  · simp only [ho, ho', ht.type]

theorem namedCall_congr (h : s.Alike s') {name : String}
    (hvalue : Option.Rel Symbol.Alike (s.value? name) (s'.value? name)) (args : List Ty) :
    s.namedCall name args = s'.namedCall name args := by
  unfold Scope.namedCall
  obtain ⟨ho, ho'⟩ | ⟨symbol, symbol', ho, ho', hsymbol⟩ := optionRel_cases hvalue
  · rw [ho, ho']
    exact hostCall_congr h _
  · rw [ho, ho']
    have htype := hsymbol.typeIn h.chain
    cases hsymbol with
    | type ht => simp only [ht.type]
    | host m =>
      cases m with
      | method m => exact hostCall_congr h _
      | _ => rfl
    | _ => simp only [htype]

end Scopes

/-! ## Expressions -/

/-- The name stands by itself as a value somewhere in the node. -/
def Node.Mentions (node : Node) (name : String) : Prop :=
  ∃ pos, .expression (.name name pos) ∈ node.tree.preorder

theorem Node.Mentions.of_child {node child : Node} {name : String} (hchild : child ∈ node.children)
    (h : child.Mentions name) : node.Mentions name := by
  obtain ⟨pos, hpos⟩ := h
  exact ⟨pos, mem_preorder_of_mem_child hchild hpos⟩

theorem Node.Mentions.of_argument {node : Node} {arg : Argument} {name : String}
    (harg : .argument arg ∈ node.children) (h : (expression arg.value).Mentions name) :
    node.Mentions name :=
  .of_child harg (.of_child List.mem_cons_self h)

/-- The name stands for the same local value, or for none and for declarations that read the same. -/
structure SameName (s s' : Scope) (env env' : TypeEnv) (name : String) : Prop where
  lookup : env.lookup? name = env'.lookup? name
  value : env.lookup? name = none → Option.Rel Symbol.Alike (s.value? name) (s'.value? name)

section Expressions

variable {s s' : Scope} {env env' : TypeEnv}

theorem valueType_congr (h : s.Alike s') {name : String} (hname : SameName s s' env env' name) :
    s.valueType env name = s'.valueType env' name := by
  unfold Scope.valueType
  rw [← hname.lookup]
  cases hlocal : env.lookup? name with
  | some type => rfl
  | none =>
    obtain ⟨ho, ho'⟩ | ⟨symbol, symbol', ho, ho', hsymbol⟩ := optionRel_cases (hname.value hlocal)
    · rw [ho, ho']
    · simp only [ho, ho', hsymbol.typeIn h.chain]

theorem staticSubject_rel {subject : Expr}
    (hnames : ∀ name, (Node.expression subject).Mentions name → SameName s s' env env' name) :
    Option.Rel TypeDef.Alike (s.staticSubject? env subject) (s'.staticSubject? env' subject) := by
  cases subject with
  | name name pos =>
    have hname := hnames name ⟨pos, Node.mem_preorder_self _⟩
    simp only [Scope.staticSubject?, Expr.name?]
    rw [← hname.lookup]
    cases hlocal : env.lookup? name with
    | some type => exact .none
    | none =>
      obtain ⟨ho, ho'⟩ | ⟨symbol, symbol', ho, ho', hsymbol⟩ := optionRel_cases (hname.value hlocal)
      · rw [ho, ho']
        exact .none
      · rw [ho, ho']
        cases hsymbol with
        | type ht => exact .some ht
        | _ => exact .none
  | _ => exact .none

theorem directCall_congr (h : s.Alike s') {callee : Expr}
    (hnames : ∀ name, (Node.expression callee).Mentions name → SameName s s' env env' name)
    (args : List Ty) : s.directCall? env args callee = s'.directCall? env' args callee := by
  cases callee with
  | staticField subject field pos =>
    simp only [Scope.directCall?]
    rw [identified_bind h subject fun t t' ht => staticCall_congr h ht field args]
  | name name pos =>
    have hname := hnames name ⟨pos, Node.mem_preorder_self _⟩
    simp only [Scope.directCall?]
    rw [← hname.lookup]
    cases hlocal : env.lookup? name with
    | some type => rfl
    | none => simp only [namedCall_congr h (hname.value hlocal)]
  | _ => rfl

theorem typesOf_congr {es : List Expr} (h : ∀ e ∈ es, s.typeOf env e = s'.typeOf env' e) :
    s.typesOf env es = s'.typesOf env' es := by
  induction es with
  | nil => simp [Scope.typesOf]
  | cons e es ih =>
    rw [List.forall_mem_cons] at h
    rw [Scope.typesOf, Scope.typesOf, h.1, ih h.2]

theorem argumentTypes_congr {args : List Argument}
    (h : ∀ arg ∈ args, s.typeOf env arg.value = s'.typeOf env' arg.value) :
    s.argumentTypes env args = s'.argumentTypes env' args := by
  induction args with
  | nil => simp [Scope.argumentTypes]
  | cons arg args ih =>
    obtain ⟨name, value, pos⟩ := arg
    rw [List.forall_mem_cons] at h
    rw [Scope.argumentTypes, Scope.argumentTypes, ih h.2]
    exact congrArg (· >>= _) h.1

theorem typeOf_congr (h : s.Alike s') (e : Expr)
    (hnames : ∀ name, (Node.expression e).Mentions name → SameName s s' env env' name) :
    s.typeOf env e = s'.typeOf env' e := by
  -- What is mentioned inside of a part is mentioned in the whole.
  have part : ∀ {e : Expr} (sub : Expr), Node.expression sub ∈ (Node.expression e).children →
      (∀ name, (Node.expression e).Mentions name → SameName s s' env env' name) →
      ∀ name, (Node.expression sub).Mentions name → SameName s s' env env' name :=
    fun sub hsub hnames name hname => hnames name (.of_child hsub hname)
  have argument : ∀ {e : Expr} {arg : Argument}, Node.argument arg ∈ (Node.expression e).children →
      (∀ name, (Node.expression e).Mentions name → SameName s s' env env' name) →
      ∀ name, (Node.expression arg.value).Mentions name → SameName s s' env env' name :=
    fun harg hnames name hname => hnames name (.of_argument harg hname)
  induction e using Expr.induction with
  | literal value pos => simp [Scope.typeOf]
  | name name pos =>
    have hname := hnames name ⟨pos, Node.mem_preorder_self _⟩
    rw [Scope.typeOf, Scope.typeOf, valueType_congr h hname]
  | interpolation parts pos ih =>
    have hparts := typesOf_congr fun e he => ih e he (part e (List.mem_map_of_mem he) hnames)
    rw [Scope.typeOf, Scope.typeOf, hparts]
  | staticField subject field pos =>
    rw [Scope.typeOf, Scope.typeOf, staticFieldType_congr h]
  | field subject field pos ih =>
    have hsubject := ih (part subject (by simp [Node.children, Expr.children]) hnames)
    rw [Scope.typeOf, Scope.typeOf, hsubject]
    simp only [fieldType_congr h]
  | methodCall subject method args pos ih ihArgs =>
    have hsubject := part subject (by simp [Node.children, Expr.children]) hnames
    have hargs := argumentTypes_congr fun arg harg =>
      ihArgs arg harg (argument (by simp [Node.children, Expr.children, harg]) hnames)
    rw [Scope.typeOf, Scope.typeOf, hargs]
    congr 1
    funext argTypes
    obtain ⟨ho, ho'⟩ | ⟨t, t', ho, ho', ht⟩ := optionRel_cases (staticSubject_rel hsubject)
    · simp only [ho, ho', ih hsubject, instanceCall_congr h]
    · simp only [ho, ho', staticCall_congr h ht]
  | call callee args pos ih ihArgs =>
    have hcallee := part callee (by simp [Node.children, Expr.children]) hnames
    have hargs := argumentTypes_congr fun arg harg =>
      ihArgs arg harg (argument (by simp [Node.children, Expr.children, harg]) hnames)
    have hdirect := directCall_congr h hcallee
    rw [Scope.typeOf, Scope.typeOf, hargs]
    simp only [hdirect, ih hcallee]
  | index array position pos ihArray ihPosition =>
    have harray := ihArray (part array (by simp [Node.children, Expr.children]) hnames)
    have hposition := ihPosition (part position (by simp [Node.children, Expr.children]) hnames)
    rw [Scope.typeOf, Scope.typeOf, harray, hposition]
  | creation typeName args pos ih =>
    have hargs := argumentTypes_congr fun arg harg =>
      ih arg harg (argument (List.mem_map_of_mem harg) hnames)
    rw [Scope.typeOf, Scope.typeOf, hargs, creationType_congr h]
  | negation operand pos ih =>
    have hoperand := ih (part operand (by simp [Node.children, Expr.children]) hnames)
    rw [Scope.typeOf, Scope.typeOf, hoperand]
  | binary op left right pos ihLeft ihRight =>
    have hleft := ihLeft (part left (by simp [Node.children, Expr.children]) hnames)
    have hright := ihRight (part right (by simp [Node.children, Expr.children]) hnames)
    rw [Scope.typeOf, Scope.typeOf, hleft, hright]

/-- How the local names are spread over scopes plays no part. -/
theorem typeOf_congr_env (hlookup : ∀ name, env.lookup? name = env'.lookup? name) (e : Expr) :
    s.typeOf env e = s.typeOf env' e :=
  typeOf_congr (.refl s) e fun name _ => ⟨hlookup name, fun _ => optionRel_refl .refl _⟩

end Expressions

end SemanticCheck
