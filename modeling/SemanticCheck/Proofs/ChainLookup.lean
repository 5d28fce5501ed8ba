import SemanticCheck.Lookup.Scope
import SemanticCheck.Proofs.FilledHost
import SemanticCheck.Proofs.Precedence

/-!
# What a chain answers

Every lookup in a chain is answered by the first link that declares the key, and what it finds is called
by that key. A type keeps only its qualified name, so a type that was found under some other name is
found again under its own.
-/

namespace SemanticCheck

/-! ## The key of what is found -/

/-- A host at the end of the chain is a filled one. -/
def Chain.Filled : Chain → Prop
  | .host h => h.Filled
  | .source _ _ outer => outer.Filled
  | .nothing | .emptyHost => True

theorem qualify_of_ne {context : String} (h : context ≠ "") (name : String) :
    qualify context name = context ++ "." ++ name := by
  simp [qualify, h]

/-- The key of a member is the name of its class, a dot and its own name. -/
theorem Host.Filled.symbol_qualifiedName {h : Host} (hfilled : h.Filled) {key : String} {s : Symbol}
    (hs : (Chain.host h).symbol? key = some s) : s.qualifiedName = key := by
  obtain ⟨classes, functions, hwith, hadded⟩ := hfilled
  cases hwith.symbol_iff.mp hs with
  | ofClass hlatest => exact hlatest.mem.2
  | ofFunction _ hfirst =>
    have howner := (hwith.free _ hfirst.mem.1).1
    rw [Symbol.qualifiedName, HostMember.qualifiedName, HostMethod.qualifiedName, howner, hfirst.mem.2]
    rfl
  | ofField hinto hfirst =>
    have hname := (hadded _ hinto.latest.mem.1).2
    rw [Symbol.qualifiedName, HostMember.qualifiedName, hfirst.mem.2, qualify_of_ne hname, hinto.joined]
  | ofMethod hinto _ hfirst =>
    obtain ⟨hbuilt, hname⟩ := hadded _ hinto.latest.mem.1
    have howner := hbuilt.owner _ hfirst.mem.1
    rw [Symbol.qualifiedName, HostMember.qualifiedName, HostMethod.qualifiedName, howner, hfirst.mem.2,
      qualify_of_ne hname, hinto.joined]

theorem Declared.symbol_qualifiedName {batch : Nat} {files : List SourceFile} {key : String}
    {d : Declared NamedMember} (h : (key, d) ∈ namedIn batch files) :
    d.symbol.qualifiedName = key := by
  obtain ⟨-, -, m, -, hnamed, rfl⟩ := mem_declaredIn.mp h
  obtain ⟨file, place, item⟩ := d
  cases m <;> cases hnamed <;> rfl

/-! ## Links by themselves -/

namespace Chain

/-- The type that the first link declares under the key, in source the first one. -/
def ownType? : Chain → String → Option TypeDef
  | nothing, _ | emptyHost, _ => none
  | host h, key => (h.class? key).map .host
  | source batch _ _, key => ((declaredIn batch.number batch.files (·.type?)).lookup key).map .source

def ownProperty? : Chain → String → Option (Declared Property)
  | nothing, _ | emptyHost, _ | host _, _ => none
  | source batch _ _, key => (declaredIn batch.number batch.files (·.property?)).lookup key

/-- What the first link declares under the key, in source the first in the order of ownership. -/
def ownSymbol? : Chain → String → Option Symbol
  | nothing, _ | emptyHost, _ => none
  | host h, key =>
    ((h.class? key).map (.type <| .host ·))
      |>.or ((h.function? key).map (.host <| .method ·))
      |>.or ((h.member? key).map .host)
  | source batch _ _, key => ((ranked batch.number batch.files).lookup key).map Declared.symbol

/-- The answer is that of the first link that has one by itself; no link has any where there is none. -/
def IsFirstOf {α : Type} (own : Chain → Option α) (chain : Chain) : Option α → Prop
  | some a => ∃ n, own (chain.link n) = some a ∧ ∀ k < n, own (chain.link k) = none
  | none => ∀ n, own (chain.link n) = none

theorem isFirstOf_outer {α : Type} {own : Chain → Option α} {chain : Chain} {answer : Option α}
    (hown : own chain = none) (h : chain.outer.IsFirstOf own answer) : chain.IsFirstOf own answer := by
  cases answer with
  | none =>
    intro n
    cases n with
    | zero => exact hown
    | succ n => exact h n
  | some a =>
    obtain ⟨n, hn, hbefore⟩ := h
    refine ⟨n + 1, hn, fun k hk => ?_⟩
    cases k with
    | zero => exact hown
    | succ k => exact hbefore k (by omega)

theorem exists_link {α : Type} {own : Chain → Option α} {chain : Chain} {answer : Option α} {a : α}
    (h : chain.IsFirstOf own answer) (ha : answer = some a) : ∃ n, own (chain.link n) = some a := by
  rw [ha] at h
  obtain ⟨n, hn, -⟩ := h
  exact ⟨n, hn⟩

/-- A lookup that asks each link in turn. -/
theorem isFirstOf_of_step {α : Type} {own whole : Chain → Option α} (hnothing : whole nothing = none)
    (hstep : ∀ chain, whole chain = (own chain).or (whole chain.outer)) (chain : Chain) :
    chain.IsFirstOf own (whole chain) := by
  have hlink : ∀ chain : Chain, chain.outer.IsFirstOf own (whole chain.outer) →
      chain.IsFirstOf own (whole chain) := by
    intro chain houter
    rw [hstep]
    cases hown : own chain with
    | some a => exact ⟨0, hown, by omega⟩
    | none => exact isFirstOf_outer hown houter
  have hend : nothing.IsFirstOf own (whole nothing) := by
    have hown : own nothing = none := by
      have h := hstep nothing
      rw [hnothing] at h
      exact (Option.or_eq_none_iff.mp h.symm).1
    rw [hnothing]
    intro n
    induction n with
    | zero => exact hown
    | succ n ih => exact ih
  induction chain with
  | source batch delegates outer ih => exact hlink _ ih
  | nothing => exact hend
  | emptyHost => exact hlink emptyHost hend
  | host h => exact hlink (host h) hend

/-! ## Chains link by link -/

section Steps

variable (chain : Chain) (key : String)

theorem type_step : chain.type? key = (chain.ownType? key).or (chain.outer.type? key) := by
  cases chain with
  | source batch delegates outer =>
    rw [type?, ownType?, batch.indexed, BatchIndex.lookup_types]
    cases (declaredIn batch.number batch.files (·.type?)).lookup key <;> rfl
  | _ => simp [type?, ownType?, outer]

theorem property_step :
    chain.property? key = (chain.ownProperty? key).or (chain.outer.property? key) := by
  cases chain with
  | source batch delegates outer =>
    rw [property?, ownProperty?, batch.indexed, BatchIndex.lookup_properties]
    cases (declaredIn batch.number batch.files (·.property?)).lookup key <;> rfl
  | _ => simp [property?, ownProperty?, outer]

theorem symbol_step : chain.symbol? key = (chain.ownSymbol? key).or (chain.outer.symbol? key) := by
  cases chain with
  | source batch delegates outer =>
    rw [symbol?, ownSymbol?, batch.indexed, symbol_eq_ranked]
    cases (ranked batch.number batch.files).lookup key <;> rfl
  | host h =>
    simp only [symbol?, ownSymbol?, outer, Option.or_none]
    cases h.class? key with
    | some c => rfl
    | none => cases h.function? key <;> rfl
  | _ => simp [symbol?, ownSymbol?, outer]

end Steps

theorem ownType_host (h : Host) (key : String) : (host h).ownType? key = (host h).type? key := rfl

theorem ownSymbol_host (h : Host) (key : String) : (host h).ownSymbol? key = (host h).symbol? key := by
  rw [symbol_step]
  exact (Option.or_none).symm

theorem ownType_qualifiedName {chain : Chain} {key : String} {t : TypeDef}
    (h : chain.ownType? key = some t) : t.qualifiedName = key := by
  cases chain with
  | nothing | emptyHost => cases h
  | host host =>
    obtain ⟨c, hc, rfl⟩ := Option.map_eq_some_iff.mp h
    exact Host.class_name hc
  | source batch delegates outer =>
    obtain ⟨d, hd, rfl⟩ := Option.map_eq_some_iff.mp h
    obtain ⟨-, -, m, -, hpick, rfl⟩ := mem_declaredIn.mp (mem_of_lookup hd)
    cases m <;> cases hpick
    rfl

theorem ownProperty_qualifiedName {chain : Chain} {key : String} {d : Declared Property}
    (h : chain.ownProperty? key = some d) : (Symbol.property d).qualifiedName = key := by
  cases chain with
  | nothing | emptyHost | host => cases h
  | source batch delegates outer =>
    obtain ⟨-, -, m, -, hpick, rfl⟩ := mem_declaredIn.mp (mem_of_lookup h)
    obtain ⟨file, place, item⟩ := d
    cases m <;> cases hpick
    rfl

theorem ownSymbol_qualifiedName {chain : Chain} (hfilled : chain.Filled) {key : String} {s : Symbol}
    (h : chain.ownSymbol? key = some s) : s.qualifiedName = key := by
  cases chain with
  | nothing | emptyHost => cases h
  | host host =>
    rw [ownSymbol_host] at h
    exact Host.Filled.symbol_qualifiedName hfilled h
  | source batch delegates outer =>
    obtain ⟨d, hd, rfl⟩ := Option.map_eq_some_iff.mp h
    exact Declared.symbol_qualifiedName (mem_ranked.mp (mem_of_lookup hd))

theorem Filled.link {chain : Chain} (h : chain.Filled) (n : Nat) : (chain.link n).Filled := by
  induction n generalizing chain with
  | zero => exact h
  | succ n ih =>
    refine ih ?_
    cases chain with
    | source batch delegates outer => exact h
    | _ => trivial

section Answers

variable (chain : Chain) (key : String)

theorem isFirstOf_type : chain.IsFirstOf (·.ownType? key) (chain.type? key) :=
  isFirstOf_of_step rfl (fun chain => chain.type_step key) chain

theorem isFirstOf_symbol : chain.IsFirstOf (·.ownSymbol? key) (chain.symbol? key) :=
  isFirstOf_of_step rfl (fun chain => chain.symbol_step key) chain

theorem isFirstOf_property : chain.IsFirstOf (·.ownProperty? key) (chain.property? key) :=
  isFirstOf_of_step rfl (fun chain => chain.property_step key) chain

variable {chain key}

theorem type_qualifiedName {t : TypeDef} (h : chain.type? key = some t) : t.qualifiedName = key := by
  obtain ⟨n, hn⟩ := exists_link (chain.isFirstOf_type key) h
  exact ownType_qualifiedName hn

theorem symbol_qualifiedName (hfilled : chain.Filled) {s : Symbol} (h : chain.symbol? key = some s) :
    s.qualifiedName = key := by
  obtain ⟨n, hn⟩ := exists_link (chain.isFirstOf_symbol key) h
  exact ownSymbol_qualifiedName (hfilled.link n) hn

theorem property_qualifiedName {d : Declared Property} (h : chain.property? key = some d) :
    (Symbol.property d).qualifiedName = key := by
  obtain ⟨n, hn⟩ := exists_link (chain.isFirstOf_property key) h
  exact ownProperty_qualifiedName hn

end Answers

/-- The first link that declares a key answers for it, with something that has the key for its name. -/
theorem lookup_by_first_link (chain : Chain) (hfilled : chain.Filled) (key : String) :
    (chain.IsFirstOf (·.ownType? key) (chain.type? key) ∧
      ∀ t, chain.type? key = some t → t.qualifiedName = key) ∧
    (chain.IsFirstOf (·.ownSymbol? key) (chain.symbol? key) ∧
      ∀ s, chain.symbol? key = some s → s.qualifiedName = key) ∧
    (chain.IsFirstOf (·.ownProperty? key) (chain.property? key) ∧
      ∀ d, chain.property? key = some d → (Symbol.property d).qualifiedName = key) ∧
    (∀ (file : SourceFile) (name : String) (t : TypeDef), (Scope.mk chain file).type? name = some t →
      chain.type? t.qualifiedName = some t) ∧
    ∀ classes functions h, Host.FilledWith classes functions h →
      (∀ t, (host h).ownType? key = some t ↔ ∃ c, t = .host c ∧ IsLast (·.name = key) classes c) ∧
      ∀ s, (host h).ownSymbol? key = some s ↔ Host.Declares classes functions key s := by
  refine ⟨⟨chain.isFirstOf_type key, fun t => type_qualifiedName⟩,
    ⟨chain.isFirstOf_symbol key, fun s => symbol_qualifiedName hfilled⟩,
    ⟨chain.isFirstOf_property key, fun d => property_qualifiedName⟩, ?_, ?_⟩
  · intro file name t ht
    obtain ⟨candidate, -, hcandidate⟩ := List.exists_of_findSome?_eq_some ht
    rw [type_qualifiedName hcandidate]
    exact hcandidate
  · intro classes functions h hwith
    rw [ownType_host, ownSymbol_host]
    exact ⟨fun t => hwith.type_iff, fun s => hwith.symbol_iff⟩

end Chain

/-! ## The host of every program -/

theorem Host.filled_javaLang : javaLang.Filled := by
  have hthrowable : ∀ name ancestors, (JavaLang.throwable name ancestors).Built := fun name ancestors =>
    .withMethod _ _ _ _ (.extending ancestors (.ofName name))
  refine ⟨JavaLang.classes, [], FilledWith.empty.addClasses JavaLang.classes, ?_⟩
  simp only [JavaLang.classes, List.forall_mem_cons, List.not_mem_nil, false_implies, implies_true,
    and_true, hthrowable, true_and]
  refine ⟨⟨?_, by decide⟩, ⟨?_, by decide⟩, ⟨?_, by decide⟩, ⟨?_, by decide⟩, ⟨?_, by decide⟩,
    ⟨?_, by decide⟩, by decide, by decide, by decide, by decide, by decide⟩
  all_goals
    repeat' first
      | exact .ofName _
      | apply HostClass.Built.withMethod
      | apply HostClass.Built.withField

/-- Calls the strings of the host by another name. -/
def notesFile : SourceFile where
  namespaceName := ⟨["notes"], by decide, by decide⟩
  imports := [⟨⟨["java", "lang"], by decide, by decide⟩, .type "String" (some "Text"), none⟩]
  members := [.property ⟨"title", .reference "Text" none, none⟩]
  pos := none

def notesChain : Chain := .source (Batch.ofFiles 0 [notesFile]) false (.host Host.javaLang)

/-- A static field is called by its class and its name, and the strings by their own name. -/
theorem Chain.pi_and_text_found :
    notesChain.Filled ∧
      (∃ symbol, notesChain.symbol? "java.lang.Math.PI" = some symbol ∧
        symbol.qualifiedName = "java.lang.Math.PI") ∧
      (Scope.mk notesChain notesFile).type? "Text" = some (.host Host.JavaLang.stringClass) ∧
      notesChain.type? "java.lang.String" = some (.host Host.JavaLang.stringClass) := by
  have hfilled : notesChain.Filled := Host.filled_javaLang
  have hlookup := Chain.lookup_by_first_link notesChain hfilled "java.lang.Math.PI"
  have htext : (Scope.mk notesChain notesFile).type? "Text"
      = some (.host Host.JavaLang.stringClass) := rfl
  have hpi : notesChain.symbol? "java.lang.Math.PI"
      = some (.host (.field "java.lang.Math" ⟨"PI", Host.JavaLang.double, true⟩)) := rfl
  exact ⟨hfilled, ⟨_, hpi, hlookup.2.1.2 _ hpi⟩, htext, hlookup.2.2.2.1 notesFile "Text" _ htext⟩

end SemanticCheck
