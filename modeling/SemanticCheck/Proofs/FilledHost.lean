import Mathlib.Data.List.TakeDrop
import Mathlib.Data.List.TakeWhile
import SemanticCheck.Lookup.Chain

/-!
# What a host declares

A host is filled by adding classes and functions one after the other. Of two classes with one name the later
one counts, of two functions the earlier one. What a key leads to is said by what was added, and not by how
the table is searched.
-/

namespace SemanticCheck

/-! ## The first and the last of a list -/

/-- The element stands in the list and has the property, and nothing before it has. -/
def IsFirst {α : Type} (p : α → Prop) (l : List α) (a : α) : Prop :=
  ∃ before after, l = before ++ a :: after ∧ p a ∧ ∀ b ∈ before, ¬ p b

/-- The element stands in the list and has the property, and nothing after it has. -/
def IsLast {α : Type} (p : α → Prop) (l : List α) (a : α) : Prop :=
  ∃ before after, l = before ++ a :: after ∧ p a ∧ ∀ b ∈ after, ¬ p b

section IsFirst

variable {α : Type} {p q : α → Prop} {l : List α} {a : α}

theorem find_eq_some_iff_isFirst {test : α → Bool} :
    l.find? test = some a ↔ IsFirst (test · = true) l a := by
  rw [List.find?_eq_some_iff_append]
  constructor
  · rintro ⟨ha, before, after, hl, hbefore⟩
    exact ⟨before, after, hl, ha, fun b hb => by simpa using hbefore b hb⟩
  · rintro ⟨before, after, hl, ha, hbefore⟩
    exact ⟨ha, before, after, hl, fun b hb => by simpa using hbefore b hb⟩

theorem isFirst_congr (h : ∀ b, p b ↔ q b) : IsFirst p l a ↔ IsFirst q l a := by
  simp only [IsFirst, h]

theorem isFirst_reverse : IsFirst p l.reverse a ↔ IsLast p l a := by
  constructor
  · rintro ⟨before, after, hl, ha, hbefore⟩
    refine ⟨after.reverse, before.reverse, ?_, ha, by simpa using hbefore⟩
    rw [← List.reverse_reverse l, hl]
    simp
  · rintro ⟨before, after, rfl, ha, hafter⟩
    exact ⟨after.reverse, before.reverse, by simp, ha, by simpa using hafter⟩

theorem IsFirst.mem (h : IsFirst p l a) : a ∈ l ∧ p a := by
  obtain ⟨before, after, rfl, ha, -⟩ := h
  exact ⟨by simp, ha⟩

theorem IsLast.mem (h : IsLast p l a) : a ∈ l ∧ p a := by
  obtain ⟨before, after, rfl, ha, -⟩ := h
  exact ⟨by simp, ha⟩

theorem IsFirst.imp (h : IsFirst p l a) (himp : ∀ b, q b → p b) (ha : q a) : IsFirst q l a := by
  obtain ⟨before, after, hl, -, hbefore⟩ := h
  exact ⟨before, after, hl, ha, fun b hb hq => hbefore b hb (himp b hq)⟩

theorem isFirst_append {l' : List α} (h : IsFirst p (l ++ l') a) :
    IsFirst p l a ∨ (∀ b ∈ l, ¬ p b) ∧ IsFirst p l' a := by
  obtain ⟨before, after, heq, ha, hbefore⟩ := h
  rcases List.append_eq_append_iff.mp heq with ⟨rest, rfl, rfl⟩ | ⟨rest, rfl, hrest⟩
  · refine .inr ⟨fun b hb => hbefore b (by simp [hb]), rest, after, rfl, ha, ?_⟩
    exact fun b hb => hbefore b (by simp [hb])
  · cases rest with
    | nil => exact .inr ⟨by simpa using hbefore, [], after, hrest.symm, ha, by simp⟩
    | cons first rest =>
      obtain ⟨rfl, rfl⟩ := List.cons.inj hrest
      exact .inl ⟨before, rest, rfl, ha, hbefore⟩

end IsFirst

/-! ## Keys of members -/

theorem splitLastDot_append (front : String) {last : String} (h : hasDot last = false) :
    splitLastDot (front ++ "." ++ last) = some (front, last) := by
  have hlast : ∀ c ∈ last.toList.reverse, (c != '.') = true := by
    intro c hc
    simp only [hasDot, List.contains_eq_mem, decide_eq_false_iff_not] at h
    rw [bne_iff_ne]
    rintro rfl
    exact h (List.mem_reverse.mp hc)
  have htext : (front ++ "." ++ last).toList.reverse
      = last.toList.reverse ++ '.' :: front.toList.reverse := by
    simp
  unfold splitLastDot
  rw [htext, List.span_eq_takeWhile_dropWhile, List.takeWhile_append_of_pos hlast,
    List.dropWhile_append_of_pos hlast]
  simp

theorem splitLastDot_eq_some_iff {text front last : String} :
    splitLastDot text = some (front, last) ↔ text = front ++ "." ++ last ∧ hasDot last = false := by
  constructor
  · intro h
    have hparts := List.takeWhile_append_dropWhile (p := (· != '.')) (l := text.toList.reverse)
    rw [splitLastDot, List.span_eq_takeWhile_dropWhile] at h
    cases hrest : text.toList.reverse.dropWhile (· != '.') with
    | nil => simp [hrest] at h
    | cons dot rest =>
      -- What stops the search from the end is a dot, and there is none in what was passed by then.
      have hdot : dot = '.' := by
        have hhead := List.find?_not_eq_head?_dropWhile (· != '.') text.toList.reverse
        rw [hrest] at hhead
        simpa using List.find?_some hhead
      have hpassed : '.' ∉ text.toList.reverse.takeWhile (· != '.') := by
        intro hmem
        simpa using List.mem_takeWhile_imp hmem
      simp only [hrest, Option.some.injEq, Prod.mk.injEq] at h
      obtain ⟨rfl, rfl⟩ := h
      rw [hrest, hdot] at hparts
      refine ⟨String.toList_injective ?_, by simpa [hasDot] using hpassed⟩
      simpa using (congrArg List.reverse hparts).symm
  · rintro ⟨rfl, hlast⟩
    exact splitLastDot_append front hlast

theorem splitLastDot_eq_none_iff {text : String} : splitLastDot text = none ↔ hasDot text = false := by
  have hdots : text.toList.reverse.dropWhile (· != '.') = [] ↔ hasDot text = false := by
    simpa [List.dropWhile_eq_nil_iff, hasDot] using List.forall_mem_ne'
  rw [← hdots, splitLastDot, List.span_eq_takeWhile_dropWhile]
  cases text.toList.reverse.dropWhile (· != '.') <;> simp

/-! ## Filling a table -/

/-- A class that was named and then given ancestors, fields and methods. -/
inductive HostClass.Built : HostClass → Prop
  | ofName (name : String) : Built (.ofName name)
  | extending {c : HostClass} (ancestors : List String) : Built c → Built (c.extending ancestors)
  | withField {c : HostClass} (name : String) (type : Ty) (isStatic : Bool) :
      Built c → Built (c.withField name type isStatic)
  | withMethod {c : HostClass} (name : String) (params : List Ty) (result : Ty) (isStatic : Bool) :
      Built c → Built (c.withMethod name params result isStatic)

theorem HostClass.Built.owner {c : HostClass} (h : c.Built) : ∀ m ∈ c.methods, m.owner = c.name := by
  induction h with
  | ofName name => simp [HostClass.ofName]
  | extending ancestors _ ih => exact ih
  | withField name type isStatic _ ih => exact ih
  | withMethod name params result isStatic _ ih =>
    intro m hm
    rcases List.mem_append.mp hm with hm | hm
    · exact ih m hm
    · rw [List.mem_singleton.mp hm]
      rfl

namespace Host

/-- A table that these classes and functions were added to, each in the order of the lists. -/
inductive FilledWith : List HostClass → List HostMethod → Host → Prop
  | empty : FilledWith [] [] .empty
  | addClass {classes : List HostClass} {functions : List HostMethod} {h : Host} (c : HostClass) :
      FilledWith classes functions h → FilledWith (classes ++ [c]) functions (h.addClass c)
  | addFunction {classes : List HostClass} {functions : List HostMethod} {h : Host} (name : String)
      (params : List Ty) (result : Ty) : FilledWith classes functions h →
      FilledWith classes (functions ++ [⟨"", name, params, result, true⟩]) (h.addFunction name params result)

/-- A table that classes, each with some name, and functions were added to. -/
def Filled (h : Host) : Prop :=
  ∃ classes functions, FilledWith classes functions h ∧ ∀ c ∈ classes, c.Built ∧ c.name ≠ ""

section FilledWith

variable {classes : List HostClass} {functions : List HostMethod} {h : Host}

theorem FilledWith.classes_eq (hfilled : FilledWith classes functions h) : h.classes = classes.reverse := by
  induction hfilled with
  | empty => rfl
  | addClass c _ ih => simp [Host.addClass, ih]
  | addFunction _ _ _ _ ih => exact ih

theorem FilledWith.functions_eq (hfilled : FilledWith classes functions h) : h.functions = functions := by
  induction hfilled with
  | empty => rfl
  | addClass _ _ ih => exact ih
  | addFunction _ _ _ _ ih => simp [Host.addFunction, ih]

theorem FilledWith.free (hfilled : FilledWith classes functions h) :
    ∀ f ∈ functions, f.owner = "" ∧ f.isStatic = true := by
  induction hfilled with
  | empty => simp
  | addClass _ _ ih => exact ih
  | addFunction name params result _ ih => exact List.forall_mem_append.mpr ⟨ih, by simp⟩

theorem FilledWith.addClasses (hfilled : FilledWith classes functions h) (more : List HostClass) :
    FilledWith (classes ++ more) functions (more.foldl Host.addClass h) := by
  induction more generalizing classes h with
  | nil => simpa using hfilled
  | cons c rest ih => simpa using ih (hfilled.addClass c)

end FilledWith

section Filled

variable {h : Host}

theorem Filled.classes (hfilled : h.Filled) : ∀ c ∈ h.classes, c.Built ∧ c.name ≠ "" := by
  obtain ⟨added, functions, hwith, hadded⟩ := hfilled
  simpa [hwith.classes_eq] using hadded

theorem Filled.functions (hfilled : h.Filled) : ∀ f ∈ h.functions, f.owner = "" ∧ f.isStatic = true := by
  obtain ⟨added, functions, hwith, -⟩ := hfilled
  rw [hwith.functions_eq]
  exact hwith.free

theorem Filled.addFunction (hfilled : h.Filled) (name : String) (params : List Ty) (result : Ty) :
    (h.addFunction name params result).Filled := by
  obtain ⟨added, functions, hwith, hadded⟩ := hfilled
  exact ⟨added, _, hwith.addFunction name params result, hadded⟩

end Filled

theorem class_name {h : Host} {name : String} {c : HostClass} (hc : h.class? name = some c) :
    c.name = name := by
  simpa using List.find?_some hc

/-! ## What was added under a key -/

/-- The key is a name in the class before its last dot, and no class or function has it for its own. -/
structure LeadsInto (classes : List HostClass) (functions : List HostMethod) (key : String)
    (c : HostClass) (name : String) : Prop where
  no_class : ∀ other ∈ classes, other.name ≠ key
  no_function : ∀ f ∈ functions, f.name ≠ key
  joined : key = c.name ++ "." ++ name
  dotless : hasDot name = false
  latest : IsLast (·.name = c.name) classes c

/-- What a table with these classes and functions has under a key: a class if there is one, then a function,
then a field of the class before the last dot, then a method of it. -/
inductive Declares (classes : List HostClass) (functions : List HostMethod) (key : String) : Symbol → Prop
  | ofClass {c : HostClass} : IsLast (·.name = key) classes c →
      Declares classes functions key (.type (.host c))
  | ofFunction {f : HostMethod} : (∀ c ∈ classes, c.name ≠ key) → IsFirst (·.name = key) functions f →
      Declares classes functions key (.host (.method f))
  | ofField {c : HostClass} {name : String} {f : HostField} : LeadsInto classes functions key c name →
      IsFirst (·.name = name) c.fields f → Declares classes functions key (.host (.field c.name f))
  | ofMethod {c : HostClass} {name : String} {m : HostMethod} : LeadsInto classes functions key c name →
      (∀ f ∈ c.fields, f.name ≠ name) → IsFirst (·.name = name) c.methods m →
      Declares classes functions key (.host (.method m))

namespace FilledWith

variable {classes : List HostClass} {functions : List HostMethod} {h : Host} {key : String}

theorem class_eq_some_iff (hfilled : FilledWith classes functions h) {c : HostClass} :
    h.class? key = some c ↔ IsLast (·.name = key) classes c := by
  rw [class?, hfilled.classes_eq, find_eq_some_iff_isFirst, isFirst_reverse]
  simp only [beq_iff_eq]

theorem class_eq_none_iff (hfilled : FilledWith classes functions h) :
    h.class? key = none ↔ ∀ c ∈ classes, c.name ≠ key := by
  simp [class?, hfilled.classes_eq]

theorem function_eq_some_iff (hfilled : FilledWith classes functions h) {f : HostMethod} :
    h.function? key = some f ↔ IsFirst (·.name = key) functions f := by
  rw [function?, hfilled.functions_eq, find_eq_some_iff_isFirst]
  simp only [beq_iff_eq]

theorem function_eq_none_iff (hfilled : FilledWith classes functions h) :
    h.function? key = none ↔ ∀ f ∈ functions, f.name ≠ key := by
  simp [function?, hfilled.functions_eq]

theorem type_iff (hfilled : FilledWith classes functions h) {t : TypeDef} :
    (Chain.host h).type? key = some t ↔ ∃ c, t = .host c ∧ IsLast (·.name = key) classes c := by
  simp only [Chain.type?, Option.map_eq_some_iff, hfilled.class_eq_some_iff]
  constructor
  · rintro ⟨c, hc, rfl⟩
    exact ⟨c, rfl, hc⟩
  · rintro ⟨c, rfl, hc⟩
    exact ⟨c, hc, rfl⟩

theorem declares_of_symbol (hfilled : FilledWith classes functions h) {s : Symbol}
    (hs : (Chain.host h).symbol? key = some s) : Declares classes functions key s := by
  simp only [Chain.symbol?] at hs
  split at hs
  · rename_i c hc
    cases hs
    exact .ofClass (hfilled.class_eq_some_iff.mp hc)
  · rename_i hclass
    rw [hfilled.class_eq_none_iff] at hclass
    split at hs
    · rename_i f hf
      cases hs
      exact .ofFunction hclass (hfilled.function_eq_some_iff.mp hf)
    · rename_i hfunction
      rw [hfilled.function_eq_none_iff] at hfunction
      obtain ⟨m, hm, rfl⟩ := Option.map_eq_some_iff.mp hs
      simp only [member?, Option.bind_eq_bind, Option.bind_eq_some_iff, Prod.exists,
        splitLastDot_eq_some_iff] at hm
      obtain ⟨owner, name, ⟨hkey, hdot⟩, c, hc, hm⟩ := hm
      obtain rfl := class_name hc
      have hinto : LeadsInto classes functions key c name :=
        ⟨hclass, hfunction, hkey, hdot, hfilled.class_eq_some_iff.mp hc⟩
      split at hm
      · rename_i f hf
        cases hm
        exact .ofField hinto (by simpa using find_eq_some_iff_isFirst.mp hf)
      · rename_i hfield
        obtain ⟨method, hmethod, rfl⟩ := Option.map_eq_some_iff.mp hm
        exact .ofMethod hinto (by simpa using hfield) (by simpa using find_eq_some_iff_isFirst.mp hmethod)

theorem lookups_of_leadsInto (hfilled : FilledWith classes functions h) {c : HostClass} {name : String}
    (hinto : LeadsInto classes functions key c name) :
    h.class? key = none ∧ h.function? key = none ∧ splitLastDot key = some (c.name, name) ∧
      h.class? c.name = some c :=
  ⟨hfilled.class_eq_none_iff.mpr hinto.no_class, hfilled.function_eq_none_iff.mpr hinto.no_function,
    splitLastDot_eq_some_iff.mpr ⟨hinto.joined, hinto.dotless⟩, hfilled.class_eq_some_iff.mpr hinto.latest⟩

theorem symbol_of_declares (hfilled : FilledWith classes functions h) {s : Symbol}
    (hs : Declares classes functions key s) : (Chain.host h).symbol? key = some s := by
  cases hs with
  | ofClass hlatest => simp [Chain.symbol?, hfilled.class_eq_some_iff.mpr hlatest]
  | ofFunction hclass hfirst =>
    simp [Chain.symbol?, hfilled.class_eq_none_iff.mpr hclass, hfilled.function_eq_some_iff.mpr hfirst]
  | @ofField c name f hinto hfirst =>
    obtain ⟨hclass, hfunction, hsplit, howner⟩ := hfilled.lookups_of_leadsInto hinto
    have hfield : c.fields.find? (·.name == name) = some f :=
      find_eq_some_iff_isFirst.mpr (by simpa using hfirst)
    simp [Chain.symbol?, member?, hclass, hfunction, hsplit, howner, hfield]
  | @ofMethod c name m hinto hfields hfirst =>
    obtain ⟨hclass, hfunction, hsplit, howner⟩ := hfilled.lookups_of_leadsInto hinto
    have hnone : c.fields.find? (·.name == name) = none := by simpa using hfields
    have hmethod : c.methods.find? (·.name == name) = some m :=
      find_eq_some_iff_isFirst.mpr (by simpa using hfirst)
    simp [Chain.symbol?, member?, hclass, hfunction, hsplit, howner, hnone, hmethod]

theorem symbol_iff (hfilled : FilledWith classes functions h) {s : Symbol} :
    (Chain.host h).symbol? key = some s ↔ Declares classes functions key s :=
  ⟨hfilled.declares_of_symbol, hfilled.symbol_of_declares⟩

end FilledWith

end Host

end SemanticCheck
