import SemanticCheck.Proofs.References

/-!
# Reading descriptors

A descriptor is read from its front: brackets for arrays, then a letter or the name of a class between `L`
and a semicolon, with slashes for the dots. What is read back is the type without the ancestors of its
references, so types without functions have one descriptor exactly if they are the same type, as long as no
name has a slash of its own.
-/

namespace SemanticCheck

/-! ## Types without ancestors -/

namespace Ty

mutual

/-- The type with no ancestors at any of its references. -/
def bare : Ty → Ty
  | primitive p => primitive p
  | reference name _ => reference name []
  | array component => array component.bare
  | function params result => function (baresOf params) result.bare
  | void => void

def baresOf : List Ty → List Ty
  | [] => []
  | type :: rest => type.bare :: baresOf rest

end

mutual

/-- Two types are the same if nothing but their ancestors is different. -/
theorem sameType_iff (a b : Ty) : a.sameType b = true ↔ a.bare = b.bare := by
  cases a with
  | array component =>
    cases b with
    | array component' => simp [sameType, bare, sameType_iff component component']
    | _ => simp [sameType, bare]
  | function params result =>
    cases b with
    | function params' result' =>
      simp [sameType, bare, sameTypes_iff params params', sameType_iff result result']
    | _ => simp [sameType, bare]
  | _ => cases b <;> simp [sameType, bare]

theorem sameTypes_iff (as bs : List Ty) : sameTypes as bs = true ↔ baresOf as = baresOf bs := by
  cases as with
  | nil => cases bs <;> simp [sameTypes, baresOf]
  | cons a as =>
    cases bs with
    | nil => simp [sameTypes, baresOf]
    | cons b bs => simp [sameTypes, baresOf, sameType_iff a b, sameTypes_iff as bs]

end

mutual

theorem bare_bare (a : Ty) : a.bare.bare = a.bare := by
  cases a with
  | array component => simp [bare, bare_bare component]
  | function params result => simp [bare, baresOf_baresOf params, bare_bare result]
  | _ => simp [bare]

theorem baresOf_baresOf (as : List Ty) : baresOf (baresOf as) = baresOf as := by
  cases as with
  | nil => simp [baresOf]
  | cons a as => simp [baresOf, bare_bare a, baresOf_baresOf as]

end

theorem bare_sameType (a : Ty) : a.bare.sameType a = true := by
  rw [sameType_iff, bare_bare]

/-- Types that values in memory can have, and void: no functions at any depth. -/
inductive IsData : Ty → Prop
  | primitive (p : Primitive) : IsData (.primitive p)
  | reference (name : String) (ancestors : List String) : IsData (.reference name ancestors)
  | void : IsData .void
  | array {component : Ty} : IsData component → IsData (.array component)

/-- No name of a reference has a slash in it. -/
def SlashFree (type : Ty) : Prop := type.EachReference fun name _ => '/' ∉ name.toList

instance (type : Ty) : Decidable type.SlashFree :=
  inferInstanceAs (Decidable (type.EachReference fun name _ => '/' ∉ name.toList))

end Ty

/-! ## Characters in place of others -/

def replaceChar (old new c : Char) : Char := if c = old then new else c

section Replace

variable {old new : Char} {l : List Char}

theorem notMem_map_replaceChar (h : old ≠ new) (l : List Char) : old ∉ l.map (replaceChar old new) := by
  simp only [List.mem_map, not_exists, not_and, replaceChar]
  intro c _
  split <;> simp_all [eq_comm]

theorem map_replaceChar_back (h : new ∉ l) :
    (l.map (replaceChar old new)).map (replaceChar new old) = l := by
  have hback : ∀ c ∈ l, replaceChar new old (replaceChar old new c) = c := by
    intro c hc
    have hne : c ≠ new := fun heq => h (heq ▸ hc)
    unfold replaceChar
    split <;> simp_all
  rw [List.map_map]
  exact (List.map_congr_left hback).trans (List.map_id l)

end Replace

/-! ## The reader -/

def Primitive.ofLetter? (letter : Char) : Option Primitive := all.find? (·.letter == letter)

theorem Primitive.letter_of_ofLetter {letter : Char} {p : Primitive} (h : ofLetter? letter = some p) :
    p.letter = letter := by
  simpa using List.find?_some h

/-- The dotted name of a class from what follows its `L`. -/
def className? (text : List Char) : Option String :=
  if text.getLast? = some ';' ∧ '.' ∉ text then
    some (String.ofList (text.dropLast.map (replaceChar '/' '.')))
  else none

theorem className_slashed {name : String} (h : '/' ∉ name.toList) :
    className? (name.toList.map (replaceChar '.' '/') ++ [';']) = some name := by
  have hdot : '.' ∉ name.toList.map (replaceChar '.' '/') := notMem_map_replaceChar (by decide) _
  simp [className?, hdot, -List.map_map, map_replaceChar_back h]

theorem eq_slashed_of_className {text : List Char} {name : String} (h : className? text = some name) :
    text = name.toList.map (replaceChar '.' '/') ++ [';'] ∧ '/' ∉ name.toList := by
  unfold className? at h
  split at h
  · rename_i htext
    obtain ⟨hlast, hdot⟩ := htext
    obtain ⟨front, rfl⟩ := List.getLast?_eq_some_iff.mp hlast
    cases h
    have hfront : '.' ∉ front := fun hmem => hdot (List.mem_append_left _ hmem)
    rw [List.dropLast_concat, String.toList_ofList, map_replaceChar_back hfront]
    exact ⟨rfl, notMem_map_replaceChar (by decide) front⟩
  · cases h

namespace Ty

/-- The type of a single letter. -/
def ofLetter? (letter : Char) : Option Ty :=
  if letter = 'V' then some void else (Primitive.ofLetter? letter).map primitive

theorem descriptor_of_letter {letter : Char} {t : Ty} (h : ofLetter? letter = some t) :
    t.descriptor.toList = [letter] ∧ t.IsData ∧ t.SlashFree := by
  unfold ofLetter? at h
  split at h
  · rename_i hletter
    cases h
    exact ⟨by rw [hletter]; rfl, .void, by simp [SlashFree]⟩
  · obtain ⟨p, hp, rfl⟩ := Option.map_eq_some_iff.mp h
    refine ⟨?_, .primitive p, by simp [SlashFree]⟩
    rw [← Primitive.letter_of_ofLetter hp]
    cases p <;> rfl

/-- A type without ancestors, from its descriptor. -/
def decode? : List Char → Option Ty
  | [] => none
  | c :: rest =>
    if c = '[' then (decode? rest).map array
    else if c = 'L' then (className? rest).map (reference · [])
    else if rest = [] then ofLetter? c
    else none

theorem descriptor_reference (name : String) (ancestors : List String) :
    (reference name ancestors).descriptor.toList
      = 'L' :: (name.toList.map (replaceChar '.' '/') ++ [';']) := by
  simp [descriptor, replaceChar]

theorem decode_descriptor {t : Ty} (hdata : t.IsData) (hslash : t.SlashFree) :
    decode? t.descriptor.toList = some t.bare := by
  induction hdata with
  | primitive p => cases p <;> rfl
  | reference name ancestors =>
    have hname : '/' ∉ name.toList := by simpa [SlashFree] using hslash
    rw [descriptor_reference]
    simp [decode?, className_slashed hname, bare]
  | void => rfl
  | array _ ih =>
    have hcomponent := ih (by simpa [SlashFree] using hslash)
    simp [descriptor, decode?, hcomponent, bare]

/-- Nothing is read but descriptors, and each as a type that has it. -/
theorem descriptor_of_decode {text : List Char} {t : Ty} (h : decode? text = some t) :
    t.descriptor.toList = text ∧ t.IsData ∧ t.SlashFree := by
  induction text generalizing t with
  | nil => cases h
  | cons c rest ih =>
    unfold decode? at h
    split at h
    · rename_i hc
      obtain ⟨component, hcomponent, rfl⟩ := Option.map_eq_some_iff.mp h
      obtain ⟨htext, hdata, hslash⟩ := ih hcomponent
      exact ⟨by simp [descriptor, htext, hc], .array hdata, by simpa [SlashFree] using hslash⟩
    · split at h
      · rename_i hc
        obtain ⟨name, hname, rfl⟩ := Option.map_eq_some_iff.mp h
        obtain ⟨rfl, hslash⟩ := eq_slashed_of_className hname
        refine ⟨?_, .reference name [], by simpa [SlashFree] using hslash⟩
        rw [descriptor_reference, hc]
      · split at h
        · rename_i hrest
          rw [hrest]
          exact descriptor_of_letter h
        · cases h

theorem descriptor_bare (t : Ty) : t.bare.descriptor = t.descriptor := by
  cases t with
  | array component => simp only [bare, descriptor, descriptor_bare component]
  | function params result => simp only [bare, descriptor, descriptor_bare result]
  | _ => simp only [bare, descriptor]

/-- The type a descriptor stands for, without ancestors. -/
def ofDescriptor? (text : String) : Option Ty := decode? text.toList

/-- Types without functions have the same descriptor exactly if they are the same type, unless a name has
a slash in it: the type is read back from the descriptor up to its ancestors, and no other text is read. -/
theorem descriptor_determines_type (a b : Ty) (ha : a.IsData) (hb : b.IsData) (hslash : a.SlashFree)
    (hslash' : b.SlashFree) :
    (a.descriptor = b.descriptor ↔ a.sameType b = true) ∧
    (∃ t, ofDescriptor? a.descriptor = some t ∧ t.sameType a = true) ∧
    ∀ text t, ofDescriptor? text = some t → t.descriptor = text ∧ t.IsData ∧ t.SlashFree := by
  have hread : ofDescriptor? a.descriptor = some a.bare := decode_descriptor ha hslash
  have hread' : ofDescriptor? b.descriptor = some b.bare := decode_descriptor hb hslash'
  refine ⟨?_, ⟨a.bare, hread, bare_sameType a⟩, ?_⟩
  · rw [sameType_iff]
    constructor
    · intro h
      rw [h, hread'] at hread
      exact (Option.some.inj hread).symm
    · intro h
      rw [← descriptor_bare a, h, descriptor_bare b]
  · intro text t ht
    obtain ⟨htext, hdata, hfree⟩ := descriptor_of_decode ht
    exact ⟨String.toList_injective htext, hdata, hfree⟩

/-- Two rows of texts, one of which knows that a text is an object. -/
theorem string_rows_described :
    let rows := array (array string)
    let plain := array (array (reference stringName []))
    (rows.IsData ∧ plain.IsData ∧ rows.SlashFree ∧ plain.SlashFree) ∧
    (rows.descriptor = plain.descriptor ↔ rows.sameType plain = true) ∧
    (∃ t, ofDescriptor? "[[Ljava/lang/String;" = some t ∧ t.sameType rows = true) := by
  have hdata : ∀ ancestors, (array (array (reference stringName ancestors))).IsData :=
    fun ancestors => .array (.array (.reference stringName ancestors))
  have hfree : ∀ ancestors, (array (array (reference stringName ancestors))).SlashFree := by
    intro ancestors
    simp [SlashFree, stringName]
  obtain ⟨hsame, hread, -⟩ := descriptor_determines_type (array (array string))
    (array (array (reference stringName []))) (hdata _) (hdata _) (hfree _) (hfree _)
  exact ⟨⟨hdata _, hdata _, hfree _, hfree _⟩, hsame, hread⟩

/-- A slash in a name would be taken for a dot. -/
example : (reference "a/B" []).descriptor = (reference "a.B" []).descriptor ∧
    (reference "a/B" []).sameType (reference "a.B" []) = false := by
  decide

end Ty

end SemanticCheck
