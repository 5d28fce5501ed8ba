import Mathlib.Data.List.Induction
import SemanticCheck.Text.Name

/-!
# Names and their texts

A text is cut at its dots into pieces, and a name is read from it when no piece is empty. Reading and
writing a name are then inverse to each other. What is put below a name is not looked at, so that a name
made step by step may have segments that no text is read as.
-/

namespace SemanticCheck

/-! ## Cutting and joining -/

theorem joinDots_eq_intercalate (pieces : List String) : joinDots pieces = ".".intercalate pieces := by
  induction pieces with
  | nil => rfl
  | cons piece rest ih =>
    cases rest with
    | nil => simp [joinDots]
    | cons next rest => rw [String.intercalate_cons_cons, ← ih, joinDots]; simp

theorem splitDots_eq_splitOn (cs : List Char) : splitDots cs = cs.splitOn '.' := by
  induction cs with
  | nil => rfl
  | cons c rest ih =>
    rw [splitDots, ih, List.splitOn_cons_eq_if_modifyHead]
    simp only [beq_iff_eq]
    split
    · rfl
    · cases hrest : List.splitOn '.' rest with
      | nil => exact absurd hrest (List.splitOn_ne_nil _ _)
      | cons piece pieces => rfl

theorem dotless_of_mem_splitDots {cs piece : List Char} (h : piece ∈ splitDots cs) : '.' ∉ piece := by
  fun_induction splitDots cs generalizing piece with
  | case1 => simp_all
  | case2 rest ih =>
    rcases List.mem_cons.mp h with rfl | h
    · simp
    · exact ih h
  | case3 c rest hc hrest ih =>
    rw [splitDots_eq_splitOn] at hrest
    exact absurd hrest (List.splitOn_ne_nil _ _)
  | case4 c rest hc first others hrest ih =>
    rcases List.mem_cons.mp h with rfl | h
    · have hfirst := ih (hrest ▸ List.mem_cons_self)
      simp [Ne.symm hc, hfirst]
    · exact ih (hrest ▸ List.mem_cons_of_mem _ h)

/-- The pieces that a name is read from. -/
def dotPieces (text : String) : List String := (splitDots text.toList).map String.ofList

/-- These are the pieces of a text between its dots: with a dot between any two they make up the text, and
there is no dot inside of them. -/
structure PiecesOf (text : String) (pieces : List String) : Prop where
  ne_nil : pieces ≠ []
  dotless : ∀ piece ∈ pieces, '.' ∉ piece.toList
  joined : ".".intercalate pieces = text

theorem piecesOf_dotPieces (text : String) : PiecesOf text (dotPieces text) where
  ne_nil := by
    rw [dotPieces, splitDots_eq_splitOn]
    simp [List.splitOn_ne_nil]
  dotless := by
    intro piece hpiece
    obtain ⟨cs, hcs, rfl⟩ := List.mem_map.mp hpiece
    rw [String.toList_ofList]
    exact dotless_of_mem_splitDots hcs
  joined := by
    apply String.toList_injective
    rw [String.toList_intercalate, dotPieces, splitDots_eq_splitOn]
    simp [List.map_map, Function.comp_def, List.intercalate_splitOn]

theorem piecesOf_iff {text : String} {pieces : List String} :
    PiecesOf text pieces ↔ pieces = dotPieces text := by
  constructor
  · rintro ⟨hne, hdotless, rfl⟩
    have hsplit : List.splitOn '.' (['.'].intercalate (pieces.map String.toList))
        = pieces.map String.toList := by
      apply List.splitOn_intercalate
      · simpa using hdotless
      · simpa using hne
    rw [dotPieces, splitDots_eq_splitOn, String.toList_intercalate]
    simp [hsplit, List.map_map, Function.comp_def]
  · rintro rfl
    exact piecesOf_dotPieces text

theorem dotPieces_of_dotless {text : String} (h : '.' ∉ text.toList) : dotPieces text = [text] := by
  rw [dotPieces, splitDots_eq_splitOn, List.splitOn_eq_singleton h]
  simp

theorem dotPieces_join (front rest : String) :
    dotPieces (front ++ "." ++ rest) = dotPieces front ++ dotPieces rest := by
  have htext : (front ++ "." ++ rest).toList = front.toList ++ '.' :: rest.toList := by simp
  simp only [dotPieces, splitDots_eq_splitOn, htext, List.splitOn_append_cons_self, List.map_append]

theorem validSegment_iff {segment : String} :
    validSegment segment = true ↔ segment ≠ "" ∧ '.' ∉ segment.toList := by
  simp [validSegment, hasDot]

namespace QualifiedName

/-! ## Reading and writing -/

theorem eq_of_segments {a b : QualifiedName} (h : a.segments = b.segments) : a = b := by
  cases a
  cases b
  cases h
  rfl

/-- What construction asks of a name. -/
structure Proper (name : QualifiedName) : Prop where
  ne_nil : name.segments ≠ []
  valid : ∀ segment ∈ name.segments, segment ≠ "" ∧ '.' ∉ segment.toList

theorem text_eq (name : QualifiedName) : name.text = ".".intercalate name.segments :=
  joinDots_eq_intercalate name.segments

theorem ofSegments_eq_ok_iff {segments : List String} {name : QualifiedName} :
    ofSegments segments = .ok name ↔ name.segments = segments ∧ name.Proper := by
  have hall : segments.all validSegment = true
      ↔ ∀ segment ∈ segments, segment ≠ "" ∧ '.' ∉ segment.toList := by
    simp only [List.all_eq_true, validSegment_iff]
  unfold ofSegments
  split
  · rename_i h
    constructor
    · intro heq
      obtain rfl := Except.ok.inj heq
      exact ⟨rfl, h.1, hall.mp h.2⟩
    · rintro ⟨hsegments, -⟩
      exact congrArg Except.ok (eq_of_segments hsegments.symm)
  · rename_i h
    constructor
    · intro heq
      cases heq
    · rintro ⟨rfl, hne, hvalid⟩
      exact absurd ⟨hne, hall.mpr hvalid⟩ h

theorem error_of_ofSegments {segments : List String} {e : SourceError}
    (h : ofSegments segments = .error e) : e = .invalidQualifiedName (".".intercalate segments) := by
  unfold ofSegments at h
  split at h
  · cases h
  · rw [← joinDots_eq_intercalate]
    exact (Except.error.inj h).symm

theorem ofSegments_isOk_iff {segments : List String} :
    (∃ name, ofSegments segments = .ok name) ↔
      segments ≠ [] ∧ ∀ segment ∈ segments, segment ≠ "" ∧ '.' ∉ segment.toList := by
  constructor
  · rintro ⟨name, h⟩
    obtain ⟨rfl, hne, hvalid⟩ := ofSegments_eq_ok_iff.mp h
    exact ⟨hne, hvalid⟩
  · rintro ⟨hne, hvalid⟩
    have hhead := validSegment_iff.mpr (hvalid _ (List.head_mem hne))
    exact ⟨⟨segments, hne, hhead⟩, ofSegments_eq_ok_iff.mpr ⟨rfl, hne, hvalid⟩⟩

theorem parse_eq (text : String) : parse text = ofSegments (dotPieces text) := rfl

theorem parse_eq_ok_iff {text : String} {name : QualifiedName} :
    parse text = .ok name ↔ name.text = text ∧ name.Proper := by
  rw [parse_eq, ofSegments_eq_ok_iff, text_eq, ← piecesOf_iff]
  constructor
  · rintro ⟨hpieces, hproper⟩
    exact ⟨hpieces.joined, hproper⟩
  · rintro ⟨hjoined, hproper⟩
    exact ⟨⟨hproper.ne_nil, fun piece hpiece => (hproper.valid piece hpiece).2, hjoined⟩, hproper⟩

/-- Reading a name and writing it are inverse to each other, on the texts that can be read. -/
theorem parse_inverts_text (text : String) (segments : List String) :
    (∃ pieces, (∀ others, PiecesOf text others ↔ others = pieces) ∧
      ((∃ name, parse text = .ok name) ↔ ∀ piece ∈ pieces, piece ≠ "") ∧
      (∀ name, parse text = .ok name → name.text = text ∧ name.segments = pieces) ∧
      ∀ e, parse text = .error e → e = .invalidQualifiedName text) ∧
    ((∃ name, ofSegments segments = .ok name) ↔
      segments ≠ [] ∧ ∀ segment ∈ segments, segment ≠ "" ∧ '.' ∉ segment.toList) ∧
    (∀ name, ofSegments segments = .ok name →
      name.segments = segments ∧ parse name.text = .ok name) ∧
    (∀ e, ofSegments segments = .error e → e = .invalidQualifiedName (".".intercalate segments)) ∧
    ∀ name, parse text = .ok name ↔ name.text = text ∧ ofSegments name.segments = .ok name := by
  have hpieces := piecesOf_dotPieces text
  refine ⟨⟨dotPieces text, fun others => piecesOf_iff, ?_, ?_, ?_⟩, ofSegments_isOk_iff, ?_,
    fun e => error_of_ofSegments, ?_⟩
  · rw [parse_eq, ofSegments_isOk_iff]
    constructor
    · rintro ⟨-, hvalid⟩ piece hpiece
      exact (hvalid piece hpiece).1
    · intro hnonempty
      exact ⟨hpieces.ne_nil, fun piece hpiece => ⟨hnonempty piece hpiece, hpieces.dotless piece hpiece⟩⟩
  · intro name hname
    exact ⟨(parse_eq_ok_iff.mp hname).1, (ofSegments_eq_ok_iff.mp hname).1⟩
  · intro e he
    rw [parse_eq] at he
    rw [error_of_ofSegments he, hpieces.joined]
  · intro name hname
    obtain ⟨hsegments, hproper⟩ := ofSegments_eq_ok_iff.mp hname
    exact ⟨hsegments, parse_eq_ok_iff.mpr ⟨rfl, hproper⟩⟩
  · intro name
    rw [parse_eq_ok_iff, ofSegments_eq_ok_iff]
    simp

/-- Segments are read back from the text of their name. A doubled dot leaves an empty piece, and a segment
with a dot is none that could be read. -/
theorem doubled_dot_refused :
    (∃ name, ofSegments ["lib", "io"] = .ok name ∧ parse name.text = .ok name) ∧
      PiecesOf "lib..io" ["lib", "", "io"] ∧
      parse "lib..io" = .error (.invalidQualifiedName "lib..io") ∧
      ofSegments ["lib.io"] = .error (.invalidQualifiedName "lib.io") := by
  obtain ⟨⟨pieces, hunique, haccepted, -, herror⟩, hmade, hback, -, -⟩ :=
    parse_inverts_text "lib..io" ["lib", "io"]
  obtain ⟨-, hdotted, -, hrefused, -⟩ := parse_inverts_text "lib..io" ["lib.io"]
  have hpieces : PiecesOf "lib..io" ["lib", "", "io"] := ⟨by simp, by decide, by decide⟩
  refine ⟨?_, hpieces, ?_, ?_⟩
  · obtain ⟨name, hname⟩ := hmade.mpr (by decide)
    exact ⟨name, hname, (hback name hname).2⟩
  · cases hparse : parse "lib..io" with
    | ok name =>
      have hnonempty := haccepted.mp ⟨name, hparse⟩
      rw [← (hunique _).mp hpieces] at hnonempty
      simp at hnonempty
    | error e => rw [herror e hparse]
  · cases hname : ofSegments ["lib.io"] with
    | ok name =>
      have hvalid := (hdotted.mp ⟨name, hname⟩).2 "lib.io" (by simp)
      simp at hvalid
    | error e =>
      rw [hrefused e hname]
      simp

/-! ## Names made step by step -/

/-- A name that constructions lead to, and then steps down to a child and up to the parent. Only the allowed
texts are put below a name. -/
inductive Reached (allowed : String → Prop) : QualifiedName → Prop
  | made {segments : List String} {name : QualifiedName} :
      ofSegments segments = .ok name → Reached allowed name
  | read {text : String} {name : QualifiedName} : parse text = .ok name → Reached allowed name
  | child {name : QualifiedName} {segment : String} :
      Reached allowed name → allowed segment → Reached allowed (name.child segment)
  | parent {name outer : QualifiedName} :
      Reached allowed name → name.parent = some outer → Reached allowed outer

theorem child_segments (name : QualifiedName) (segment : String) :
    (name.child segment).segments = name.segments ++ [segment] := rfl

theorem parent_segments {name outer : QualifiedName} (h : name.parent = some outer) :
    outer.segments = name.segments.dropLast := by
  unfold parent at h
  split at h
  · rw [← Option.some.inj h]
  · cases h

/-- Segments as a construction takes them, with allowed ones below. -/
structure Stack (allowed : String → Prop) (made below : List String) : Prop where
  ne_nil : made ≠ []
  valid : ∀ segment ∈ made, segment ≠ "" ∧ '.' ∉ segment.toList
  below : ∀ segment ∈ below, allowed segment

section Stack

variable {allowed : String → Prop} {made below : List String} {name : QualifiedName}

theorem Proper.stack (h : name.Proper) : Stack allowed name.segments [] := ⟨h.ne_nil, h.valid, by simp⟩

theorem Stack.push (h : Stack allowed made below) {segment : String} (hsegment : allowed segment) :
    Stack allowed made (below ++ [segment]) := by
  refine ⟨h.ne_nil, h.valid, ?_⟩
  intro other hother
  rcases List.mem_append.mp hother with hother | hother
  · exact h.below other hother
  · rw [List.mem_singleton.mp hother]
    exact hsegment

/-- Without its last segment a stack loses an allowed one, or a proper one if none is below. -/
theorem Stack.pop (h : Stack allowed made below) (hne : (made ++ below).dropLast ≠ []) :
    ∃ made' below', (made ++ below).dropLast = made' ++ below' ∧ Stack allowed made' below' := by
  by_cases hbelow : below = []
  · rw [hbelow, List.append_nil] at hne ⊢
    refine ⟨made.dropLast, [], (List.append_nil _).symm, hne, ?_, by simp⟩
    exact fun segment hsegment => h.valid segment (List.dropLast_subset _ hsegment)
  · refine ⟨made, below.dropLast, List.dropLast_append_of_ne_nil hbelow, h.ne_nil, h.valid, ?_⟩
    exact fun segment hsegment => h.below segment (List.dropLast_subset _ hsegment)

theorem Stack.exists_reached (h : Stack allowed made below) :
    ∃ name, Reached allowed name ∧ name.segments = made ++ below := by
  induction below using List.reverseRecOn with
  | nil =>
    obtain ⟨name, hname⟩ := ofSegments_isOk_iff.mpr ⟨h.ne_nil, h.valid⟩
    exact ⟨name, .made hname, (ofSegments_eq_ok_iff.mp hname).1.trans (List.append_nil _).symm⟩
  | append_singleton below segment ih =>
    have hbelow : ∀ other ∈ below, allowed other := fun other hother => h.below other (by simp [hother])
    obtain ⟨name, hname, hsegments⟩ := ih ⟨h.ne_nil, h.valid, hbelow⟩
    refine ⟨name.child segment, hname.child (h.below segment (by simp)), ?_⟩
    rw [← List.append_assoc, ← hsegments, child_segments]

theorem reached_iff :
    Reached allowed name ↔ ∃ made below, name.segments = made ++ below ∧ Stack allowed made below := by
  constructor
  · intro h
    induction h with
    | made h => exact ⟨_, [], (List.append_nil _).symm, (ofSegments_eq_ok_iff.mp h).2.stack⟩
    | read h => exact ⟨_, [], (List.append_nil _).symm, (parse_eq_ok_iff.mp h).2.stack⟩
    | child _ hsegment ih =>
      obtain ⟨made, below, hsegments, hstack⟩ := ih
      exact ⟨made, _, by rw [child_segments, hsegments, List.append_assoc], hstack.push hsegment⟩
    | @parent name outer _ hparent ih =>
      obtain ⟨made, below, hsegments, hstack⟩ := ih
      have houter : outer.segments = (made ++ below).dropLast := hsegments ▸ parent_segments hparent
      rw [houter]
      exact hstack.pop (houter ▸ outer.ne_nil)
  · rintro ⟨made, below, hsegments, hstack⟩
    obtain ⟨other, hother, heq⟩ := hstack.exists_reached
    rwa [eq_of_segments (hsegments.trans heq.symm)]

/-- A property of the segments that holds of pieces, and of what is put below a name, holds of all. -/
theorem Reached.forall_segments {P : String → Prop}
    (hproper : ∀ segment, segment ≠ "" → '.' ∉ segment.toList → P segment)
    (hallowed : ∀ segment, allowed segment → P segment) (h : Reached allowed name) :
    ∀ segment ∈ name.segments, P segment := by
  obtain ⟨made, below, hsegments, hstack⟩ := reached_iff.mp h
  intro segment hmem
  rw [hsegments, List.mem_append] at hmem
  rcases hmem with hmem | hmem
  · exact hproper segment (hstack.valid segment hmem).1 (hstack.valid segment hmem).2
  · exact hallowed segment (hstack.below segment hmem)

theorem exists_first (name : QualifiedName) :
    ∃ first rest, name.segments = first :: rest ∧ first ≠ "" ∧ '.' ∉ first.toList := by
  obtain ⟨first, rest, hsegments⟩ := List.exists_cons_of_ne_nil name.ne_nil
  have hhead := validSegment_iff.mp name.valid_head
  simp only [hsegments, List.head_cons] at hhead
  exact ⟨first, rest, hsegments, hhead⟩

/-- Any text may be put below a name, so only the first segment is sure to be proper. -/
theorem reached_of_any (name : QualifiedName) : Reached (fun _ => True) name := by
  obtain ⟨first, rest, hsegments, hfirst⟩ := name.exists_first
  exact reached_iff.mpr ⟨[first], rest, hsegments, by simp, by simpa using hfirst, by simp⟩

end Stack

theorem order_eq_iff {a b : QualifiedName} : a.order b = .eq ↔ a = b := by
  rw [order, Std.LawfulEqCmp.compare_eq_iff_eq]
  exact ⟨eq_of_segments, congrArg segments⟩

theorem piecesOf_segments {name : QualifiedName} (h : ∀ segment ∈ name.segments, '.' ∉ segment.toList) :
    PiecesOf name.text name.segments :=
  ⟨name.ne_nil, h, name.text_eq.symm⟩

theorem eq_of_text {a b : QualifiedName} (ha : ∀ segment ∈ a.segments, '.' ∉ segment.toList)
    (hb : ∀ segment ∈ b.segments, '.' ∉ segment.toList) (h : a.text = b.text) : a = b := by
  apply eq_of_segments
  rw [piecesOf_iff.mp (piecesOf_segments ha), piecesOf_iff.mp (piecesOf_segments hb), h]

/-- The name without dots inside of its segments that has the same text. -/
theorem exists_dotless (name : QualifiedName) :
    ∃ plain : QualifiedName, plain.text = name.text ∧ ∀ segment ∈ plain.segments, '.' ∉ segment.toList := by
  have hpieces := piecesOf_dotPieces name.text
  obtain ⟨first, rest, hsegments, hfirst⟩ := name.exists_first
  -- The first piece is the first segment, which has no dot.
  have hhead : ∃ others, dotPieces name.text = first :: others := by
    rw [text_eq, hsegments]
    cases rest with
    | nil =>
      rw [String.intercalate_singleton]
      exact ⟨[], dotPieces_of_dotless hfirst.2⟩
    | cons next rest =>
      rw [String.intercalate_cons_cons, dotPieces_join, dotPieces_of_dotless hfirst.2]
      exact ⟨_, rfl⟩
  obtain ⟨others, hothers⟩ := hhead
  refine ⟨⟨dotPieces name.text, hpieces.ne_nil, ?_⟩, ?_, hpieces.dotless⟩
  · simpa [hothers] using validSegment_iff.mpr hfirst
  · rw [text_eq]
    exact hpieces.joined

/-- The names that steps lead to are proper exactly as long as what is put below a name is. -/
theorem reached_by_steps (allowed : String → Prop) :
    (∀ segments, (∃ name, Reached allowed name ∧ name.segments = segments) ↔
      ∃ made below, segments = made ++ below ∧ made ≠ [] ∧
        (∀ segment ∈ made, segment ≠ "" ∧ '.' ∉ segment.toList) ∧ ∀ segment ∈ below, allowed segment) ∧
    ((∀ name, Reached allowed name → name.Proper) ↔
      ∀ segment, allowed segment → segment ≠ "" ∧ '.' ∉ segment.toList) ∧
    ((∀ segment, allowed segment → '.' ∉ segment.toList) →
      ∀ a b, Reached allowed a → Reached allowed b → a.text = b.text → a = b ∧ a.order b = .eq) ∧
    ∀ name, Reached allowed name → ∃ plain : QualifiedName, plain.text = name.text ∧
      (∀ segment ∈ plain.segments, '.' ∉ segment.toList) ∧
      Reached (fun _ => True) plain ∧ ((∀ segment ∈ plain.segments, segment ≠ "") → Reached allowed plain) ∧
      ((∃ segment ∈ name.segments, '.' ∈ segment.toList) → name ≠ plain ∧ name.order plain ≠ .eq) := by
  refine ⟨?_, ?_, ?_, ?_⟩
  · intro segments
    constructor
    · rintro ⟨name, hname, rfl⟩
      obtain ⟨made, below, hsegments, hne, hmade, hbelow⟩ := reached_iff.mp hname
      exact ⟨made, below, hsegments, hne, hmade, hbelow⟩
    · rintro ⟨made, below, rfl, hne, hmade, hbelow⟩
      exact Stack.exists_reached ⟨hne, hmade, hbelow⟩
  · constructor
    · intro hproper segment hsegment
      have hroot : ofSegments ["a"] = .ok ⟨["a"], by decide, by decide⟩ :=
        ofSegments_eq_ok_iff.mpr ⟨rfl, by simp, by simp⟩
      have hchild := hproper _ ((Reached.made hroot).child hsegment)
      exact hchild.valid segment (by simp [child_segments])
    · intro hallowed name hname
      exact ⟨name.ne_nil, hname.forall_segments (fun _ hne hdot => ⟨hne, hdot⟩) hallowed⟩
  · intro hallowed a b ha hb htext
    have heq : a = b := eq_of_text (ha.forall_segments (fun _ _ hdot => hdot) hallowed)
      (hb.forall_segments (fun _ _ hdot => hdot) hallowed) htext
    exact ⟨heq, order_eq_iff.mpr heq⟩
  · intro name _
    obtain ⟨plain, htext, hdotless⟩ := name.exists_dotless
    refine ⟨plain, htext, hdotless, reached_of_any plain, ?_, ?_⟩
    · intro hne
      have hproper : plain.Proper :=
        ⟨plain.ne_nil, fun segment hsegment => ⟨hne segment hsegment, hdotless segment hsegment⟩⟩
      exact .made (ofSegments_eq_ok_iff.mpr ⟨rfl, hproper⟩)
    · rintro ⟨segment, hsegment, hdot⟩
      have hother : name ≠ plain := by
        rintro rfl
        exact hdotless segment hsegment hdot
      exact ⟨hother, fun heq => hother (order_eq_iff.mp heq)⟩

/-- A step down with a dotted text: the name that is read from the text of the result is another one. -/
theorem dotted_child_clashes :
    ∃ name other : QualifiedName, parse "lib" = .ok name ∧ parse "lib.io.File" = .ok other ∧
      Reached (fun _ => True) (name.child "io.File") ∧ (name.child "io.File").text = other.text ∧
      ¬ (name.child "io.File").Proper ∧ name.child "io.File" ≠ other ∧
      (name.child "io.File").order other ≠ .eq := by
  let name : QualifiedName := ⟨["lib"], by decide, by decide⟩
  let other : QualifiedName := ⟨["lib", "io", "File"], by decide, by decide⟩
  have hname : parse "lib" = .ok name := parse_eq_ok_iff.mpr ⟨by decide, by decide, by decide⟩
  have hother : parse "lib.io.File" = .ok other :=
    parse_eq_ok_iff.mpr ⟨by decide, by decide, by decide⟩
  have hne : name.child "io.File" ≠ other := by decide
  refine ⟨name, other, hname, hother, (Reached.read hname).child trivial, by decide, ?_, hne, ?_⟩
  · intro hproper
    have hsegment := hproper.valid "io.File" (by decide)
    simp at hsegment
  · exact fun heq => hne (order_eq_iff.mp heq)

/-- With one segment allowed there is one name for a text; with a dotted one there are two. -/
theorem steps_to_same_text :
    (∀ a b, Reached (· = "io") a → Reached (· = "io") b → a.text = b.text → a = b ∧ a.order b = .eq) ∧
      ∃ name : QualifiedName, name.segments = ["lib", "io.File"] ∧
        ∃ plain : QualifiedName, plain.text = name.text ∧ name ≠ plain := by
  obtain ⟨-, -, hequal, -⟩ := reached_by_steps (· = "io")
  obtain ⟨hsegments, -, -, hplain⟩ := reached_by_steps (· = "io.File")
  refine ⟨hequal (by simp), ?_⟩
  obtain ⟨name, hreached, hname⟩ :=
    (hsegments ["lib", "io.File"]).mpr ⟨["lib"], ["io.File"], rfl, by decide, by decide, by simp⟩
  obtain ⟨plain, htext, -, -, -, hother⟩ := hplain name hreached
  exact ⟨name, hname, plain, htext, (hother ⟨"io.File", by simp [hname], by decide⟩).1⟩

end QualifiedName

end SemanticCheck
