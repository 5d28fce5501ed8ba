import Mathlib.Data.List.Basic
import Mathlib.Data.List.DropRight
import SemanticCheck.Text.Position

/-!
# Offsets of points

The offset of a point is the length of the text before it. That text is made of whole lines and of a part
of the content of one more, so counting the lines and the columns of a part of the text leads back to its
length, unless the part ends inside of a run of line ends.
-/

namespace SemanticCheck

/-! ## Lengths in bytes -/

theorem byteLength_append (a b : List Char) : byteLength (a ++ b) = byteLength a + byteLength b := by
  induction a with
  | nil => simp [byteLength]
  | cons c rest ih =>
    simp only [List.cons_append, byteLength, ih]
    omega

theorem byteLength_eq (text : List Char) : byteLength text = (String.ofList text).utf8ByteSize := by
  induction text with
  | nil => rfl
  | cons c rest ih =>
    rw [byteLength, ih, String.ofList_cons, String.utf8ByteSize_append, String.utf8ByteSize_singleton]

theorem byteLength_toList (text : String) : byteLength text.toList = text.utf8ByteSize := by
  rw [byteLength_eq, String.ofList_toList]

theorem byteLength_eq_zero {text : List Char} (h : byteLength text = 0) : text = [] := by
  cases text with
  | nil => rfl
  | cons c rest =>
    have hpos := c.utf8Size_pos
    rw [byteLength] at h
    omega

/-! ## The text before a point -/

/-- What stands before a line and column, in a text given by its lines. -/
def beforeInLines : List (List Char) → Nat → Nat → List Char
  | [], _, _ => []
  | text :: rest, line, column =>
    if line = 1 then (lineContent text).take column
    else text ++ beforeInLines rest (line - 1) column

def Point.before (p : Point) (source : String) : List Char :=
  beforeInLines (textLines source.toList) p.line p.column

theorem byteLength_beforeInLines (lines : List (List Char)) (line column : Nat) :
    byteLength (beforeInLines lines line column) = Point.offsetInLines lines line column := by
  induction lines generalizing line with
  | nil => rfl
  | cons text rest ih =>
    unfold beforeInLines Point.offsetInLines
    split
    · rfl
    · rw [byteLength_append, ih]

theorem Point.offsetIn_eq (p : Point) (source : String) :
    p.offsetIn source = byteLength (p.before source) :=
  (byteLength_beforeInLines _ _ _).symm

/-- Whole lines are counted one by one. -/
theorem beforeInLines_append (first rest : List (List Char)) {line : Nat} (hline : 1 ≤ line)
    (column : Nat) :
    beforeInLines (first ++ rest) (first.length + line) column
      = first.flatten ++ beforeInLines rest line column := by
  induction first with
  | nil => simp
  | cons text first ih =>
    have hne : (text :: first).length + line ≠ 1 := by
      rw [List.length_cons]
      omega
    have hpred : (text :: first).length + line - 1 = first.length + line := by
      rw [List.length_cons]
      omega
    rw [List.cons_append, beforeInLines, if_neg hne, hpred, ih, List.flatten_cons, List.append_assoc]

/-! ## Lines -/

/-- A text up to its first newline and with it, or all of a text without one. -/
def firstLine (text : List Char) : List Char := text.take (text.idxOf '\n' + 1)

/-- What stands in a text after its last newline. -/
def lastLine (text : List Char) : List Char := text.rtakeWhile (· != '\n')

/-- The lines of a text before its last one, each with its newline. -/
def earlierLines (text : List Char) : List Char := text.rdropWhile (· != '\n')

theorem earlierLines_append_lastLine (text : List Char) : earlierLines text ++ lastLine text = text :=
  List.rdropWhile_append_rtakeWhile

theorem newline_notMem_lastLine (text : List Char) : '\n' ∉ lastLine text := by
  intro h
  simpa using List.mem_rtakeWhile_imp h

theorem lastLine_of_newline {text : List Char} (h : text.getLast? = some '\n') : lastLine text = [] := by
  refine List.rtakeWhile_eq_nil_iff.mpr fun hne => ?_
  rw [List.getLast?_eq_some_getLast hne, Option.some.injEq] at h
  simp [h]

theorem flatten_textLines (text : List Char) : (textLines text).flatten = text := by
  induction text with
  | nil => rfl
  | cons c rest ih =>
    unfold textLines
    split
    · simp [ih]
    · split
      · rename_i hnone
        rw [hnone] at ih
        simp [← ih]
      · rename_i line lines hlines
        rw [hlines] at ih
        simp [← ih]

theorem textLines_ne_nil {text : List Char} (h : text ≠ []) : textLines text ≠ [] := by
  intro hnil
  have hflatten := flatten_textLines text
  rw [hnil] at hflatten
  exact h hflatten.symm

theorem headD_textLines (text : List Char) : (textLines text).headD [] = firstLine text := by
  induction text with
  | nil => rfl
  | cons c rest ih =>
    unfold textLines
    split
    · rename_i hc
      simp [firstLine, hc]
    · rename_i hc
      have hcons : firstLine (c :: rest) = c :: firstLine rest := by
        simp [firstLine, List.idxOf_cons_ne _ hc]
      rw [hcons, ← ih]
      split
      · rename_i hnone
        simp [hnone]
      · rename_i hlines
        simp [hlines]

theorem beforeInLines_one (lines : List (List Char)) (column : Nat) :
    beforeInLines lines 1 column = (lineContent (lines.headD [])).take column := by
  cases lines with
  | nil => simp [beforeInLines, lineContent]
  | cons text rest => rfl

/-- A line is its content and all the newlines and carriage returns that it ends with. -/
structure IsContentOf (content line : List Char) : Prop where
  run : ∃ ends, line = content ++ ends ∧ ∀ c ∈ ends, c = '\n' ∨ c = '\r'
  last : ∀ c, content.getLast? = some c → c ≠ '\n' ∧ c ≠ '\r'

theorem isLineEnd_iff {c : Char} : isLineEnd c = true ↔ c = '\n' ∨ c = '\r' := by simp [isLineEnd]

theorem isContentOf_lineContent (line : List Char) : IsContentOf (lineContent line) line where
  run := by
    refine ⟨line.rtakeWhile isLineEnd, List.rdropWhile_append_rtakeWhile.symm, fun c hc => ?_⟩
    exact isLineEnd_iff.mp (List.mem_rtakeWhile_imp hc)
  last := by
    intro c hlast
    have hne : lineContent line ≠ [] := by
      intro hnil
      simp [hnil] at hlast
    rw [List.getLast?_eq_some_getLast hne] at hlast
    obtain rfl := Option.some.inj hlast
    exact not_or.mp (isLineEnd_iff.not.mp (List.rdropWhile_last_not isLineEnd line hne))

/-- A line has one content only. -/
theorem isContentOf_iff {content line : List Char} :
    IsContentOf content line ↔ content = lineContent line := by
  constructor
  · rintro ⟨⟨ends, rfl, hends⟩, hlast⟩
    have hdrop : ∀ c ∈ ends.reverse, isLineEnd c = true := by
      simpa [isLineEnd_iff] using hends
    rw [lineContent, List.reverse_append, List.dropWhile_append_of_pos hdrop]
    refine (List.rdropWhile_eq_self_iff.mpr fun hne => ?_).symm
    rw [isLineEnd_iff, not_or]
    exact hlast _ (List.getLast?_eq_some_getLast hne)
  · rintro rfl
    exact isContentOf_lineContent line

/-! ## Texts of whole lines -/

/-- Nothing stands after the last newline. -/
def WholeLines (text : List Char) : Prop := ∀ h : text ≠ [], text.getLast h = '\n'

theorem wholeLines_earlierLines (text : List Char) : WholeLines (earlierLines text) := by
  intro h
  have hlast : ¬ (((earlierLines text).getLast h != '\n') = true) := List.rdropWhile_last_not _ _ h
  simpa using hlast

/-- A character that is no newline belongs to a line that goes on. -/
theorem WholeLines.of_cons {c : Char} {text : List Char} (h : WholeLines (c :: text)) :
    WholeLines text ∧ (c = '\n' ∨ c ≠ '\n' ∧ ∃ line lines, textLines text = line :: lines) := by
  by_cases hne : text = []
  · subst hne
    exact ⟨fun hnil => absurd rfl hnil, .inl (h (List.cons_ne_nil c []))⟩
  · refine ⟨fun hne => ?_, ?_⟩
    · rw [← List.getLast_cons hne]
      exact h (List.cons_ne_nil c text)
    · by_cases hc : c = '\n'
      · exact .inl hc
      · exact .inr ⟨hc, List.exists_cons_of_ne_nil (textLines_ne_nil hne)⟩

theorem WholeLines.textLines_append {text : List Char} (h : WholeLines text) (rest : List Char) :
    textLines (text ++ rest) = textLines text ++ textLines rest := by
  induction text with
  | nil => rfl
  | cons c text ih =>
    obtain ⟨htext, hc⟩ := h.of_cons
    rw [List.cons_append, textLines, textLines, ih htext]
    rcases hc with hc | ⟨hc, line, lines, hlines⟩
    · simp [hc]
    · simp [hc, hlines]

theorem WholeLines.length_textLines {text : List Char} (h : WholeLines text) :
    (textLines text).length = text.count '\n' := by
  induction text with
  | nil => rfl
  | cons c text ih =>
    obtain ⟨htext, hc⟩ := h.of_cons
    rw [textLines, List.count_cons, ← ih htext]
    rcases hc with hc | ⟨hc, line, lines, hlines⟩
    · simp [hc]
    · simp [hc, hlines]

/-! ## Numbering the places of a text -/

/-- The line and column at which a text ends. -/
def Point.endOf (text : List Char) : Point := ⟨1 + text.count '\n', (lastLine text).length⟩

/-- The place between two parts of a text stands in the content of its line, or right after it. -/
def Addressable (front back : List Char) : Prop :=
  ∃ content, IsContentOf content (lastLine front ++ firstLine back) ∧
    (lastLine front).length ≤ content.length

theorem addressable_iff {front back : List Char} : Addressable front back ↔
    (lastLine front).length ≤ (lineContent (lastLine front ++ firstLine back)).length := by
  simp [Addressable, isContentOf_iff]

instance (front back : List Char) : Decidable (Addressable front back) :=
  decidable_of_iff _ addressable_iff.symm

theorem firstLine_append {line : List Char} (h : '\n' ∉ line) (rest : List Char) :
    firstLine (line ++ rest) = line ++ firstLine rest := by
  rw [firstLine, List.idxOf_append_of_notMem h, Nat.add_assoc, List.take_length_add_append]
  rfl

theorem count_newline (text : List Char) :
    text.count '\n' = (textLines (earlierLines text)).length := by
  have hlast : (lastLine text).count '\n' = 0 := List.count_eq_zero.mpr (newline_notMem_lastLine text)
  have hsum := congrArg (List.count '\n') (earlierLines_append_lastLine text)
  rw [List.count_append, hlast, Nat.add_zero] at hsum
  rw [(wholeLines_earlierLines text).length_textLines, hsum]

/-- Before the end of the first part stand its earlier lines, and of its last line as much as the content
of the whole line has. -/
theorem Point.before_endOf (u v : String) :
    (Point.endOf u.toList).before (u ++ v) = earlierLines u.toList
      ++ (lineContent (lastLine u.toList ++ firstLine v.toList)).take (lastLine u.toList).length := by
  have hlines : textLines (u ++ v).toList
      = textLines (earlierLines u.toList) ++ textLines (lastLine u.toList ++ v.toList) := by
    rw [← (wholeLines_earlierLines _).textLines_append, ← List.append_assoc,
      earlierLines_append_lastLine, String.toList_append]
  have hline : 1 + u.toList.count '\n' = (textLines (earlierLines u.toList)).length + 1 := by
    rw [count_newline, Nat.add_comm]
  unfold before endOf
  simp only [hlines, hline]
  rw [beforeInLines_append _ _ (Nat.le_refl 1), flatten_textLines, beforeInLines_one, headD_textLines,
    firstLine_append (newline_notMem_lastLine _)]

theorem lineContent_isPrefix (line : List Char) : lineContent line <+: line :=
  List.rdropWhile_prefix isLineEnd line

/-- Of two beginnings of a line, one holds as many bytes of the other as that has exactly when it is no
shorter. -/
theorem byteLength_take_iff {a content line : List Char} (ha : a <+: line) (hcontent : content <+: line) :
    byteLength (content.take a.length) = byteLength a ↔ a.length ≤ content.length := by
  have htake : content.take a.length <+: a := by
    refine List.prefix_of_prefix_length_le ((List.take_prefix _ _).trans hcontent) ha ?_
    rw [List.length_take]
    omega
  constructor
  · intro h
    obtain ⟨rest, hrest⟩ := htake
    have hbytes := congrArg byteLength hrest
    rw [byteLength_append] at hbytes
    have hnil : rest = [] := byteLength_eq_zero (by omega)
    have hlength := congrArg List.length hrest
    rw [hnil, List.append_nil, List.length_take] at hlength
    omega
  · intro h
    rw [htake.eq_of_length (by rw [List.length_take]; omega)]

/-- The place where the first part of a text ends has its length as offset exactly when addressable. -/
theorem Point.offsetIn_endOf_iff (u v : String) :
    ((Point.endOf u.toList).offsetIn (u ++ v) = u.utf8ByteSize ↔ Addressable u.toList v.toList) ∧
      (u.toList.getLast? = some '\n' → (Point.endOf u.toList).offsetIn u = u.utf8ByteSize) := by
  have hiff : ∀ v : String,
      (Point.endOf u.toList).offsetIn (u ++ v) = u.utf8ByteSize ↔ Addressable u.toList v.toList := by
    intro v
    have hu : u.utf8ByteSize = byteLength (earlierLines u.toList) + byteLength (lastLine u.toList) := by
      rw [← byteLength_append, earlierLines_append_lastLine, byteLength_toList]
    rw [offsetIn_eq, before_endOf, byteLength_append, hu, Nat.add_left_cancel_iff, addressable_iff]
    exact byteLength_take_iff (List.prefix_append _ _) (lineContent_isPrefix _)
  refine ⟨hiff v, fun h => ?_⟩
  have hend : Addressable u.toList "".toList := by
    rw [addressable_iff, lastLine_of_newline h]
    exact Nat.zero_le _
  have hoffset := (hiff "").mpr hend
  rwa [String.append_empty] at hoffset

/-- A place before a lone carriage return, in a line with an accent above it, and the end of that line. -/
theorem Point.mixed_text_numbered :
    Addressable "é\r\na".toList "\rb\r\n".toList ∧
      (Point.mk 2 1).offsetIn "é\r\na\rb\r\n" = 5 ∧
      "é\r\n".toList.getLast? = some '\n' ∧ (Point.mk 2 0).offsetIn "é\r\n" = 4 := by
  have hplace : Addressable "é\r\na".toList "\rb\r\n".toList := by decide
  have hend : "é\r\n".toList.getLast? = some '\n' := by decide
  exact ⟨hplace, (Point.offsetIn_endOf_iff "é\r\na" "\rb\r\n").1.mpr hplace, hend,
    (Point.offsetIn_endOf_iff "é\r\n" "").2 hend⟩

end SemanticCheck
