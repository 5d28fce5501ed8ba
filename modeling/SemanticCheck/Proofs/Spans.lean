import SemanticCheck.Proofs.Offsets
import SemanticCheck.Text.Diagnostic

/-!
# Spans of positions

What stands before a point is the beginning of a text, so its offset is a place between two characters.
A later point has more before it. So every position covers a stretch of whole characters, and one that
contains another covers at least as much.
-/

namespace SemanticCheck

/-! ## Beginnings of a text -/

/-- The content of a line is part of the line, which stands before all later ones. -/
theorem take_lineContent_isPrefix (text rest : List Char) (column : Nat) :
    (lineContent text).take column <+: text ++ rest :=
  ((List.take_prefix _ _).trans (lineContent_isPrefix text)).trans (List.prefix_append _ _)

theorem beforeInLines_isPrefix (lines : List (List Char)) (line column : Nat) :
    beforeInLines lines line column <+: lines.flatten := by
  induction lines generalizing line with
  | nil => exact List.nil_prefix
  | cons text rest ih =>
    unfold beforeInLines
    rw [List.flatten_cons]
    split
    · exact take_lineContent_isPrefix text rest.flatten column
    · rw [List.prefix_append_right_inj]
      exact ih (line - 1)

theorem Point.before_isPrefix (p : Point) (source : String) : p.before source <+: source.toList := by
  have hprefix := beforeInLines_isPrefix (textLines source.toList) p.line p.column
  rwa [flatten_textLines] at hprefix

theorem byteLength_mono {a b : List Char} (h : a <+: b) : byteLength a ≤ byteLength b := by
  obtain ⟨rest, rfl⟩ := h
  rw [byteLength_append]
  omega

/-- The length of a beginning of a text is a place between two of its characters. -/
theorem isValid_of_isPrefix {text : List Char} {source : String} (h : text <+: source.toList) :
    String.Pos.Raw.IsValid source ⟨byteLength text⟩ := by
  obtain ⟨rest, hrest⟩ := h
  refine String.Pos.Raw.isValid_iff_exists_append.mpr ⟨String.ofList text, String.ofList rest, ?_, ?_⟩
  · rw [← String.ofList_append, hrest, String.ofList_toList]
  · rw [byteLength_eq]
    rfl

theorem Point.isValid_offsetIn (p : Point) (source : String) :
    String.Pos.Raw.IsValid source ⟨p.offsetIn source⟩ := by
  rw [offsetIn_eq]
  exact isValid_of_isPrefix (p.before_isPrefix source)

/-! ## Later points -/

theorem Point.le_iff {p q : Point} :
    p ≤ q ↔ p.line < q.line ∨ p.line = q.line ∧ p.column ≤ q.column := by
  change (p.order q).isLE = true ↔ _
  rw [order, Ordering.isLE_then_iff_or, Nat.compare_eq_lt, Nat.compare_eq_eq, Nat.isLE_compare]

theorem beforeInLines_mono (lines : List (List Char)) {line line' column column' : Nat}
    (hline : 1 ≤ line) (h : line < line' ∨ line = line' ∧ column ≤ column') :
    beforeInLines lines line column <+: beforeInLines lines line' column' := by
  induction lines generalizing line line' with
  | nil => exact List.nil_prefix
  | cons text rest ih =>
    unfold beforeInLines
    by_cases hone : line = 1
    · rw [if_pos hone]
      by_cases hone' : line' = 1
      · rw [if_pos hone']
        exact List.take_prefix_take_left (by omega)
      · rw [if_neg hone']
        exact take_lineContent_isPrefix text _ column
    · rw [if_neg hone, if_neg (by omega : line' ≠ 1), List.prefix_append_right_inj]
      exact ih (by omega) (by omega)

theorem Point.offsetIn_mono {p q : Point} (hline : 1 ≤ p.line) (h : p ≤ q) (source : String) :
    p.offsetIn source ≤ q.offsetIn source := by
  rw [offsetIn_eq, offsetIn_eq]
  exact byteLength_mono (beforeInLines_mono _ hline (le_iff.mp h))

/-! ## Spans -/

/-- Lies in the text, and no character is cut at either end. -/
structure Span.Fits (span : Span) (source : String) : Prop where
  bound : span.offset + span.length ≤ source.utf8ByteSize
  start : String.Pos.Raw.IsValid source ⟨span.offset⟩
  stop : String.Pos.Raw.IsValid source ⟨span.offset + span.length⟩

def Span.Within (inner outer : Span) : Prop :=
  outer.offset ≤ inner.offset ∧ inner.offset + inner.length ≤ outer.offset + outer.length

/-- A span ends where its position does, or is empty. -/
theorem Position.span_stop (p : Position) (source : String) :
    (p.span source).offset + (p.span source).length
      = max (p.stop.offsetIn source) (p.start.offsetIn source) := by
  unfold span
  simp only
  omega

theorem Position.span_fits (p : Position) (source : String) : (p.span source).Fits source := by
  have hstop : String.Pos.Raw.IsValid source ⟨(p.span source).offset + (p.span source).length⟩ := by
    rw [span_stop]
    rcases Nat.le_total (p.start.offsetIn source) (p.stop.offsetIn source) with h | h
    · rw [Nat.max_eq_left h]
      exact p.stop.isValid_offsetIn source
    · rw [Nat.max_eq_right h]
      exact p.start.isValid_offsetIn source
  exact ⟨hstop.le_utf8ByteSize, p.start.isValid_offsetIn source, hstop⟩

theorem Position.span_within {a b : Position} (hline : 1 ≤ a.start.line) (hb : b.start ≤ b.stop)
    (h : a.contains b = true) (source : String) : (b.span source).Within (a.span source) := by
  simp only [contains, Bool.and_eq_true, decide_eq_true_eq] at h
  obtain ⟨hstart, hstop⟩ := h
  have hbline : 1 ≤ b.start.line := by
    have := Point.le_iff.mp hstart
    omega
  have hbstop : 1 ≤ b.stop.line := by
    have := Point.le_iff.mp hb
    omega
  have hfirst := Point.offsetIn_mono hline hstart source
  have hinner := Point.offsetIn_mono hbline hb source
  have hlast := Point.offsetIn_mono hbstop hstop source
  refine ⟨hfirst, ?_⟩
  rw [span_stop, span_stop]
  omega

/-- A position covers whole characters of the text, and one that contains another covers at least as much. -/
theorem Position.span_fits_and_nests (source : String) :
    (∀ p : Position, (p.span source).Fits source) ∧
    (∀ (location message : String) (p : Position), ∃ label,
      (Report.mk location source ⟨some p, message⟩).label = some label ∧
        label = ⟨"here", p.span source⟩ ∧ label.span.Fits source) ∧
    (∀ p q : Point, 1 ≤ p.line → p ≤ q → p.offsetIn source ≤ q.offsetIn source) ∧
    ∀ a b : Position, 1 ≤ a.start.line → b.start ≤ b.stop → a.contains b = true →
      (b.span source).Within (a.span source) := by
  refine ⟨fun p => p.span_fits source, ?_, ?_, ?_⟩
  · intro location message p
    exact ⟨⟨"here", p.span source⟩, rfl, rfl, p.span_fits source⟩
  · intro p q hline h
    exact Point.offsetIn_mono hline h source
  · intro a b hline hb h
    exact Position.span_within hline hb h source

/-- The outer position ends after its line and the inner one inside of it. -/
theorem Position.accented_line_nests :
    (Position.mk ⟨1, 0⟩ ⟨2, 9⟩).contains ⟨⟨1, 1⟩, ⟨2, 1⟩⟩ = true ∧
      (Position.mk ⟨1, 1⟩ ⟨2, 1⟩).span "éa\r\nbc\n" = ⟨2, 4⟩ ∧
      (Position.mk ⟨1, 0⟩ ⟨2, 9⟩).span "éa\r\nbc\n" = ⟨0, 7⟩ ∧ (Span.mk 2 4).Within ⟨0, 7⟩ := by
  have hcontains : (Position.mk ⟨1, 0⟩ ⟨2, 9⟩).contains ⟨⟨1, 1⟩, ⟨2, 1⟩⟩ = true := by decide
  have hwithin := (Position.span_fits_and_nests "éa\r\nbc\n").2.2.2 ⟨⟨1, 0⟩, ⟨2, 9⟩⟩ ⟨⟨1, 1⟩, ⟨2, 1⟩⟩
    (by decide) (by decide) hcontains
  exact ⟨hcontains, by decide, by decide, hwithin⟩

end SemanticCheck
