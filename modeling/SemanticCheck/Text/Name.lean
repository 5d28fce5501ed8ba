/-!
# Dotted names

Namespaces and packages are qualified names: segments joined by dots. Declarations are looked up by
the text of their context and their own name, joined the same way.
-/

namespace SemanticCheck

/-! ## Texts with dots -/

/-- The pieces of a text between its dots. There is always at least one. -/
def splitDots : List Char → List (List Char)
  | [] => [[]]
  | c :: rest =>
    if c = '.' then [] :: splitDots rest
    else
      match splitDots rest with
      | [] => [[c]]
      | piece :: pieces => (c :: piece) :: pieces

def joinDots : List String → String
  | [] => ""
  | [piece] => piece
  | piece :: rest => piece ++ "." ++ joinDots rest

/-- The key of a name declared in a context. Nothing stands before a name with an empty context. -/
def qualify (context name : String) : String :=
  if context.isEmpty then name else context ++ "." ++ name

def hasDot (text : String) : Bool := text.toList.contains '.'

/-- A text before its last dot and after it; `none` for a text without a dot. -/
def splitLastDot (text : String) : Option (String × String) :=
  match text.toList.reverse.span (· != '.') with
  | (_, []) => none
  | (last, _ :: front) => some (String.ofList front.reverse, String.ofList last.reverse)

/-! ## Qualified names -/

/-- A segment that can stand between two dots. -/
def validSegment (segment : String) : Bool := !segment.isEmpty && !hasDot segment

/-- Never empty, and proper at its front; what the other segments may be is decided where a name is
made from text. -/
structure QualifiedName where
  segments : List String
  ne_nil : segments ≠ []
  valid_head : validSegment (segments.head ne_nil) = true
  deriving DecidableEq, Repr

/-- Why a piece of source text could not be read. -/
inductive SourceError where
  | unknownOperator (symbol : String)
  | invalidQualifiedName (text : String)
  deriving DecidableEq, Repr

namespace SourceError

def message : SourceError → String
  | unknownOperator symbol => s!"Unknown operator `{symbol}`"
  | invalidQualifiedName text => s!"Invalid qualified name `{text}`"

def code : SourceError → String
  | unknownOperator _ => "turin_syntax::unknown_operator"
  | invalidQualifiedName _ => "turin_syntax::invalid_qualified_name"

end SourceError

namespace QualifiedName

def ofSegments (segments : List String) : Except SourceError QualifiedName :=
  if h : segments ≠ [] ∧ segments.all validSegment then
    .ok ⟨segments, h.1, List.all_eq_true.mp h.2 _ (List.head_mem h.1)⟩
  else .error (.invalidQualifiedName (joinDots segments))

def parse (text : String) : Except SourceError QualifiedName :=
  ofSegments ((splitDots text.toList).map String.ofList)

def text (name : QualifiedName) : String := joinDots name.segments

def last (name : QualifiedName) : String := name.segments.getLast name.ne_nil

/-- The name without its last segment; a single segment has no parent. -/
def parent (name : QualifiedName) : Option QualifiedName :=
  if h : name.segments.dropLast ≠ [] then
    some ⟨name.segments.dropLast, h, by rw [List.head_dropLast]; exact name.valid_head⟩
  else none

/-- The name with one more segment, taken as it is. -/
def child (name : QualifiedName) (segment : String) : QualifiedName :=
  ⟨name.segments ++ [segment], by simp,
    by rw [List.head_append_of_ne_nil name.ne_nil]; exact name.valid_head⟩

/-- Segment by segment, a shorter name before its extensions. -/
def order (a b : QualifiedName) : Ordering := List.compareLex compare a.segments b.segments

/-- The texts of the name and of the names around it, outermost first. -/
def enclosingTexts (name : QualifiedName) : List String :=
  (List.range name.segments.length).map fun n => joinDots (name.segments.take (n + 1))

end QualifiedName

end SemanticCheck
