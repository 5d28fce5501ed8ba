/-!
# Places in a source text

A point is a line and a column, lines counted from 1 and columns from 0. A position is the stretch
between two points. Labels need byte offsets, so both are also placed in the text itself.
-/

namespace SemanticCheck

/-! ## Lines -/

/-- The lines of a text, each with the newline that ends it. -/
def textLines : List Char → List (List Char)
  | [] => []
  | c :: rest =>
    if c = '\n' then [c] :: textLines rest
    else
      match textLines rest with
      | [] => [[c]]
      | line :: lines => (c :: line) :: lines

def isLineEnd (c : Char) : Bool := c == '\n' || c == '\r'

/-- A line without the run of newlines and carriage returns at its end. -/
def lineContent (line : List Char) : List Char :=
  (line.reverse.dropWhile isLineEnd).reverse

/-- The length of a text in UTF-8. -/
def byteLength : List Char → Nat
  | [] => 0
  | c :: rest => c.utf8Size + byteLength rest

/-! ## Points -/

structure Point where
  line : Nat
  column : Nat
  deriving DecidableEq, Repr, Inhabited

namespace Point

/-- By line, then by column. -/
def order (a b : Point) : Ordering :=
  (compare a.line b.line).then (compare a.column b.column)

instance : Ord Point := ⟨order⟩

instance : LE Point := ⟨fun a b => (order a b).isLE⟩

instance (a b : Point) : Decidable (a ≤ b) :=
  inferInstanceAs (Decidable ((order a b).isLE = true))

/-- The byte offset of a line and column in a text given by its lines. A column past the content
of its line stands for the end of the content, a line past the last one for the end of the text. -/
def offsetInLines : List (List Char) → Nat → Nat → Nat
  | [], _, _ => 0
  | text :: rest, line, column =>
    if line = 1 then byteLength ((lineContent text).take column)
    else byteLength text + offsetInLines rest (line - 1) column

def offsetIn (p : Point) (source : String) : Nat :=
  offsetInLines (textLines source.toList) p.line p.column

def text (p : Point) : String := s!"{p.line}:{p.column}"

end Point

/-! ## Positions -/

structure Position where
  start : Point
  stop : Point
  deriving DecidableEq, Repr, Inhabited

/-- A stretch of bytes. -/
structure Span where
  offset : Nat
  length : Nat
  deriving DecidableEq, Repr

namespace Position

/-- By start, then by end. -/
def order (a b : Position) : Ordering :=
  (a.start.order b.start).then (a.stop.order b.stop)

instance : Ord Position := ⟨order⟩

def contains (a b : Position) : Bool :=
  decide (a.start ≤ b.start) && decide (b.stop ≤ a.stop)

/-- The bytes a position covers. One that ends before it starts covers none. -/
def span (p : Position) (source : String) : Span :=
  let first := p.start.offsetIn source
  let last := max (p.stop.offsetIn source) first
  ⟨first, last - first⟩

def text (p : Position) : String := p.start.text ++ "-" ++ p.stop.text

end Position

end SemanticCheck
