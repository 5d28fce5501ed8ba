import SemanticCheck.Text.Position

/-!
# Findings

A diagnostic is a message with the place it is about, if there is one. A log keeps diagnostics in the
order they were recorded and never drops one; reading it in source order is a stable sort.
-/

namespace SemanticCheck

structure Diagnostic where
  pos : Option Position
  message : String
  deriving DecidableEq, Repr, Inhabited

namespace Diagnostic

/-- By position, those without one last. -/
def sourceOrder (a b : Diagnostic) : Ordering :=
  match a.pos, b.pos with
  | some p, some q => p.order q
  | some _, none => .lt
  | none, some _ => .gt
  | none, none => .eq

/-- Whether `a` may stand before `b` in source order. -/
def notAfter (a b : Diagnostic) : Bool := (sourceOrder a b).isLE

end Diagnostic

/-- Diagnostics in recording order. -/
structure Log where
  entries : List Diagnostic := []
  deriving DecidableEq, Repr, Inhabited

namespace Log

def empty : Log := ⟨[]⟩

def isEmpty (log : Log) : Bool := log.entries.isEmpty

def size (log : Log) : Nat := log.entries.length

def record (log : Log) (pos : Option Position) (message : String) : Log :=
  ⟨log.entries ++ [⟨pos, message⟩]⟩

/-- Appends everything another log holds. -/
def merge (log other : Log) : Log := ⟨log.entries ++ other.entries⟩

def sorted (log : Log) : List Diagnostic := log.entries.mergeSort Diagnostic.notAfter

@[simp] theorem entries_record (log : Log) (pos : Option Position) (message : String) :
    (log.record pos message).entries = log.entries ++ [⟨pos, message⟩] := rfl

@[simp] theorem entries_merge (log other : Log) :
    (log.merge other).entries = log.entries ++ other.entries := rfl

end Log

/-! ## Reports -/

/-- A diagnostic with the text it is about. -/
structure Report where
  location : String
  source : String
  diagnostic : Diagnostic
  deriving DecidableEq, Repr

structure Label where
  text : String
  span : Span
  deriving DecidableEq, Repr

namespace Report

def code : String := "turin_source::semantic_error"

def severity : String := "Error"

/-- Points at the bytes of the position, when the diagnostic has one. -/
def label (r : Report) : Option Label :=
  r.diagnostic.pos.map fun p => ⟨"here", p.span r.source⟩

end Report

end SemanticCheck
