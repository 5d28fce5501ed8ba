/-! # Primitive types and their widening order -/

namespace SemanticCheck

inductive Primitive where
  | boolean | char | byte | short | int | long | float | double
  deriving DecidableEq, Repr

namespace Primitive

def all : List Primitive := [boolean, char, byte, short, int, long, float, double]

def name : Primitive → String
  | boolean => "boolean"
  | char => "char"
  | byte => "byte"
  | short => "short"
  | int => "int"
  | long => "long"
  | float => "float"
  | double => "double"

def ofName? (name : String) : Option Primitive := all.find? (·.name == name)

/-- The letter that stands for the type in a descriptor. -/
def letter : Primitive → Char
  | boolean => 'Z'
  | char => 'C'
  | byte => 'B'
  | short => 'S'
  | int => 'I'
  | long => 'J'
  | float => 'F'
  | double => 'D'

/-- The place in the numeric order; booleans and characters are not numbers. -/
def rank? : Primitive → Option Nat
  | byte => some 0
  | short => some 1
  | int => some 2
  | long => some 3
  | float => some 4
  | double => some 5
  | boolean | char => none

def isNumeric (p : Primitive) : Bool := p.rank?.isSome

def isBoolean (p : Primitive) : Bool := p == boolean

/-- The wider of two numeric types. -/
def promote? (p q : Primitive) : Option Primitive :=
  match p.rank?, q.rank? with
  | some a, some b => some (if b ≤ a then p else q)
  | _, _ => none

/-- Every type widens to itself, a number to a wider one, a character to `int` and beyond. -/
def widensTo (p q : Primitive) : Bool :=
  p == q ||
    match p, q.rank? with
    | char, some target => decide (2 ≤ target)
    | _, some target => p.rank?.any (· < target)
    | _, none => false

end Primitive

end SemanticCheck
