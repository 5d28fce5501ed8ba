/-!
# Characters, strings and keys of TOML

A reader takes characters from the front of a text and returns what follows them.
-/

namespace SemanticCheck.TomlText

abbrev Reader (α : Type) := List Char → Option (α × List Char)

/-! ## Characters -/

def isBlank (c : Char) : Bool := c == ' ' || c == '\t'

/-- No control character but the tab. -/
def isPlain (c : Char) : Bool := c == '\t' || (0x20 ≤ c.toNat && c.toNat != 0x7F)

def isBareKeyChar (c : Char) : Bool := c.isAlphanum || c == '-' || c == '_'

def skipBlanks (cs : List Char) : List Char := cs.dropWhile isBlank

/-- What follows a line break. -/
def afterBreak? : List Char → Option (List Char)
  | '\n' :: rest => some rest
  | '\r' :: '\n' :: rest => some rest
  | _ => none

def skipComment : List Char → List Char
  | '#' :: rest => rest.dropWhile isPlain
  | cs => cs

/-- What follows the end of a line, which blanks and a comment may come before. -/
def afterLine? (cs : List Char) : Option (List Char) :=
  match skipComment (skipBlanks cs) with
  | [] => some []
  | rest => afterBreak? rest

/-! ## Strings -/

def hexDigit? (c : Char) : Option Nat :=
  if c.isDigit then some (c.toNat - '0'.toNat)
  else if 'a' ≤ c && c ≤ 'f' then some (c.toNat - 'a'.toNat + 10)
  else if 'A' ≤ c && c ≤ 'F' then some (c.toNat - 'A'.toNat + 10)
  else none

/-- The character with the code point that hexadecimal digits spell. -/
def scalar? (digits : List Char) : Option Char := do
  let ds ← digits.mapM hexDigit?
  let n := ds.foldl (fun n d => 16 * n + d) 0
  if n.isValidChar then some (Char.ofNat n) else none

def escaped? : Char → Option Char
  | 'b' => some '\x08'
  | 't' => some '\t'
  | 'n' => some '\n'
  | 'f' => some '\x0c'
  | 'r' => some '\r'
  | '"' => some '"'
  | '\\' => some '\\'
  | _ => none

def push (c : Char) : Option (List Char × List Char) → Option (List Char × List Char)
  | some (body, rest) => some (c :: body, rest)
  | none => none

/-- A string after its opening quote. -/
def basicBody : Reader (List Char)
  | [] => none
  | '"' :: rest => some ([], rest)
  | '\\' :: 'u' :: a :: b :: c :: d :: rest =>
    (scalar? [a, b, c, d]).bind fun u => push u (basicBody rest)
  | '\\' :: 'U' :: a :: b :: c :: d :: e :: f :: g :: h :: rest =>
    (scalar? [a, b, c, d, e, f, g, h]).bind fun u => push u (basicBody rest)
  | '\\' :: e :: rest => (escaped? e).bind fun u => push u (basicBody rest)
  | c :: rest => if c != '\\' && isPlain c then push c (basicBody rest) else none

/-- A literal string after its opening quote. -/
def literalBody : Reader (List Char)
  | [] => none
  | '\'' :: rest => some ([], rest)
  | c :: rest => if isPlain c then push c (literalBody rest) else none

/-- Up to two more quotes after three belong to the string that the three close. -/
def closing (quote : Char) : List Char → List Char × List Char
  | a :: b :: rest =>
    if a == quote && b == quote then ([quote, quote], rest)
    else if a == quote then ([quote], b :: rest)
    else ([], a :: b :: rest)
  | [a] => if a == quote then ([quote], []) else ([], [a])
  | [] => ([], [])

/-- Whether blanks up to a line break come next. -/
def breaksLine (cs : List Char) : Bool := (afterBreak? (skipBlanks cs)).isSome

/-- A string over several lines after its opening quotes. A backslash at the end of a line takes the
blanks and breaks after it out of the string; `joining` holds while that goes on. -/
def longBasicBody (joining : Bool) : Reader (List Char)
  | [] => none
  | '"' :: '"' :: '"' :: rest => some (closing '"' rest)
  | '\r' :: '\n' :: rest =>
    if joining then longBasicBody true rest else push '\n' (longBasicBody false rest)
  | '\n' :: rest =>
    if joining then longBasicBody true rest else push '\n' (longBasicBody false rest)
  | '\\' :: 'u' :: a :: b :: c :: d :: rest =>
    (scalar? [a, b, c, d]).bind fun u => push u (longBasicBody false rest)
  | '\\' :: 'U' :: a :: b :: c :: d :: e :: f :: g :: h :: rest =>
    (scalar? [a, b, c, d, e, f, g, h]).bind fun u => push u (longBasicBody false rest)
  | '\\' :: e :: rest =>
    match escaped? e with
    | some u => push u (longBasicBody false rest)
    | none => if breaksLine (e :: rest) then longBasicBody true rest else none
  | c :: rest =>
    if joining && isBlank c then longBasicBody true rest
    else if c != '\\' && isPlain c then push c (longBasicBody false rest)
    else none

/-- A literal string over several lines after its opening quotes. -/
def longLiteralBody : Reader (List Char)
  | [] => none
  | '\'' :: '\'' :: '\'' :: rest => some (closing '\'' rest)
  | '\r' :: '\n' :: rest => push '\n' (longLiteralBody rest)
  | '\n' :: rest => push '\n' (longLiteralBody rest)
  | c :: rest => if isPlain c then push c (longLiteralBody rest) else none

/-- A break right after the opening quotes is no part of the string. -/
def skipFirstBreak (cs : List Char) : List Char := (afterBreak? cs).getD cs

def string : Reader String
  | '"' :: '"' :: '"' :: rest => (longBasicBody false (skipFirstBreak rest)).map fun (s, r) => (String.ofList s, r)
  | '"' :: rest => (basicBody rest).map fun (s, r) => (String.ofList s, r)
  | '\'' :: '\'' :: '\'' :: rest =>
    (longLiteralBody (skipFirstBreak rest)).map fun (s, r) => (String.ofList s, r)
  | '\'' :: rest => (literalBody rest).map fun (s, r) => (String.ofList s, r)
  | _ => none

/-! ## Keys -/

/-- One part of a key: quoted, or bare. -/
def keyPart : Reader String
  | '"' :: rest => (basicBody rest).map fun (s, r) => (String.ofList s, r)
  | '\'' :: rest => (literalBody rest).map fun (s, r) => (String.ofList s, r)
  | cs =>
    match cs.span isBareKeyChar with
    | ([], _) => none
    | (name, rest) => some (String.ofList name, rest)

/-- The parts of a key, with blanks around them. The budget bounds their number. -/
def keyParts : Nat → Reader (List String)
  | 0, _ => none
  | budget + 1, cs => do
    let (part, rest) ← keyPart (skipBlanks cs)
    match skipBlanks rest with
    | '.' :: more =>
      let (parts, rest) ← keyParts budget more
      some (part :: parts, rest)
    | rest => some ([part], rest)

end SemanticCheck.TomlText
