import SemanticCheck.Toml.Number

/-!
# TOML documents

A document is read line by line: pairs of a key and a value, and headers that say which table the pairs
after them belong to.
-/

namespace SemanticCheck.TomlText

/-- Values nest to less than this depth, and keys have fewer parts. -/
def nestingLimit : Nat := 80

def key (budget : Nat) (cs : List Char) : Option (List String × List Char) := do
  let (parts, rest) ← keyParts budget cs
  if parts.length < nestingLimit then some (parts, rest) else none

/-- Blanks, breaks and comments between the items of an array. -/
def skipLoose : Nat → List Char → List Char
  | 0, cs => cs
  | budget + 1, cs =>
    match cs with
    | '#' :: rest => skipLoose budget (rest.dropWhile isPlain)
    | c :: rest =>
      if isBlank c then skipLoose budget rest
      else
        match afterBreak? cs with
        | some rest => skipLoose budget rest
        | none => cs
    | [] => []

/-! ## Values -/

mutual

/-- A value with so many arrays and tables around it. -/
def value : Nat → Nat → Reader Toml
  | 0, _, _ => none
  | budget + 1, depth, cs =>
    match cs with
    | '"' :: _ => (string cs).map fun (s, rest) => (.string s, rest)
    | '\'' :: _ => (string cs).map fun (s, rest) => (.string s, rest)
    | '[' :: rest =>
      if depth + 1 < nestingLimit then
        (items budget (depth + 1) (skipLoose rest.length rest)).map fun (vs, rest) => (.array vs, rest)
      else none
    | '\x7b' :: rest =>
      if depth + 1 < nestingLimit then
        match skipBlanks rest with
        | '\x7d' :: rest => some (.table .inline [], rest)
        | _ => (pairs budget (depth + 1) [] rest).map fun (es, rest) => (.table .inline es, rest)
      else none
    | 't' :: 'r' :: 'u' :: 'e' :: rest => some (.boolean true, rest)
    | 'f' :: 'a' :: 'l' :: 's' :: 'e' :: rest => some (.boolean false, rest)
    | _ => number cs

/-- The items of an array up to its bracket. A comma may stand after the last one. -/
def items : Nat → Nat → Reader (List Toml)
  | 0, _, _ => none
  | budget + 1, depth, cs =>
    match cs with
    | ']' :: rest => some ([], rest)
    | _ => do
      let (v, rest) ← value budget depth cs
      match skipLoose rest.length rest with
      | ',' :: more =>
        let (vs, rest) ← items budget depth (skipLoose more.length more)
        some (v :: vs, rest)
      | ']' :: rest => some ([v], rest)
      | _ => none

/-- The pairs of an inline table up to its brace. No comma stands after the last one. -/
def pairs : Nat → Nat → TomlEntries → Reader TomlEntries
  | 0, _, _, _ => none
  | budget + 1, depth, entries, cs => do
    let (path, rest) ← key cs.length cs
    let rest ← expect '=' rest
    let (v, rest) ← value budget depth (skipBlanks rest)
    let name ← path.getLast?
    let entries ← TomlEntries.insertPair path.dropLast name v .inline entries
    match skipBlanks rest with
    | ',' :: more => pairs budget depth entries more
    | '\x7d' :: rest => some (entries, rest)
    | _ => none

end

/-! ## Lines -/

inductive Line where
  | pair (key : List String) (value : Toml)
  | header (key : List String)
  | repeated (key : List String)

def line (cs : List Char) : Option (Line × List Char) := do
  match cs with
  | '[' :: '[' :: rest =>
    let (path, rest) ← key rest.length rest
    let rest ← expect ']' rest
    let rest ← expect ']' rest
    some (.repeated path, rest)
  | '[' :: rest =>
    let (path, rest) ← key rest.length rest
    let rest ← expect ']' rest
    some (.header path, rest)
  | _ =>
    let (path, rest) ← key cs.length cs
    let rest ← expect '=' rest
    let (v, rest) ← value (2 * cs.length + 2) 0 (skipBlanks rest)
    some (.pair path v, rest)

/-- The lines of a text, those without content left out. -/
def lines : Nat → List Char → Option (List Line)
  | 0, _ => none
  | budget + 1, cs =>
    match skipBlanks cs with
    | [] => some []
    | content =>
      match afterLine? content with
      | some rest => lines budget rest
      | none => do
        let (first, rest) ← line content
        let rest ← afterLine? rest
        let others ← lines budget rest
        some (first :: others)

/-! ## Documents -/

/-- A document so far, and the table that pairs go to. -/
structure Draft where
  root : TomlEntries := []
  current : List String := []

/-- Changes the table that a header names, given by the path before its last part. -/
def Draft.openWith (draft : Draft) (path : List String)
    (change : String → TomlEntries → Option TomlEntries) : Option Draft := do
  let name ← path.getLast?
  let root ← TomlEntries.updateAt false (fun _ => change name) path.dropLast .header draft.root
  some ⟨root, path⟩

def Draft.add (draft : Draft) : Line → Option Draft
  | .pair path v => do
    let name ← path.getLast?
    let root ← TomlEntries.updateAt false (TomlEntries.insertPair path.dropLast name v)
      draft.current .header draft.root
    some { draft with root }
  | .header path => draft.openWith path TomlEntries.openTable
  | .repeated path => draft.openWith path TomlEntries.openNext

/-- A mark of byte order in front is no part of the text. -/
def skipMark : List Char → List Char
  | '\ufeff' :: rest => rest
  | cs => cs

/-- The table a text spells. -/
def document (text : String) : Option TomlEntries := do
  let cs := skipMark text.toList
  let all ← lines (cs.length + 1) cs
  let draft ← all.foldlM Draft.add {}
  some draft.root

end SemanticCheck.TomlText
