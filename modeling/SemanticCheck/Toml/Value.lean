/-!
# TOML values

A document is a table of values. How a table came about decides what may still be added to it: one
opened by a header or written inline is complete, while one that only stands on the way to another
table, or that dotted keys built up, can grow.
-/

namespace SemanticCheck

inductive TomlTableKind where
  /-- Opened by a header. -/
  | header
  /-- Stands on the path of a header. -/
  | parent
  /-- Stands on the path of a dotted key. -/
  | dotted
  /-- Written in braces. -/
  | inline
  deriving DecidableEq, Repr

/-- Numbers and dates are kept only as far as a reader of settings can see them. -/
inductive Toml where
  | string (value : String)
  | integer (value : Int)
  | float
  | boolean (value : Bool)
  | date (text : String)
  | array (items : List Toml)
  | table (kind : TomlTableKind) (entries : List (String × Toml))
  /-- The tables of a repeated header, in order. -/
  | tables (items : List (List (String × Toml)))
  deriving Repr, Inhabited

abbrev TomlEntries := List (String × Toml)

namespace TomlEntries

/-- Puts a value in the place of the one a key has. -/
def replace (entries : TomlEntries) (key : String) (value : Toml) : TomlEntries :=
  entries.map fun (k, v) => if k == key then (k, value) else (k, v)

/-- Changes the last of the tables of a repeated header. -/
def updateLast (change : TomlEntries → Option TomlEntries) :
    List TomlEntries → Option (List TomlEntries)
  | [] => none
  | [last] => (change last).map ([·])
  | first :: rest => (updateLast change rest).map (first :: ·)

/-- Changes the table at the end of a path, making the tables missing on the way. Dotted keys do not
reach into a table that a header opened, and nothing reaches into a complete value. -/
def updateAt (dotted : Bool) (change : TomlTableKind → TomlEntries → Option TomlEntries) :
    List String → TomlTableKind → TomlEntries → Option TomlEntries
  | [], kind, entries => change kind entries
  | key :: path, _, entries =>
    match entries.lookup key with
    | none =>
      let kind := if dotted then .dotted else .parent
      (updateAt dotted change path kind []).map fun inner => entries ++ [(key, .table kind inner)]
    | some (.table kind inner) =>
      if kind == .inline || (dotted && kind == .header) then none
      else
        (updateAt dotted change path kind inner).map fun inner =>
          replace entries key (.table kind inner)
    | some (.tables items) =>
      (updateLast (updateAt dotted change path .header) items).map fun items =>
        replace entries key (.tables items)
    | some _ => none

/-- Adds a value under a key that has none. -/
def insertNew (entries : TomlEntries) (key : String) (value : Toml) : Option TomlEntries :=
  match entries.lookup key with
  | some _ => none
  | none => some (entries ++ [(key, value)])

/-- Adds a value under a dotted key, which may end only in a table that dotted keys built. -/
def insertPair (path : List String) (key : String) (value : Toml) (kind : TomlTableKind)
    (entries : TomlEntries) : Option TomlEntries :=
  match path with
  | [] => insertNew entries key value
  | _ =>
    updateAt true (fun kind inner => if kind == .dotted then insertNew inner key value else none)
      path kind entries

/-- Opens a table under a key. One that so far only stood on the way to others may be opened once. -/
def openTable (key : String) (entries : TomlEntries) : Option TomlEntries :=
  match entries.lookup key with
  | none => some (entries ++ [(key, .table .header [])])
  | some (.table .parent inner) => some (replace entries key (.table .header inner))
  | some _ => none

/-- Opens one more table under the key of a repeated header. -/
def openNext (key : String) (entries : TomlEntries) : Option TomlEntries :=
  match entries.lookup key with
  | none => some (entries ++ [(key, .tables [[]])])
  | some (.tables items) => some (replace entries key (.tables (items ++ [[]])))
  | some _ => none

end TomlEntries

end SemanticCheck
