import SemanticCheck.Toml.Document

/-!
# Package settings

A package has a manifest: who it is, how its names are looked up and how it is validated. Settings that
are left out have defaults, and those nobody knows are passed over.
-/

namespace SemanticCheck

structure PackageInfo where
  name : String := ""
  version : String := "0.1.0"
  authors : List String := []
  description : Option String := none
  deriving DecidableEq, Repr

structure Manifest where
  package : PackageInfo := {}
  /-- Whether packages are also looked for behind the batch. -/
  delegatePackageLookup : Bool := false
  /-- Asks for the files to be validated side by side. -/
  parallel : Bool := false
  /-- Libraries by name, with their versions. -/
  libraries : List (String × String) := []
  deriving DecidableEq, Repr

inductive ManifestError where
  | notFound (path : String)
  | unreadable
  | malformed
  deriving DecidableEq, Repr

namespace ManifestError

/-- What could not be read or understood is not kept, so only a missing file has a text. -/
def message? : ManifestError → Option String
  | notFound path => some ("Configuration file not found: " ++ path)
  | unreadable | malformed => none

def code : ManifestError → String
  | notFound _ => "turin_source::config_not_found"
  | unreadable => "turin_source::config_read_error"
  | malformed => "turin_source::config_parse_error"

def help : ManifestError → String
  | notFound _ => "Every package must have a turin.toml file in its root directory"
  | unreadable => "Check file permissions and ensure the file is not corrupted"
  | malformed => "Check your turin.toml syntax"

end ManifestError

/-! ## Reading settings from TOML -/

namespace Toml

/-- The key under which a date stands where a table is expected. -/
def dateKey : String := "$__toml_private_datetime"

/-- Settings by name. Besides a table, an array gives them in their order. -/
def settings? (names : List String) : Toml → Option (String → Option Toml)
  | table _ entries => some fun name => entries.lookup name
  | array items => some fun name => (names.zip items).lookup name
  | tables items => some fun name => (names.zip (items.map (.table .header))).lookup name
  | date text => some fun name => if name == dateKey then some (.string text) else none
  | _ => none

def string? : Toml → Option String
  | string s => some s
  | _ => none

def boolean? : Toml → Option Bool
  | boolean b => some b
  | _ => none

def strings? : Toml → Option (List String)
  | array items => items.mapM string?
  | _ => none

/-- A table of texts. -/
def stringMap? : Toml → Option (List (String × String))
  | table _ entries => entries.mapM fun (key, v) => v.string?.map (key, ·)
  | date text => some [(dateKey, text)]
  | _ => none

end Toml

/-- Reads a setting; one that is left out has its default. -/
def settingOr {α : Type} (default : α) (read : Toml → Option α) : Option Toml → Option α
  | none => some default
  | some v => read v

namespace PackageInfo

/-- The name of a package must be given, the rest may be left out. -/
def ofToml? (v : Toml) : Option PackageInfo := do
  let get ← v.settings? ["name", "version", "authors", "description"]
  let name ← (← get "name").string?
  let version ← settingOr "0.1.0" Toml.string? (get "version")
  let authors ← settingOr [] Toml.strings? (get "authors")
  let description ← settingOr none (fun v => v.string?.map some) (get "description")
  some { name, version, authors, description }

end PackageInfo

/-- A group of settings that holds a single switch. -/
def switch? (name : String) (v : Toml) : Option Bool := do
  let get ← v.settings? [name]
  settingOr false Toml.boolean? (get name)

namespace Manifest

def ofEntries? (entries : TomlEntries) : Option Manifest := do
  let package ← settingOr {} PackageInfo.ofToml? (entries.lookup "package")
  let delegatePackageLookup ←
    settingOr false (switch? "delegate_package_lookup") (entries.lookup "resolver")
  let parallel ← settingOr false (switch? "parallel") (entries.lookup "validation")
  let libraries ← settingOr [] Toml.stringMap? (entries.lookup "libraries")
  some { package, delegatePackageLookup, parallel, libraries }

def ofText (text : String) : Except ManifestError Manifest :=
  match (TomlText.document text).bind ofEntries? with
  | some m => .ok m
  | none => .error .malformed

end Manifest

end SemanticCheck
