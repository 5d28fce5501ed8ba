import SemanticCheck.Manifest.Settings

/-!
# Finding the manifest among files

The manifest of a package is asked for by the path of the file, or of the directory that holds it. A
path is followed name by name from the top, and each step is made from a directory that is there.
-/

namespace SemanticCheck

/-! ## Paths -/

/-- The names between the slashes of a path. -/
def pathNames : List Char → List (List Char)
  | [] => [[]]
  | c :: rest =>
    if c = '/' then [] :: pathNames rest
    else
      match pathNames rest with
      | [] => [[c]]
      | name :: names => (c :: name) :: names

/-- A path below another one. An absolute path stays as it is. -/
def joinPath (base path : String) : String :=
  if path.startsWith "/" then path
  else if base.isEmpty || base.endsWith "/" then base ++ path
  else base ++ "/" ++ path

/-- The most bytes a path may have. A longer one leads nowhere. -/
def longestPath : Nat := 4095

/-- The place one name leads to. Above the top there is only the top. -/
def stepTo (here : List String) (name : String) : List String :=
  if name == "" || name == "." then here
  else if name == ".." then here.dropLast
  else here ++ [name]

/-- The places a path passes from here on, the last of which it leads to. -/
def placesOn : List String → List String → List (List String)
  | _, [] => []
  | here, name :: rest => stepTo here name :: placesOn (stepTo here name) rest

/-! ## Files -/

inductive FileEntry where
  | directory
  | file (content : ByteArray)

/-- What there is, by the names that lead to it from the top; of two entries for one place the later
one counts. -/
structure FileTree where
  entries : List (List String × FileEntry)

namespace FileTree

def empty : FileTree := ⟨[]⟩

/-- Puts something at the end of a path. Every place the path passes becomes a directory, also those
that it leaves again. -/
def add (tree : FileTree) (path : String) (entry : FileEntry) : FileTree :=
  let places := placesOn [] ((pathNames path.toList).map String.ofList)
  ⟨tree.entries ++ places.dropLast.map (·, .directory) ++ places.getLast?.toList.map (·, entry)⟩

/-- What is at a place. At the top there is a directory. -/
def at? (tree : FileTree) (place : List String) : Option FileEntry :=
  if place.isEmpty then some .directory
  else (tree.entries.filter (·.1 == place)).getLast?.map (·.2)

def isDirectory (tree : FileTree) (place : List String) : Bool :=
  match tree.at? place with
  | some .directory => true
  | _ => false

/-- One step along a path. -/
def step? (tree : FileTree) (here : List String) (name : String) : Option (List String) :=
  if tree.isDirectory here then some (stepTo here name) else none

/-- What a path leads to. -/
def find? (tree : FileTree) (path : String) : Option FileEntry :=
  if longestPath < path.utf8ByteSize then none
  else (((pathNames path.toList).map String.ofList).foldlM tree.step? []).bind tree.at?

end FileTree

/-! ## Loading -/

namespace Manifest

def fileName : String := "turin.toml"

/-- The file that a path stands for: in a directory, the one with the usual name. -/
def fileAt (tree : FileTree) (path : String) : String :=
  match tree.find? path with
  | some .directory => joinPath path fileName
  | _ => path

/-- Loads the manifest that a path leads to. -/
def load (tree : FileTree) (path : String) : Except ManifestError Manifest :=
  match tree.find? (fileAt tree path) with
  | none => .error (.notFound (fileAt tree path))
  | some .directory => .error .unreadable
  | some (.file content) =>
    match String.fromUTF8? content with
    | some text => ofText text
    | none => .error .unreadable

end Manifest

end SemanticCheck
