import SemanticCheck.Code.Node

/-!
# Batches of files

The declarations of a batch are found by their qualified name, one table for each kind. The first
declaration of a name in its kind is the one that is found; later ones are kept as duplicates.
-/

namespace SemanticCheck

/-- Where a member is declared: its batch, its file in the batch and its number in the file. -/
structure Place where
  batch : Nat
  file : Nat
  member : Nat
  deriving DecidableEq, Repr

/-- Something a file declares, with the file. The file says how the names in it are to be read. -/
structure Declared (α : Type) where
  file : SourceFile
  place : Place
  item : α

/-- The preorder index of the declaration in the tree of its file. -/
def Declared.nodeIndex {α : Type} (d : Declared α) : Nat := d.file.memberIndex d.place.member

inductive DeclarationKind where
  | type | property | function | program
  deriving DecidableEq, Repr

def DeclarationKind.text : DeclarationKind → String
  | type => "type"
  | property => "property"
  | function => "function"
  | program => "program"

/-- A declaration whose name was taken by an earlier one of its kind. -/
structure Duplicate where
  kind : DeclarationKind
  qualifiedName : String
  pos : Option Position
  deriving DecidableEq, Repr

/-! ## Declarations of one kind -/

/-- One declaration for each key. -/
abbrev Table (α : Type) := List (String × Declared α)

namespace Table

variable {α : Type}

/-- Enters declarations in order. Those whose key is taken are returned. -/
def register (table : Table α) : List (String × Declared α) → Table α × List (String × Declared α)
  | [] => (table, [])
  | (key, d) :: rest =>
    match table.lookup key with
    | some _ =>
      let (filled, refused) := register table rest
      (filled, (key, d) :: refused)
    | none => register (table ++ [(key, d)]) rest

end Table

/-- What a file declares of one kind, by key and in order. -/
def SourceFile.declared {α : Type} (f : SourceFile) (batch file : Nat) (pick : Member → Option α) :
    List (String × Declared α) :=
  f.declarations.filterMap fun d =>
    (pick d.member).map fun item => (d.qualifiedName, ⟨f, ⟨batch, file, d.number⟩, item⟩)

/-! ## The index of a batch -/

structure BatchIndex where
  types : Table TypeDefinition := []
  properties : Table Property := []
  functions : Table Routine := []
  programs : Table Program := []
  packages : List String := []
  duplicates : List Duplicate := []

namespace BatchIndex

def addFile (batch : Nat) (index : BatchIndex) (f : SourceFile) (n : Nat) : BatchIndex :=
  let (types, types') := Table.register index.types (f.declared batch n (·.type?))
  let (properties, properties') := Table.register index.properties (f.declared batch n (·.property?))
  let (functions, functions') := Table.register index.functions (f.declared batch n (·.function?))
  let (programs, programs') := Table.register index.programs (f.declared batch n (·.program?))
  { types, properties, functions, programs
    packages := index.packages ++ f.namespaceName.enclosingTexts
    duplicates := index.duplicates
      ++ types'.map (fun (key, d) => ⟨.type, key, d.item.pos⟩)
      ++ properties'.map (fun (key, d) => ⟨.property, key, d.item.pos⟩)
      ++ functions'.map (fun (key, d) => ⟨.function, key, d.item.pos⟩)
      ++ programs'.map (fun (key, d) => ⟨.program, key, d.item.pos⟩) }

def ofFiles (batch : Nat) (files : List SourceFile) : BatchIndex :=
  files.zipIdx.foldl (fun index (f, n) => index.addFile batch f n) {}

end BatchIndex

/-- Files with their index. Batches are numbered so that places in different ones differ. -/
structure Batch where
  number : Nat
  files : List SourceFile
  index : BatchIndex
  indexed : index = BatchIndex.ofFiles number files

namespace Batch

def ofFiles (number : Nat) (files : List SourceFile) : Batch :=
  ⟨number, files, BatchIndex.ofFiles number files, rfl⟩

end Batch

end SemanticCheck
