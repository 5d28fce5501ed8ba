import SemanticCheck.Manifest.Settings
import SemanticCheck.Validation.Walk

/-!
# Compiling a batch

The files of a package are validated against the same chain, one after the other or all at once. Only a
batch in which nothing was found goes on to code generation.
-/

namespace SemanticCheck

structure Compilation where
  manifest : Manifest
  files : List SourceFile
  /-- What stands behind the files. -/
  outer : Chain

/-- The files of a batch, with what was found in each, in source order. -/
structure CheckedBatch where
  files : List SourceFile
  diagnostics : List (List Diagnostic)

/-- Why a batch does not go on to code generation. -/
structure CompileError where
  diagnostics : List Diagnostic
  deriving DecidableEq, Repr

namespace Compilation

def chain (c : Compilation) : Chain :=
  .source (Batch.ofFiles 0 c.files) c.manifest.delegatePackageLookup c.outer

def sites (c : Compilation) : List Site :=
  c.files.zipIdx.map fun (f, n) => ⟨c.chain, f, 0, n⟩

def validateInTurn (c : Compilation) : List Log := c.sites.map fun site => site.validateFile.2

/-- One task for each file. The results are waited for in the order of the files. -/
def validateTogether (c : Compilation) : List Log :=
  let tasks := c.sites.map fun site => Task.spawn fun _ => site.validateFile.2
  tasks.map Task.get

def check (c : Compilation) : CheckedBatch :=
  let logs :=
    if c.manifest.parallel && decide (1 < c.files.length) then c.validateTogether
    else c.validateInTurn
  ⟨c.files, logs.map (·.sorted)⟩

end Compilation

namespace CompileError

def count (e : CompileError) : Nat := e.diagnostics.length

def message (e : CompileError) : String :=
  s!"{e.count} semantic error(s) found, code generation skipped"

def code : String := "turin_check::not_ready_for_codegen"

end CompileError

namespace CheckedBatch

/-- What was found in the file of a number; nothing for a number past the last file. -/
def diagnosticsFor (b : CheckedBatch) (n : Nat) : List Diagnostic := b.diagnostics.getD n []

/-- Everything that was found, file by file. -/
def allDiagnostics (b : CheckedBatch) : List Diagnostic := b.diagnostics.flatten

def errorCount (b : CheckedBatch) : Nat := b.diagnostics.foldr (fun found n => found.length + n) 0

def isReady (b : CheckedBatch) : Bool := b.errorCount == 0

def reports (b : CheckedBatch) (n : Nat) (location source : String) : List Report :=
  (b.diagnosticsFor n).map fun d => ⟨location, source, d⟩

/-- The files, if nothing was found in any of them. -/
def codegenInput (b : CheckedBatch) : Except CompileError (List SourceFile) :=
  if b.isReady then .ok b.files else .error ⟨b.allDiagnostics⟩

end CheckedBatch

end SemanticCheck
