import SemanticCheck.Code.Construction
import SemanticCheck.Compilation
import SemanticCheck.Manifest.Load
import SemanticCheck.Proofs.Assignability
import SemanticCheck.Proofs.BodyTyping
import SemanticCheck.Proofs.Candidates
import SemanticCheck.Proofs.ChainLookup
import SemanticCheck.Proofs.Children
import SemanticCheck.Proofs.CleanBatch
import SemanticCheck.Proofs.Codegen
import SemanticCheck.Proofs.Frame
import SemanticCheck.Proofs.ImportOrder
import SemanticCheck.Proofs.NamedCalls
import SemanticCheck.Proofs.NodeOrder
import SemanticCheck.Proofs.Ownership
import SemanticCheck.Proofs.Reading
import SemanticCheck.Proofs.References
import SemanticCheck.Proofs.Reordering
import SemanticCheck.Proofs.Shadowing
import SemanticCheck.Proofs.SourceOrder
import SemanticCheck.Proofs.Spans
import SemanticCheck.Proofs.Subexpression
import SemanticCheck.Proofs.Tables
import SemanticCheck.Proofs.Traversal
import SemanticCheck.Proofs.WellFormedTypes
import SemanticCheck.Proofs.AncestorOrder
import SemanticCheck.Proofs.Descriptors
import SemanticCheck.Proofs.DottedNames
import SemanticCheck.Proofs.Packages
import SemanticCheck.Proofs.StaticFields
import SemanticCheck.Proofs.MemberNames
import SemanticCheck.Proofs.Annotations
import SemanticCheck.Proofs.Operands
import SemanticCheck.Proofs.ScopeHistory
