import IdlCompiler.Main
import IdlCompiler.Protocol.Equality
import IdlCompiler.Proofs.Resolution
import IdlCompiler.Proofs.Containment
import IdlCompiler.Proofs.Grammar
import IdlCompiler.Proofs.Reads
import IdlCompiler.Proofs.Recognition
import IdlCompiler.Proofs.Declarations
import IdlCompiler.Proofs.DocumentText
import IdlCompiler.Proofs.Lowering
import IdlCompiler.Proofs.Rereading
import IdlCompiler.Proofs.Conformance
import IdlCompiler.Proofs.GeneratedText
import IdlCompiler.Proofs.Outputs
import IdlCompiler.Proofs.ItemNames
import IdlCompiler.Proofs.Regeneration
import IdlCompiler.Proofs.Discoveries
import IdlCompiler.Proofs.Recursion
import IdlCompiler.Proofs.Spelling
import IdlCompiler.Proofs.Repetition
import IdlCompiler.Proofs.Turns
import IdlCompiler.Proofs.Sharing
import IdlCompiler.Proofs.Lexemes
import IdlCompiler.Proofs.Tokenization
import IdlCompiler.Proofs.Literals
import IdlCompiler.Proofs.JsonPhrases
import IdlCompiler.Proofs.Documentation
import IdlCompiler.Proofs.Additions
import IdlCompiler.Proofs.Concurrency
import IdlCompiler.Proofs.OutputPaths
import IdlCompiler.Proofs.WorkspaceContents
import IdlCompiler.Proofs.Reordering
import IdlCompiler.Proofs.Deletions
import IdlCompiler.Proofs.MemberNames
import IdlCompiler.Proofs.Conversions
import IdlCompiler.Proofs.VariantNames
import IdlCompiler.Proofs.TypeLookups
import IdlCompiler.Proofs.DocComments
import IdlCompiler.Proofs.Classification
import IdlCompiler.Proofs.CursorDiscipline
import IdlCompiler.Proofs.BranchKeys
import IdlCompiler.Proofs.UnionRoutes
