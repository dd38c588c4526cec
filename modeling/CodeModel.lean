import CodeModel.Encoding.ConfigurationText
import CodeModel.Encoding.Pipeline
import CodeModel.Tree.Amend
import CodeModel.Proofs.ImportCompleteness
import CodeModel.Proofs.Preservation
import CodeModel.Proofs.SiblingNames
import CodeModel.Proofs.Totality
import CodeModel.Proofs.UnionLowering
import CodeModel.Proofs.ShownNames
import CodeModel.Proofs.TypeNames
import CodeModel.Proofs.EscapedNames
import CodeModel.Proofs.SelfImports
import CodeModel.Proofs.Keywords
import CodeModel.Proofs.ImportPaths
import CodeModel.Proofs.RoundTrips
import CodeModel.Proofs.SiblingRuns
import CodeModel.Proofs.Capitals
import CodeModel.Proofs.Resting
import CodeModel.Proofs.RestingMembers
import CodeModel.Proofs.Idempotence
import CodeModel.Proofs.BatchInsertion
import CodeModel.Proofs.RenameReach
import CodeModel.Proofs.IsolatedCopies
import CodeModel.Proofs.DottedNamespaces
import CodeModel.Proofs.BoundReferences
import CodeModel.Proofs.InheritanceChains
import CodeModel.Proofs.RefusedNamespaces
import CodeModel.Proofs.FlattenedClasses
import CodeModel.Proofs.InheritedProperties
import CodeModel.Proofs.Namesakes
import CodeModel.Proofs.WrappedUnions
import CodeModel.Proofs.UnionAlternatives
import CodeModel.Proofs.LowerableUnions
import CodeModel.Proofs.Escapes
import CodeModel.Proofs.TakenClasses
import CodeModel.Proofs.DefaultConstructors
import CodeModel.Proofs.NativeTypes
import CodeModel.Proofs.PathDirections
import CodeModel.Proofs.Lookups
import CodeModel.Proofs.CorrectedTypes
import CodeModel.Proofs.ImportBlocks
import CodeModel.Proofs.Traversals
