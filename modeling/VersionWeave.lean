import VersionWeave.Batch
import VersionWeave.Command.Arguments
import VersionWeave.Command.Error
import VersionWeave.Command.Run
import VersionWeave.Disk
import VersionWeave.Entries
import VersionWeave.FieldAccess
import VersionWeave.Json.Reader
import VersionWeave.Json.Value
import VersionWeave.Json.Writer
import VersionWeave.Main
import VersionWeave.Naming
import VersionWeave.Pinning
import VersionWeave.Scope
import VersionWeave.Symbols
import VersionWeave.Text.Identifier
import VersionWeave.Text.Sha256
import VersionWeave.Tree.Basic
import VersionWeave.Tree.OfJson
import VersionWeave.Tree.Outline
import VersionWeave.Tree.Revise
import VersionWeave.Tree.Source
import VersionWeave.Tree.ToJson
import VersionWeave.Unified.Accessor
import VersionWeave.Unified.Build
import VersionWeave.Unified.Constructor
import VersionWeave.Unified.Group
import VersionWeave.Unified.Merge
import VersionWeave.Unified.Skeleton
import VersionWeave.Unified.Stub
import VersionWeave.Version
import VersionWeave.Proofs.Tree.Editor
import VersionWeave.Proofs.Tree.Visitor
import VersionWeave.Proofs.Tree.Follows
import VersionWeave.Proofs.Pinning.Run
import VersionWeave.Proofs.Pinning.Watched
import VersionWeave.Proofs.Pinning.Written
import VersionWeave.Proofs.ScopeDiscipline
import VersionWeave.Proofs.FieldAccess.Run
import VersionWeave.Proofs.FieldAccess.Forms
import VersionWeave.Proofs.FieldAccess.Complete
import VersionWeave.Proofs.FieldAccess.Standing
import VersionWeave.Proofs.Tree.Count
import VersionWeave.Proofs.Tree.TypeEdits
import VersionWeave.Proofs.Pinning.Erase
import VersionWeave.Proofs.Entries
import VersionWeave.Proofs.Distinct
import VersionWeave.Proofs.Symbols
import VersionWeave.Proofs.Symbols.Indexed
import VersionWeave.Proofs.Symbols.Exact
import VersionWeave.Proofs.Tree.Declared
import VersionWeave.Proofs.Tree.EveryNote
import VersionWeave.Proofs.Tree.Frames
import VersionWeave.Proofs.Unified.Nested
import VersionWeave.Proofs.Unified.Stages
import VersionWeave.Proofs.Unified.Versions
import VersionWeave.Proofs.Version
import VersionWeave.Proofs.Version.Grammar
import VersionWeave.Proofs.Version.Stable
import VersionWeave.Proofs.Unified.Furnished
import VersionWeave.Proofs.Unified.Outer
import VersionWeave.Proofs.Batch.Revised
import VersionWeave.Proofs.Batch.Groups
import VersionWeave.Proofs.Batch.Outcome
import VersionWeave.Proofs.Batch.Failures
import VersionWeave.Proofs.Batch.OnePerUnit
import VersionWeave.Proofs.Batch.PinnedStubs
import VersionWeave.Proofs.Batch.Operations
import VersionWeave.Proofs.Batch.Retention
import VersionWeave.Proofs.Tree.Types
import VersionWeave.Proofs.Tree.TypesEdited
import VersionWeave.Proofs.Tree.Scopes
import VersionWeave.Proofs.Batch.Marks
import VersionWeave.Proofs.Batch.Untouched
import VersionWeave.Proofs.Unified.Types
import VersionWeave.Proofs.Batch.Idempotent
import VersionWeave.Proofs.Reordered
import VersionWeave.Proofs.Batch.Alike
import VersionWeave.Proofs.Batch.OrderIndependent
import VersionWeave.Proofs.Meaning.Eval
import VersionWeave.Proofs.Meaning.Generated
import VersionWeave.Proofs.Meaning.Operations
import VersionWeave.Proofs.Meaning.ActiveVersion
import VersionWeave.Proofs.Unified.Surface
import VersionWeave.Proofs.Unified.Constructible
import VersionWeave.Proofs.Unified.Merged
import VersionWeave.Proofs.Unified.Merging
import VersionWeave.Proofs.Unified.Linked
import VersionWeave.Proofs.Json.Scalars
import VersionWeave.Proofs.Json.Values
import VersionWeave.Proofs.Json.Nesting
import VersionWeave.Proofs.Json.Recovers
import VersionWeave.Proofs.Tree.Recovered
import VersionWeave.Proofs.Tree.Walk
import VersionWeave.Proofs.Source.Escapes
import VersionWeave.Proofs.Source.Unambiguous
import VersionWeave.Proofs.Source.Signs
import VersionWeave.Proofs.Source.Printers
import VersionWeave.Proofs.Source.OneLine
import VersionWeave.Proofs.Source.Indented
import VersionWeave.Proofs.Source.Phrases
import VersionWeave.Proofs.Source.Marks
import VersionWeave.Proofs.Source.Branches
import VersionWeave.Proofs.Pinning.Unknown
import VersionWeave.Proofs.Unified.Returns
import VersionWeave.Proofs.Batch.Overloads
import VersionWeave.Proofs.Batch.OrdinalLiterals
import VersionWeave.Proofs.Tree.PostOrder
import VersionWeave.Proofs.Unified.Names
import VersionWeave.Proofs.Batch.Primary
import VersionWeave.Proofs.Disk
import VersionWeave.Proofs.Command.Files
