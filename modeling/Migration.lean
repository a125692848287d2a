import Migration.Main
import Migration.Host.Files
import Migration.Proofs.Token.Scanning
import Migration.Proofs.Text.Segments
import Migration.Proofs.Tree.Tokens
import Migration.Proofs.Tree.WellFormed
import Migration.Proofs.Grammar.Reading
import Migration.Proofs.Grammar.SoundExpressions
import Migration.Proofs.Grammar.Accepting
import Migration.Proofs.Grammar.CompleteDeclarations
import Migration.Proofs.Grammar.RoundTrip
import Migration.Proofs.Imports.Edit
import Migration.Proofs.Imports.Reconcile
import Migration.Proofs.Imports.Readable
import Migration.Proofs.Rule.Notes
import Migration.Proofs.Rule.Readable
import Migration.Proofs.Scope.Binding
import Migration.Proofs.Text.Ascii
import Migration.Proofs.Recipe.Unchanged
import Migration.Proofs.Recipe.Readable
import Migration.Proofs.Recipe.Repeated
import Migration.Proofs.Rule.Termination
import Migration.Proofs.Traversal.Rebuild
import Migration.Proofs.Recipe.Retargeted
import Migration.Proofs.Recipe.Reordered
import Migration.Proofs.Recipe.Numbered
import Migration.Proofs.Traversal.SameNodes
import Migration.Proofs.Recipe.Orphans
import Migration.Proofs.Tree.JsonRoundTrip
import Migration.Proofs.Recipe.JsonRoundTrip
import Migration.Proofs.Host.Isolation
import Migration.Proofs.Imports.Comments
import Migration.Proofs.Recipe.FirstImports
import Migration.Proofs.Imports.Report
import Migration.Proofs.Recipe.Removed
import Migration.Proofs.Recipe.DistinctImports
import Migration.Proofs.Imports.Insertion
import Migration.Proofs.Grammar.Numbering
import Migration.Proofs.Token.Bytes
import Migration.Proofs.Token.Trivia
import Migration.Proofs.Token.Positions
import Migration.Proofs.Grammar.NodeCount
import Migration.Proofs.Token.Partition
import Migration.Proofs.Recipe.Respelled
import Migration.Proofs.Rule.Accepted
import Migration.Proofs.Grammar.Operators
import Migration.Proofs.Recipe.ConfiguredNames
import Migration.Proofs.Scope.LocalTypes
import Migration.Proofs.Traversal.Places
import Migration.Proofs.Grammar.Refusals
import Migration.Proofs.Recipe.LineBreaks
import Migration.Proofs.Scope.SimpleNames
import Migration.Proofs.Grammar.Progress
