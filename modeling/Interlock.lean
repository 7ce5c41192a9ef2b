import Interlock.Analysis
import Interlock.CallGraph.Basic
import Interlock.CallGraph.Build
import Interlock.CallGraph.Dispatch
import Interlock.CallGraph.Heuristics
import Interlock.CallGraph.Resolve
import Interlock.CommandLine.Arguments
import Interlock.CommandLine.Commands
import Interlock.Deadlock.Findings
import Interlock.Deadlock.LockOrder
import Interlock.Deadlock.Traversal
import Interlock.Failure
import Interlock.Files.Path
import Interlock.Files.Tree
import Interlock.Ids
import Interlock.Main
import Interlock.Ordered.Basic
import Interlock.Ordered.Preorder
import Interlock.Program.Declaration
import Interlock.Program.Expr
import Interlock.Program.Hierarchy
import Interlock.Program.Language
import Interlock.Program.LockTable
import Interlock.Program.Lookup
import Interlock.Program.Model
import Interlock.Program.Numbering
import Interlock.Program.Resolution
import Interlock.Progress
import Interlock.Report.Basic
import Interlock.Report.Json
import Interlock.Report.Terminal
import Interlock.Run
import Interlock.Settings.Config
import Interlock.Settings.Glob
import Interlock.Settings.Resolved
import Interlock.Settings.Toml.Reader
import Interlock.Settings.Toml.Scalars
import Interlock.Settings.Toml.Strings
import Interlock.Settings.Toml.Value
import Interlock.Source.Body
import Interlock.Source.Script
import Interlock.Source.CSharp
import Interlock.Source.Java
import Interlock.Source.Lowering
import Interlock.Source.Node
import Interlock.Source.OutlineText
import Interlock.Source.Reading
import Interlock.Text.CharClass
import Interlock.Text.Document
import Interlock.Text.Fingerprint
import Interlock.Text.Pieces
import Interlock.Text.Quoted
import Interlock.Text.Style
import Interlock.Threading
import Interlock.Types.Kind
import Interlock.Types.Library
import Interlock.Types.Registry
import Interlock.Types.TypeExpr
import Interlock.Workspace
import Interlock.Proofs.Text.Occurrence
import Interlock.Proofs.Ordered.Reachable
import Interlock.Proofs.Deadlock.Conflicts
import Interlock.Proofs.Deadlock.Execution
import Interlock.Proofs.Deadlock.RelativeStack
import Interlock.Proofs.Deadlock.Observation
import Interlock.Proofs.Deadlock.Invariant
import Interlock.Proofs.Deadlock.Soundness
import Interlock.Proofs.Deadlock.Exactness
import Interlock.Proofs.Deadlock.Parallel
import Interlock.Proofs.Deadlock.Memo
import Interlock.Proofs.Deadlock.Calls
import Interlock.Proofs.Types.History
import Interlock.Proofs.Types.Interning
import Interlock.Proofs.Types.Making
import Interlock.Proofs.Types.Reading
import Interlock.Proofs.Types.Registry
import Interlock.Proofs.Types.Substitution
import Interlock.Proofs.Types.Tree
import Interlock.Proofs.Program.Hierarchy
import Interlock.Proofs.Program.Lookup
import Interlock.Proofs.Program.Numbering
import Interlock.Proofs.Program.Typing
import Interlock.Proofs.Program.Resolution
import Interlock.Proofs.Program.Lexicon
import Interlock.Proofs.Program.LockBooks
import Interlock.Proofs.Program.LockPairing
import Interlock.Proofs.Program.LockHistory
import Interlock.Proofs.CallGraph.Dispatch
import Interlock.Proofs.CallGraph.Layout
import Interlock.Proofs.CallGraph.Monitors
import Interlock.Proofs.CallGraph.FieldGuards
import Interlock.Proofs.CallGraph.Values
import Interlock.Proofs.CallGraph.Targets
import Interlock.Proofs.CallGraph.Guards
import Interlock.Proofs.CallGraph.Build
import Interlock.Proofs.Report.LockNames
import Interlock.Proofs.Source.Regions
import Interlock.Proofs.Source.Texts
import Interlock.Proofs.Source.Lowering
import Interlock.Proofs.Source.Visits
import Interlock.Proofs.Source.Names
import Interlock.Proofs.Source.Units
import Interlock.Proofs.Source.Deferred
import Interlock.Proofs.Program.WrittenTypes
import Interlock.Proofs.Program.ResolvedTypes
import Interlock.Proofs.Program.StoredTypes
import Interlock.Proofs.Program.LockRecognition
import Interlock.Proofs.Program.GenericMembers
import Interlock.Proofs.Program.MatchedTypes
import Interlock.Proofs.Program.FieldLocks
import Interlock.Proofs.Deadlock.Structured
import Interlock.Proofs.Deadlock.Cap
import Interlock.Proofs.Program.ClassScopes
import Interlock.Proofs.Source.Namespaces
import Interlock.Proofs.Deadlock.Holders
import Interlock.Proofs.Deadlock.Witnesses
import Interlock.Proofs.Deadlock.GlobalOrder
import Interlock.Proofs.Ordered.FirstVisits
import Interlock.Proofs.Program.Ancestors
import Interlock.Proofs.Ordered.Worklist
import Interlock.Proofs.Program.Subclasses
import Interlock.Proofs.Types.Instantiation
import Interlock.Proofs.Program.MemberOrder
import Interlock.Proofs.Program.NamedViews
import Interlock.Proofs.Types.ReadNames
import Interlock.Proofs.Program.BareNames
import Interlock.Proofs.Deadlock.Moments
import Interlock.Proofs.Deadlock.StackShape
