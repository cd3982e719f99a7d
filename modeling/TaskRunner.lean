import TaskRunner.Bindings
import TaskRunner.Command.Basic
import TaskRunner.Command.Echo
import TaskRunner.Command.Parser
import TaskRunner.Command.Render
import TaskRunner.CommandLine
import TaskRunner.Context
import TaskRunner.Display
import TaskRunner.Environment
import TaskRunner.Expansion
import TaskRunner.Expression.Basic
import TaskRunner.Expression.Parser
import TaskRunner.Expression.Value
import TaskRunner.Files.Glob
import TaskRunner.Files.Path
import TaskRunner.Files.PathError
import TaskRunner.Files.Pattern
import TaskRunner.Files.Tree
import TaskRunner.Json.Basic
import TaskRunner.Json.Printer
import TaskRunner.Json.Record
import TaskRunner.Main
import TaskRunner.Options
import TaskRunner.ParseError
import TaskRunner.Process
import TaskRunner.Rehearsal
import TaskRunner.Run.Event
import TaskRunner.Run.ExecutionError
import TaskRunner.Run.Externals
import TaskRunner.Run.Invocation
import TaskRunner.Run.Outcome
import TaskRunner.Run.Runner
import TaskRunner.Run.Shell
import TaskRunner.Run.Valuation
import TaskRunner.TaskFile.Basic
import TaskRunner.TaskFile.CallStack
import TaskRunner.TaskFile.ConfigError
import TaskRunner.TaskFile.Decoding
import TaskRunner.TaskFile.Encoding
import TaskRunner.TaskFile.Item.Basic
import TaskRunner.TaskFile.Item.Length
import TaskRunner.TaskFile.Item.Sequence
import TaskRunner.TaskFile.Listing
import TaskRunner.TaskFile.Loading
import TaskRunner.TaskFile.Parser
import TaskRunner.TaskFile.Resolution
import TaskRunner.TaskFile.Validation
import TaskRunner.Text.Blank
import TaskRunner.Text.Block
import TaskRunner.Text.Cursor
import TaskRunner.Text.Escape
import TaskRunner.Text.Name
import TaskRunner.Text.OctetCursor
import TaskRunner.Text.Position
import TaskRunner.Text.Quoted
import TaskRunner.Text.Scan
import TaskRunner.Text.Slice
import TaskRunner.Text.Utf8
import TaskRunner.Yaml.Printer
import TaskRunner.Yaml.Resolution
import TaskRunner.Yaml.Scalar
import TaskRunner.Proofs.CycleSearch
import TaskRunner.Proofs.Restoration
import TaskRunner.Proofs.AcyclicRuns
import TaskRunner.Proofs.Independence
import TaskRunner.Proofs.Schedule
import TaskRunner.Proofs.ScheduledRuns
import TaskRunner.Proofs.EventContext
import TaskRunner.Proofs.CallDepth
import TaskRunner.Proofs.CanonicalNames
import TaskRunner.Proofs.ListedTasks
import TaskRunner.Proofs.DynamicScope
import TaskRunner.Proofs.FailureTraces
import TaskRunner.Proofs.ScanLocality
import TaskRunner.Proofs.ItemLocality
import TaskRunner.Proofs.Composition
import TaskRunner.Proofs.EchoReading
import TaskRunner.Proofs.EchoWords
import TaskRunner.Proofs.EchoDecision
import TaskRunner.Proofs.EchoFields
import TaskRunner.Proofs.BlockGrammar
import TaskRunner.Proofs.Verbosity
import TaskRunner.Proofs.Dispatching
import TaskRunner.Proofs.RunLogs
import TaskRunner.Proofs.JsonRoundTrip
import TaskRunner.Proofs.MergedNames
import TaskRunner.Proofs.PathWalks
import TaskRunner.Proofs.DeletedFiles
import TaskRunner.Proofs.Fragments
import TaskRunner.Proofs.ItemExchange
import TaskRunner.Proofs.TailExchange
import TaskRunner.Proofs.BodyComments
import TaskRunner.Proofs.LineEnds
import TaskRunner.Proofs.ExpressionGrammar
import TaskRunner.Proofs.CommandSpelling
import TaskRunner.Proofs.ReadingRuns
import TaskRunner.Proofs.WellFormedFiles
import TaskRunner.Proofs.ErrorPlaces
import TaskRunner.Proofs.ReferenceExpansion
import TaskRunner.Proofs.BracedExpressions
import TaskRunner.Proofs.EchoValues
import TaskRunner.Proofs.LineCutting
import TaskRunner.Proofs.EchoExchange
import TaskRunner.Proofs.BracedReferences
import TaskRunner.Proofs.QuotedLiterals
import TaskRunner.Proofs.DefaultChains
import TaskRunner.Proofs.EarlyVerbosity
import TaskRunner.Proofs.WrittenPaths
import TaskRunner.Proofs.DirectoryListing
import TaskRunner.Proofs.FragmentSearch
import TaskRunner.Proofs.TaskGroups
import TaskRunner.Proofs.OctetScans
import TaskRunner.Proofs.CursorPositions
import TaskRunner.Proofs.Declarations
import TaskRunner.Proofs.LineStarts
import TaskRunner.Proofs.Descriptions
import TaskRunner.Proofs.CarriageReturns
import TaskRunner.Proofs.LineBreaks
import TaskRunner.Proofs.PositionOrder
import TaskRunner.Proofs.NestedScopes
