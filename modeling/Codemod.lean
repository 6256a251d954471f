import Codemod.Chain.Codec
import Codemod.Chain.ManifestStep
import Codemod.Chain.PatchStep
import Codemod.Chain.Policy
import Codemod.Chain.Report
import Codemod.Chain.Run
import Codemod.Chain.Step
import Codemod.Change.Anchoring
import Codemod.Change.Basic
import Codemod.Change.Codec
import Codemod.Change.Layout
import Codemod.Change.Planning
import Codemod.Change.Presence
import Codemod.Change.Rendering
import Codemod.CommandLine.Demand
import Codemod.CommandLine.FileSystem
import Codemod.CommandLine.Listing
import Codemod.CommandLine.Options
import Codemod.CommandLine.Request
import Codemod.CommandLine.Run
import Codemod.Decimal.Double
import Codemod.Decimal.Shortest
import Codemod.Diff.Compaction
import Codemod.Diff.Ends
import Codemod.Diff.Hunk
import Codemod.Diff.Script
import Codemod.Diff.Search
import Codemod.Diff.Unified
import Codemod.Digest.Sha256
import Codemod.Grammar.Bindings
import Codemod.Grammar.Expressions
import Codemod.Grammar.Lexeme
import Codemod.Grammar.LineEnd
import Codemod.Grammar.Literals
import Codemod.Grammar.Markup
import Codemod.Grammar.Program
import Codemod.Grammar.Rule
import Codemod.Grammar.Statements
import Codemod.Grammar.Symbol
import Codemod.Grammar.Types
import Codemod.Json.Decode
import Codemod.Json.Printer
import Codemod.Json.Reader
import Codemod.Json.Value
import Codemod.Main
import Codemod.Manifest.Dependencies
import Codemod.Manifest.Indent
import Codemod.Module.Root
import Codemod.Module.Specifier
import Codemod.Path.Basic
import Codemod.Path.Codec
import Codemod.Path.Map
import Codemod.Path.Normal
import Codemod.Proofs.AnchorPlaces
import Codemod.Proofs.AppliedOnce
import Codemod.Proofs.Atomicity
import Codemod.Proofs.BoundNames
import Codemod.Proofs.BufferedEdits
import Codemod.Proofs.CarriedRoots
import Codemod.Proofs.CarriedTrees
import Codemod.Proofs.ChangeSets
import Codemod.Proofs.Collisions
import Codemod.Proofs.Declarations
import Codemod.Proofs.Disks
import Codemod.Proofs.DocumentOrder
import Codemod.Proofs.EditLog
import Codemod.Proofs.EditScripts
import Codemod.Proofs.ExactSplices
import Codemod.Proofs.FirstCalls
import Codemod.Proofs.FirstRuns
import Codemod.Proofs.Freshness
import Codemod.Proofs.Grammars
import Codemod.Proofs.Hunks
import Codemod.Proofs.Indentation
import Codemod.Proofs.Independence
import Codemod.Proofs.Insertions
import Codemod.Proofs.JsonLayouts
import Codemod.Proofs.JsonLexemes
import Codemod.Proofs.JsonNumbers
import Codemod.Proofs.JsonTexts
import Codemod.Proofs.LastingFields
import Codemod.Proofs.LaterTexts
import Codemod.Proofs.LexicalPaths
import Codemod.Proofs.ListForms
import Codemod.Proofs.ListInsertions
import Codemod.Proofs.ManifestTables
import Codemod.Proofs.NodeTexts
import Codemod.Proofs.NormalPaths
import Codemod.Proofs.ObjectLiterals
import Codemod.Proofs.ObjectValues
import Codemod.Proofs.OwnChanges
import Codemod.Proofs.PatchReading
import Codemod.Proofs.Patches
import Codemod.Proofs.PathJoins
import Codemod.Proofs.PathMaps
import Codemod.Proofs.PathOrder
import Codemod.Proofs.PlanOutcomes
import Codemod.Proofs.ProjectTexts
import Codemod.Proofs.Recovery
import Codemod.Proofs.Reformatting
import Codemod.Proofs.Registrations
import Codemod.Proofs.Relapses
import Codemod.Proofs.ReportTables
import Codemod.Proofs.Reruns
import Codemod.Proofs.Respelling
import Codemod.Proofs.RootModules
import Codemod.Proofs.RoundTrips
import Codemod.Proofs.RunAccounts
import Codemod.Proofs.SecondRuns
import Codemod.Proofs.SetupChanges
import Codemod.Proofs.Specifiers
import Codemod.Proofs.Splices
import Codemod.Proofs.StagingRun
import Codemod.Proofs.StepCourses
import Codemod.Proofs.StepEffects
import Codemod.Proofs.StepFrames
import Codemod.Proofs.TouchedFiles
import Codemod.Proofs.TreeGrowth
import Codemod.Proofs.ValueBindings
import Codemod.Proofs.Ways
import Codemod.Proofs.WriteOuts
import Codemod.Report.Document
import Codemod.Report.Markdown
import Codemod.Report.StatusLine
import Codemod.Setup.Config
import Codemod.Setup.Recipe
import Codemod.Setup.Run
import Codemod.Setup.Settings
import Codemod.Setup.Writing
import Codemod.Source.Calls
import Codemod.Source.Declarations
import Codemod.Source.File
import Codemod.Source.Imports
import Codemod.Source.Kind
import Codemod.Source.Language
import Codemod.Source.Node
import Codemod.Staging.Error
import Codemod.Staging.File
import Codemod.Staging.Record
import Codemod.Staging.Splice
import Codemod.Staging.Summary
import Codemod.Staging.Tree
import Codemod.Staging.View
import Codemod.Stamp.Calendar
import Codemod.Stamp.Instant
import Codemod.Stamp.Uuid
import Codemod.Text.Blank
import Codemod.Text.Bytes
import Codemod.Text.Lines
import Codemod.Text.Offset
import Codemod.Text.Quoted
import Codemod.Text.Split
import Codemod.Toml.Decode
import Codemod.Toml.Quoted
import Codemod.Toml.Reader
import Codemod.Toml.Scalar
import Codemod.Toml.Table
import Codemod.Toml.Value
