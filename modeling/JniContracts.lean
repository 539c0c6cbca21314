import JniContracts.Analysis
import JniContracts.Catalog
import JniContracts.Catalog.Builtin
import JniContracts.Code.Element
import JniContracts.Code.Expr
import JniContracts.Code.Op
import JniContracts.Code.Stmt
import JniContracts.Command
import JniContracts.Config
import JniContracts.Decimal.Double
import JniContracts.Decimal.Numeral
import JniContracts.Files.Discover
import JniContracts.Files.Path
import JniContracts.Files.Tree
import JniContracts.Finding
import JniContracts.Finding.Json
import JniContracts.Finding.Reader
import JniContracts.Flow.Build
import JniContracts.Flow.Coverage
import JniContracts.Flow.Graph
import JniContracts.Flow.Summary
import JniContracts.Json
import JniContracts.Json.Canonical
import JniContracts.Json.Reader
import JniContracts.Main
import JniContracts.Parse.Expr
import JniContracts.Parse.Header
import JniContracts.Parse.Lookahead
import JniContracts.Parse.State
import JniContracts.Parse.Stmt
import JniContracts.Parse.Unit
import JniContracts.Pattern.Bindings
import JniContracts.Pattern.Instances
import JniContracts.Pattern.Metavariable
import JniContracts.Pattern.Query
import JniContracts.Report.Console
import JniContracts.Report.Markup
import JniContracts.Report.Table
import JniContracts.Report.Text
import JniContracts.Rule.Evaluate
import JniContracts.Rule.Reader
import JniContracts.Rule.Scene
import JniContracts.Rule.Spec
import JniContracts.Scan
import JniContracts.Schema.Checked
import JniContracts.Schema.NumberText
import JniContracts.Schema.Reader
import JniContracts.Source.Brackets
import JniContracts.Source.Fault
import JniContracts.Source.Lexer
import JniContracts.Source.Token
import JniContracts.Text.Alphanumeric
import JniContracts.Text.Blank
import JniContracts.Text.Cased
import JniContracts.Text.CellWidth
import JniContracts.Text.CharSet
import JniContracts.Text.Lowercase
import JniContracts.Text.Printable
import JniContracts.Text.Quoted
import JniContracts.Text.Utf8
import JniContracts.Proofs.Coverage
import JniContracts.Proofs.Execution
import JniContracts.Proofs.Layout
import JniContracts.Proofs.Simulation
import JniContracts.Proofs.Construction
import JniContracts.Proofs.Lowering
import JniContracts.Proofs.Edits
import JniContracts.Proofs.Elements
import JniContracts.Proofs.ControlFlow
import JniContracts.Proofs.Duty
import JniContracts.Proofs.Release
import JniContracts.Proofs.NamePattern
import JniContracts.Proofs.Instances
import JniContracts.Proofs.Declarations
import JniContracts.Proofs.Reading
import JniContracts.Proofs.Passage
import JniContracts.Proofs.ReadingExprs
import JniContracts.Proofs.ReadingStmts
import JniContracts.Proofs.FileScope
import JniContracts.Proofs.SourceFiles
import JniContracts.Proofs.Spelling.Patterns
import JniContracts.Proofs.Spelling.Parts
import JniContracts.Proofs.Spelling.Places
import JniContracts.Proofs.Spelling.Statements
import JniContracts.Proofs.Spelling.Graphs
import JniContracts.Proofs.Spelling.Sites
import JniContracts.Proofs.Spelling.Findings
import JniContracts.Proofs.Sorting
import JniContracts.Proofs.RuleIndependence
import JniContracts.Proofs.Schedules
import JniContracts.Proofs.Lexemes
import JniContracts.Proofs.Positions
import JniContracts.Proofs.Rendering.Runs
import JniContracts.Proofs.Rendering.Reader
import JniContracts.Proofs.Rendering.Steps
import JniContracts.Proofs.Rendering.Trees
import JniContracts.Proofs.Rendering.RoundTrip
import JniContracts.Proofs.Rendering.Parsed
import JniContracts.Proofs.Rendering.Structure
import JniContracts.Proofs.Selection
import JniContracts.Proofs.Words
import JniContracts.Proofs.Rendering.Printed
import JniContracts.Proofs.Rendering.Casts
import JniContracts.Proofs.Rendering.Rereading
import JniContracts.Proofs.Rendering.WholeTexts
import JniContracts.Proofs.Rendering.Unambiguous
import JniContracts.Proofs.AcceptedCatalogs
import JniContracts.Proofs.Splitting.Statements
import JniContracts.Proofs.Splitting.Rows
import JniContracts.Proofs.Splitting.Graphs
import JniContracts.Proofs.Splitting.Search
import JniContracts.Proofs.Splitting.Sites
import JniContracts.Proofs.Splitting.Signs
import JniContracts.Proofs.Splitting.Watches
import JniContracts.Proofs.Splitting.Findings
import JniContracts.Proofs.Rejection
import JniContracts.Proofs.BlockEnds
import JniContracts.Proofs.GraphShape
import JniContracts.Proofs.Placement
import JniContracts.Proofs.WitnessPaths
import JniContracts.Proofs.PassedBindings
import JniContracts.Proofs.NameReadings
import JniContracts.Proofs.EnclosingLoops
import JniContracts.Proofs.LoopInvariants
import JniContracts.Proofs.Terminators
import JniContracts.Proofs.ExemptBranches
import JniContracts.Proofs.Respacing
import JniContracts.Proofs.ReachedStates
import JniContracts.Proofs.Insertion.Statements
import JniContracts.Proofs.Insertion.Runs
import JniContracts.Proofs.Insertion.Sites
import JniContracts.Proofs.Insertion.Leaks
import JniContracts.Proofs.Traversals
import JniContracts.Proofs.BracketTable
import JniContracts.Proofs.Grouping
import JniContracts.Proofs.Json.KeyOrder
import JniContracts.Proofs.Json.ReadBack
import JniContracts.Proofs.Json.CanonicalText
import JniContracts.Proofs.Json.Reports
