import QueryCompiler.Assembly.IndexedPool
import QueryCompiler.Compiler
import QueryCompiler.Lowering.Dispatch
import QueryCompiler.Machine.Digest
import QueryCompiler.Machine.Listing
import QueryCompiler.Query.Sameness
import QueryCompiler.Rules.Custom
import QueryCompiler.Proofs.Actions
import QueryCompiler.Proofs.Layout.Laid
import QueryCompiler.Proofs.Layout.Growth
import QueryCompiler.Proofs.Layout.Run
import QueryCompiler.Proofs.Layout.Passage
import QueryCompiler.Proofs.Layout.Expressions
import QueryCompiler.Proofs.Layout.Statements
import QueryCompiler.Proofs.Layout.Branches
import QueryCompiler.Proofs.Layout.Loops
import QueryCompiler.Proofs.Layout.Handlers
import QueryCompiler.Proofs.Layout.Program
import QueryCompiler.Proofs.Verifier.Flow
import QueryCompiler.Proofs.Verifier.Phrases
import QueryCompiler.Proofs.Execution.Machine
import QueryCompiler.Proofs.Verifier.Program
import QueryCompiler.Proofs.Execution.Expressions
import QueryCompiler.Proofs.Execution.Interpreter
import QueryCompiler.Proofs.Execution.Control
import QueryCompiler.Proofs.Execution.Program
import QueryCompiler.Proofs.Encoding.Sessions
import QueryCompiler.Proofs.Encoding.Decoder
import QueryCompiler.Proofs.Progress.Outcomes
import QueryCompiler.Proofs.Progress.Course
import QueryCompiler.Proofs.Order.Walk
import QueryCompiler.Proofs.Progress.Blame
import QueryCompiler.Proofs.Progress.Footing
import QueryCompiler.Proofs.Progress.Operations
import QueryCompiler.Proofs.Progress.Expressions
import QueryCompiler.Proofs.Progress.Control
import QueryCompiler.Proofs.Progress.Handlers
import QueryCompiler.Proofs.Progress.Lowering
import QueryCompiler.Proofs.Tables.Text
import QueryCompiler.Proofs.Tables.Entries
import QueryCompiler.Proofs.Tables.Indexed
import QueryCompiler.Proofs.Tables.Guards
import QueryCompiler.Proofs.Tables.Records
import QueryCompiler.Proofs.Tables.Regions
import QueryCompiler.Proofs.Tables.Trail
import QueryCompiler.Proofs.Tables.Family
import QueryCompiler.Proofs.Tables.Slots
import QueryCompiler.Proofs.Tables.Functions
import QueryCompiler.Proofs.Tables.Pooling
import QueryCompiler.Proofs.Tables.Constants
import QueryCompiler.Proofs.Scopes.Balanced
import QueryCompiler.Proofs.Order.Nesting
import QueryCompiler.Proofs.Scopes.Accounts
import QueryCompiler.Proofs.Scopes.Clients
import QueryCompiler.Proofs.Order.Plan
import QueryCompiler.Proofs.Order.Rules
import QueryCompiler.Proofs.Order.Preflight
import QueryCompiler.Proofs.Order.Scopes
import QueryCompiler.Proofs.Order.Openings
import QueryCompiler.Proofs.Assignment.Visible
import QueryCompiler.Proofs.Assignment.Flow
import QueryCompiler.Proofs.Assignment.Phrases
import QueryCompiler.Proofs.Assignment.Origin
import QueryCompiler.Proofs.Assignment.Program
import QueryCompiler.Proofs.Parallel.Alteration
import QueryCompiler.Proofs.Parallel.Rules
import QueryCompiler.Proofs.Parallel.Relining
import QueryCompiler.Proofs.Parallel.View
import QueryCompiler.Proofs.Parallel.Mirror
import QueryCompiler.Proofs.Parallel.Renaming
import QueryCompiler.Proofs.Parallel.Positions
import QueryCompiler.Proofs.Parallel.Settings
import QueryCompiler.Proofs.Parallel.Parts
import QueryCompiler.Proofs.Parallel.Locality
import QueryCompiler.Proofs.Parallel.Ungrouping
import QueryCompiler.Proofs.Parallel.Grouping
import QueryCompiler.Proofs.Script.Places
import QueryCompiler.Proofs.Script.Growth
import QueryCompiler.Proofs.Script.Quiet
import QueryCompiler.Proofs.Script.Ledger
import QueryCompiler.Proofs.Sessions.Refusals
import QueryCompiler.Proofs.Script.Operations
import QueryCompiler.Proofs.Script.Script
import QueryCompiler.Proofs.Script.Rules
import QueryCompiler.Proofs.Script.Appending
import QueryCompiler.Proofs.Script.Starts
import QueryCompiler.Proofs.Script.Handing
import QueryCompiler.Proofs.Script.Slots
import QueryCompiler.Proofs.Sessions.Steps
import QueryCompiler.Proofs.Sessions.Upkeep
import QueryCompiler.Proofs.Lines.Lineless
import QueryCompiler.Proofs.Order.Dispatch
import QueryCompiler.Proofs.Lines.Signing
import QueryCompiler.Proofs.Lines.Attribution
