import Refscript.Code.Builder
import Refscript.Code.LineTable
import Refscript.Code.Listing
import Refscript.Code.Lower
import Refscript.Code.Opcode
import Refscript.Code.Prototype
import Refscript.Code.StackCheck
import Refscript.Code.Word
import Refscript.Data.Table
import Refscript.FileTree
import Refscript.Machine.Basic
import Refscript.Machine.Exec
import Refscript.Machine.Frame
import Refscript.Machine.Introspection
import Refscript.Machine.Native
import Refscript.Main
import Refscript.Number.Basic
import Refscript.Number.Decimal
import Refscript.Number.Double
import Refscript.Number.Power
import Refscript.Proofs.Code.Balance
import Refscript.Proofs.Code.Building
import Refscript.Proofs.Code.Chart
import Refscript.Proofs.Code.Commands
import Refscript.Proofs.Code.Compiled
import Refscript.Proofs.Code.Context
import Refscript.Proofs.Code.Control
import Refscript.Proofs.Code.Emission
import Refscript.Proofs.Code.Functions
import Refscript.Proofs.Code.HeightSearch
import Refscript.Proofs.Code.Labels
import Refscript.Proofs.Code.Lines
import Refscript.Proofs.Code.Lowering
import Refscript.Proofs.Code.Operands
import Refscript.Proofs.Code.Outline
import Refscript.Proofs.Code.Paths
import Refscript.Proofs.Code.Placement
import Refscript.Proofs.Code.Plotting
import Refscript.Proofs.Code.Redeclaration
import Refscript.Proofs.Code.Resolution
import Refscript.Proofs.Code.Scoping
import Refscript.Proofs.Code.Segment
import Refscript.Proofs.Code.StraightLine
import Refscript.Proofs.Code.Tracking
import Refscript.Proofs.Code.Walk
import Refscript.Proofs.Code.Words
import Refscript.Proofs.Data.Table
import Refscript.Proofs.Machine.Arguments
import Refscript.Proofs.Machine.Assignment
import Refscript.Proofs.Machine.CallDepth
import Refscript.Proofs.Machine.Captures
import Refscript.Proofs.Machine.Cells
import Refscript.Proofs.Machine.Constants
import Refscript.Proofs.Machine.Definition
import Refscript.Proofs.Machine.Detours
import Refscript.Proofs.Machine.Embedding
import Refscript.Proofs.Machine.ErrorLines
import Refscript.Proofs.Machine.Evaluation
import Refscript.Proofs.Machine.Heights
import Refscript.Proofs.Machine.Instances
import Refscript.Proofs.Machine.Instruction
import Refscript.Proofs.Machine.Lifting
import Refscript.Proofs.Machine.Lineage
import Refscript.Proofs.Machine.Lockstep
import Refscript.Proofs.Machine.Operands
import Refscript.Proofs.Machine.Run
import Refscript.Proofs.Machine.StraightLine
import Refscript.Proofs.Machine.World
import Refscript.Proofs.Number.Arithmetic
import Refscript.Proofs.Number.Exact
import Refscript.Proofs.Number.Range
import Refscript.Proofs.Number.Small
import Refscript.Proofs.Semantics.Branching
import Refscript.Proofs.Semantics.CompoundAssignment
import Refscript.Proofs.Semantics.Dispatch
import Refscript.Proofs.Semantics.Evaluator
import Refscript.Proofs.Semantics.Folding
import Refscript.Proofs.Semantics.Literals
import Refscript.Proofs.Semantics.Operations
import Refscript.Proofs.Semantics.ReadBack
import Refscript.Proofs.Semantics.Refinement
import Refscript.Proofs.Semantics.Simulation
import Refscript.Proofs.Source.Layout
import Refscript.Proofs.Source.Mode
import Refscript.Proofs.Source.Positions
import Refscript.Proofs.Source.Spacing
import Refscript.Proofs.Source.Tiling
import Refscript.Proofs.Store.Chain
import Refscript.Proofs.Store.Datum
import Refscript.Proofs.Store.Difference
import Refscript.Proofs.Store.Ensures
import Refscript.Proofs.Store.Likeness
import Refscript.Proofs.Store.Spare
import Refscript.Proofs.Store.Unfolding
import Refscript.Proofs.Syntax.Agreement
import Refscript.Proofs.Syntax.Compact
import Refscript.Proofs.Syntax.Echo
import Refscript.Proofs.Syntax.Form
import Refscript.Proofs.Syntax.Grouping
import Refscript.Proofs.Syntax.Literal
import Refscript.Proofs.Syntax.Marking
import Refscript.Proofs.Syntax.Parts
import Refscript.Proofs.Syntax.Progress
import Refscript.Proofs.Syntax.Reading
import Refscript.Proofs.Syntax.Settled
import Refscript.Proofs.Syntax.StringLiteral
import Refscript.Proofs.Syntax.Term
import Refscript.Recording
import Refscript.Session
import Refscript.Shell
import Refscript.Source.Diagnostic
import Refscript.Source.Operator
import Refscript.Source.Scan
import Refscript.Source.Token
import Refscript.Store.Action
import Refscript.Store.Basic
import Refscript.Store.Equality
import Refscript.Store.Kit
import Refscript.Store.Location
import Refscript.Store.Operation
import Refscript.Store.Text
import Refscript.Syntax.Normalize
import Refscript.Syntax.Parse
import Refscript.Syntax.Precedence
import Refscript.Syntax.Tree
import Refscript.Terminal
import Refscript.Text.Blank
import Refscript.Text.Casing
import Refscript.Text.CodePointSet
import Refscript.Text.Letter
import Refscript.Text.Quoted
import Refscript.Value.Basic
import Refscript.Value.Fault
import Refscript.Value.Native
