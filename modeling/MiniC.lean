import MiniC.Bytes
import MiniC.Code.Fold
import MiniC.Code.Inst
import MiniC.Code.Listing
import MiniC.Code.Operator
import MiniC.Code.Optimize
import MiniC.Code.Prune
import MiniC.Compilation
import MiniC.CompileError
import MiniC.Layout.Access
import MiniC.Layout.DataModel
import MiniC.Layout.Error
import MiniC.Layout.Member
import MiniC.Layout.Registry
import MiniC.Layout.Render
import MiniC.Layout.Struct
import MiniC.Lowering.Arithmetic
import MiniC.Lowering.Control
import MiniC.Lowering.Emit
import MiniC.Lowering.Error
import MiniC.Lowering.Place
import MiniC.Lowering.Static
import MiniC.Lowering.Tree
import MiniC.Lowering.Unit
import MiniC.Machine.Fault
import MiniC.Machine.Image
import MiniC.Machine.Memory
import MiniC.Machine.Run
import MiniC.Main
import MiniC.Options
import MiniC.Proofs.Code.Contracts
import MiniC.Proofs.Code.Flow
import MiniC.Proofs.Code.Passes
import MiniC.Proofs.Code.Rewrites
import MiniC.Proofs.Compilation.Accesses
import MiniC.Proofs.Compilation.Addresses
import MiniC.Proofs.Compilation.Arity
import MiniC.Proofs.Compilation.Bindings
import MiniC.Proofs.Compilation.Bodies
import MiniC.Proofs.Compilation.Compound
import MiniC.Proofs.Compilation.Constants
import MiniC.Proofs.Compilation.Contracts
import MiniC.Proofs.Compilation.Copies
import MiniC.Proofs.Compilation.Definitions
import MiniC.Proofs.Compilation.Diagnostics
import MiniC.Proofs.Compilation.Evaluation
import MiniC.Proofs.Compilation.Initial
import MiniC.Proofs.Compilation.Literals
import MiniC.Proofs.Compilation.Names
import MiniC.Proofs.Compilation.Optimization
import MiniC.Proofs.Compilation.Ranges
import MiniC.Proofs.Compilation.Safety
import MiniC.Proofs.Compilation.Scopes
import MiniC.Proofs.Compilation.Structs
import MiniC.Proofs.Evaluation.Action
import MiniC.Proofs.Evaluation.Address
import MiniC.Proofs.Evaluation.Compound
import MiniC.Proofs.Evaluation.Constants
import MiniC.Proofs.Evaluation.Conversions
import MiniC.Proofs.Evaluation.Initial
import MiniC.Proofs.Evaluation.Reduced
import MiniC.Proofs.Evaluation.Returns
import MiniC.Proofs.Evaluation.Tree
import MiniC.Proofs.Layout.Placement
import MiniC.Proofs.Layout.Building
import MiniC.Proofs.Layout.Calls
import MiniC.Proofs.Layout.Consistency
import MiniC.Proofs.Layout.Flattening
import MiniC.Proofs.Layout.Kinship
import MiniC.Proofs.Layout.Leaves
import MiniC.Proofs.Layout.Paths
import MiniC.Proofs.Layout.Scalars
import MiniC.Proofs.Lowering.Abiding
import MiniC.Proofs.Lowering.Closure
import MiniC.Proofs.Lowering.Completeness
import MiniC.Proofs.Lowering.Conversions
import MiniC.Proofs.Lowering.Copies
import MiniC.Proofs.Lowering.Extents
import MiniC.Proofs.Lowering.Functions
import MiniC.Proofs.Lowering.Growth
import MiniC.Proofs.Lowering.Initial
import MiniC.Proofs.Lowering.Invariant
import MiniC.Proofs.Lowering.Lowerable
import MiniC.Proofs.Lowering.Obedience
import MiniC.Proofs.Lowering.Objects
import MiniC.Proofs.Lowering.Reach
import MiniC.Proofs.Lowering.Reached
import MiniC.Proofs.Lowering.Routines
import MiniC.Proofs.Lowering.Shapes
import MiniC.Proofs.Lowering.Sound
import MiniC.Proofs.Lowering.Soundness
import MiniC.Proofs.Lowering.Storage
import MiniC.Proofs.Lowering.Straight
import MiniC.Proofs.Machine.Accesses
import MiniC.Proofs.Machine.Bytes
import MiniC.Proofs.Machine.Contracts
import MiniC.Proofs.Machine.Ending
import MiniC.Proofs.Machine.Fitting
import MiniC.Proofs.Machine.Folding
import MiniC.Proofs.Machine.Image
import MiniC.Proofs.Machine.Loading
import MiniC.Proofs.Machine.Refinement
import MiniC.Proofs.Machine.Refusals
import MiniC.Proofs.Machine.Rewriting
import MiniC.Proofs.Machine.Safety
import MiniC.Proofs.Machine.Stack
import MiniC.Proofs.Machine.Words
import MiniC.Proofs.Simulation.Binding
import MiniC.Proofs.Simulation.Forms
import MiniC.Proofs.Simulation.Control
import MiniC.Proofs.Simulation.Functions
import MiniC.Proofs.Simulation.Parameters
import MiniC.Proofs.Simulation.Places
import MiniC.Proofs.Simulation.Running
import MiniC.Proofs.Simulation.Trees
import MiniC.Proofs.Simulation.Units
import MiniC.Proofs.Syntax.Constructs
import MiniC.Proofs.Syntax.Demands
import MiniC.Proofs.Syntax.Depth
import MiniC.Proofs.Syntax.Following
import MiniC.Proofs.Syntax.Heights
import MiniC.Proofs.Syntax.Inversion
import MiniC.Proofs.Syntax.Numbers
import MiniC.Proofs.Syntax.Printing
import MiniC.Proofs.Syntax.Reading
import MiniC.Proofs.Syntax.Scoped
import MiniC.Proofs.Syntax.Script
import MiniC.Proofs.Syntax.Sources
import MiniC.Proofs.Syntax.Spans
import MiniC.Proofs.Syntax.Tags
import MiniC.Proofs.Token.Families
import MiniC.Proofs.Token.Integers
import MiniC.Proofs.Token.Literals
import MiniC.Proofs.Token.Locality
import MiniC.Proofs.Token.Munch
import MiniC.Proofs.Token.Partition
import MiniC.Proofs.Token.Reals
import MiniC.Proofs.Token.Rules
import MiniC.Proofs.Token.Spelling
import MiniC.Proofs.Token.Texts
import MiniC.Proofs.Typing.Acceptance
import MiniC.Proofs.Typing.Annotated
import MiniC.Proofs.Typing.Blame
import MiniC.Proofs.Typing.Globals
import MiniC.Proofs.Typing.Judged
import MiniC.Proofs.Typing.JudgedUnits
import MiniC.Proofs.Typing.Judgement
import MiniC.Proofs.Typing.KinRules
import MiniC.Proofs.Typing.Names
import MiniC.Proofs.Typing.Nesting
import MiniC.Proofs.Typing.Quiet
import MiniC.Proofs.Typing.Ready
import MiniC.Proofs.Typing.Resolution
import MiniC.Proofs.Typing.Runs
import MiniC.Proofs.Typing.Signatures
import MiniC.Proofs.Typing.Spared
import MiniC.Proofs.Typing.Stability
import MiniC.Proofs.Typing.Steps
import MiniC.Proofs.Typing.Structs
import MiniC.Proofs.Typing.Traces
import MiniC.Proofs.Typing.Trees
import MiniC.Proofs.Typing.TwinChecks
import MiniC.Proofs.Typing.TwinTrees
import MiniC.Proofs.Typing.TwinUnits
import MiniC.Proofs.Typing.Twins
import MiniC.Proofs.Typing.Unchanged
import MiniC.Proofs.Typing.Units
import MiniC.Proofs.Typing.Walks
import MiniC.Proofs.Typing.Written
import MiniC.Report.Diagnostic
import MiniC.Report.Row
import MiniC.Report.Snippet
import MiniC.Source.Language
import MiniC.Source.Lines
import MiniC.Source.Span
import MiniC.Syntax.Constant
import MiniC.Syntax.Dump
import MiniC.Syntax.Parser.Basic
import MiniC.Syntax.Parser.Grammar
import MiniC.Syntax.Tree
import MiniC.Syntax.TypeExpr
import MiniC.Text.Outline
import MiniC.Text.Quoted
import MiniC.Text.Width
import MiniC.Token.Kind
import MiniC.Token.Lexer
import MiniC.Token.Literal
import MiniC.Typing.Analysis
import MiniC.Typing.Error
import MiniC.Typing.Resolve
import MiniC.Typing.Rules
import MiniC.Typing.Scope
import MiniC.Proofs.Code.FixedPoint
import MiniC.Proofs.Compilation.FixedPoint
import MiniC.Proofs.Compilation.Offsets
