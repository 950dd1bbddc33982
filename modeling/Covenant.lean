import Covenant.Builtin
import Covenant.Compile
import Covenant.Contract
import Covenant.Error
import Covenant.Gen.Basic
import Covenant.Gen.Builtin
import Covenant.Gen.Contract
import Covenant.Gen.Expr
import Covenant.Gen.Operand
import Covenant.Gen.Path
import Covenant.Gen.Record
import Covenant.Gen.RecordClass
import Covenant.Gen.Stmt
import Covenant.Instr.Basic
import Covenant.Instr.Divergence
import Covenant.Instr.Printer
import Covenant.Layout
import Covenant.Proofs.Gen.Steps
import Covenant.Proofs.Machine.Execution
import Covenant.Proofs.Machine.Depth
import Covenant.Syntax.Build
import Covenant.Syntax.Desugar
import Covenant.Syntax.Expr
import Covenant.Syntax.Printer
import Covenant.Syntax.Stmt
import Covenant.Syntax.Transaction
import Covenant.Table
import Covenant.Text.DefaultIgnorable
import Covenant.Text.GraphemeExtend
import Covenant.Text.Quoted
import Covenant.Text.Runs
import Covenant.Text.Unprintable
import Covenant.Timedelta
import Covenant.Ty.Basic
import Covenant.Ty.Printer
import Covenant.TypeExpr
import Covenant.Typing.Basic
import Covenant.Typing.Callee
import Covenant.Typing.Expr
import Covenant.Proofs.Layout.Operations
import Covenant.Proofs.Gen.Counted
import Covenant.Proofs.Gen.Closed
import Covenant.Proofs.DepthAccounting
import Covenant.Proofs.Gen.Rules
import Covenant.Proofs.Gen.Assembly
import Covenant.Proofs.Layout.WellFormed
import Covenant.Proofs.Typing.Clean
import Covenant.Proofs.Typing.Faults
import Covenant.Proofs.Gen.Yields
import Covenant.Proofs.NoDefects
import Covenant.Proofs.Machine.Stack
import Covenant.Proofs.Machine.Types
import Covenant.Proofs.Typing.Stable
import Covenant.Proofs.TypeSoundness.Leaves
import Covenant.Proofs.TypeSoundness.Expr
import Covenant.Proofs.TypeSoundness.Advance
import Covenant.Proofs.TypeSoundness.Stmt
import Covenant.Proofs.TypeSoundness
import Covenant.Proofs.StackBalance
import Covenant.Proofs.Notes
import Covenant.Proofs.Lockstep
import Covenant.Proofs.Renaming.Syntax
import Covenant.Proofs.Renaming.Layout
import Covenant.Proofs.Lines.Syntax
import Covenant.Proofs.Translation.Typing
import Covenant.Proofs.Translation.Gen
import Covenant.Proofs.Translation.Expr
import Covenant.Proofs.Translation.Stmt
import Covenant.Proofs.Translation.Contract
import Covenant.Proofs.Translation.Module
import Covenant.Proofs.DebugNotes
import Covenant.Proofs.RenamingInvariance
import Covenant.Proofs.Machine.Values
import Covenant.Proofs.Evaluation
import Covenant.Proofs.SemanticPreservation.Computes
import Covenant.Proofs.SemanticPreservation.Expr
import Covenant.Proofs.SemanticPreservation.Stmt
import Covenant.Proofs.SemanticPreservation
import Covenant.Proofs.Machine.Cells
import Covenant.Proofs.EntryStack
import Covenant.Proofs.Reach
import Covenant.Proofs.Scoping
import Covenant.Proofs.KnownTypes.Expr
import Covenant.Proofs.KnownTypes
import Covenant.Proofs.Frame.Expr
import Covenant.Proofs.Frame
import Covenant.Proofs.TypeCache.Memory
import Covenant.Proofs.TypeCache.Typing
import Covenant.Proofs.Gen.Steady
import Covenant.Proofs.TypeCache.Gen
import Covenant.Proofs.TypeCache.Expr
import Covenant.Proofs.TypeCache.Stmt
import Covenant.Proofs.TypeCache
import Covenant.Proofs.LineInvariance
import Covenant.Proofs.Increments
import Covenant.Proofs.EntrypointIndependence
import Covenant.Proofs.Relocation.Expr
import Covenant.Proofs.PathUpdate.Values
import Covenant.Proofs.PathUpdate
import Covenant.Proofs.Aborts.Code
import Covenant.Proofs.Aborts.Soundness
import Covenant.Proofs.Aborts.Stmt
import Covenant.Proofs.Aborts
import Covenant.Proofs.TypingStability
import Covenant.Proofs.TypeFitting
import Covenant.Proofs.MapLiterals
import Covenant.Proofs.Connectives
import Covenant.Proofs.Transactions
import Covenant.Proofs.MethodErrors
import Covenant.Proofs.RecordAnnotations
import Covenant.Proofs.AnnotatedAssignment
import Covenant.Proofs.KeywordCalls
import Covenant.Proofs.TimeSpans
import Covenant.Proofs.TypeTexts
import Covenant.Proofs.NamedCells
import Covenant.Proofs.RecordCombs
