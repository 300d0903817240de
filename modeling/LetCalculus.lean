import LetCalculus.Decimal.FloatText
import LetCalculus.Decimal.Layout
import LetCalculus.Decimal.Shortest
import LetCalculus.Double
import LetCalculus.Environment
import LetCalculus.Eval.Basic
import LetCalculus.Eval.Depth
import LetCalculus.Eval.Machine
import LetCalculus.Eval.State
import LetCalculus.Eval.Trace
import LetCalculus.EvalError
import LetCalculus.Expr.Basic
import LetCalculus.Expr.Free
import LetCalculus.Expr.FreeIn
import LetCalculus.Expr.Nameless
import LetCalculus.Expr.Occurrence
import LetCalculus.Expr.Parts
import LetCalculus.Expr.Render
import LetCalculus.Expr.Subst
import LetCalculus.Heap.Basic
import LetCalculus.Heap.Grows
import LetCalculus.Heap.Reach
import LetCalculus.Interpreter
import LetCalculus.Name.Basic
import LetCalculus.Name.Consistent
import LetCalculus.Name.Fresh
import LetCalculus.Name.Freshness
import LetCalculus.Name.Table
import LetCalculus.Operator
import LetCalculus.Proofs.Agreement.ClosedPrograms
import LetCalculus.Proofs.Agreement.Correspondence
import LetCalculus.Proofs.Agreement.DynamicLexical
import LetCalculus.Proofs.Agreement.DynamicRecursion
import LetCalculus.Proofs.Agreement.LetApplication
import LetCalculus.Proofs.Agreement.Likeness
import LetCalculus.Proofs.Agreement.LookUp
import LetCalculus.Proofs.Agreement.NameTables
import LetCalculus.Proofs.Agreement.Renaming
import LetCalculus.Proofs.Agreement.Rewriting
import LetCalculus.Proofs.Agreement.Sequence
import LetCalculus.Proofs.Agreement.SubstitutionLexical
import LetCalculus.Proofs.Agreement.Unfolding
import LetCalculus.Proofs.Environments.Growth
import LetCalculus.Proofs.Environments.Persistence
import LetCalculus.Proofs.Evaluation.Arithmetic
import LetCalculus.Proofs.Evaluation.Failure
import LetCalculus.Proofs.Evaluation.Finished
import LetCalculus.Proofs.Evaluation.Frame
import LetCalculus.Proofs.Evaluation.HeapSteps
import LetCalculus.Proofs.Evaluation.Invariant
import LetCalculus.Proofs.Evaluation.Limit
import LetCalculus.Proofs.Evaluation.Operators
import LetCalculus.Proofs.Evaluation.Provenance
import LetCalculus.Proofs.Evaluation.ScopeSafety
import LetCalculus.Proofs.Evaluation.Sources
import LetCalculus.Proofs.Evaluation.Unlimited
import LetCalculus.Proofs.Names.Capacity
import LetCalculus.Proofs.Names.Choice
import LetCalculus.Proofs.Names.History
import LetCalculus.Proofs.Rendering.Floats
import LetCalculus.Proofs.Rendering.Phrases
import LetCalculus.Proofs.Rendering.Unambiguous
import LetCalculus.Proofs.Substitution.Composition
import LetCalculus.Proofs.Substitution.Course
import LetCalculus.Proofs.Substitution.FreeNames
import LetCalculus.Proofs.Substitution.Nameless
import LetCalculus.Proofs.Substitution.Necessity
import LetCalculus.Proofs.Substitution.Opening
import LetCalculus.Proofs.Substitution.Plain
import LetCalculus.Proofs.Substitution.Size
import LetCalculus.Strategy
import LetCalculus.Text.Blank
import LetCalculus.Value.Apply
import LetCalculus.Value.Basic
import LetCalculus.Value.Render
import LetCalculus.Proofs.Evaluation.Counter
