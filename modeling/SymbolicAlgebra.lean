import SymbolicAlgebra.Main
import SymbolicAlgebra.Expr.PostOrder
import SymbolicAlgebra.Proofs.Grammar.Blanks
import SymbolicAlgebra.Proofs.Isolation
import SymbolicAlgebra.Proofs.Matrices.Programs
import SymbolicAlgebra.Proofs.Rendering.Glm
import SymbolicAlgebra.Proofs.Rendering.RoundTrip
import SymbolicAlgebra.Proofs.Shapes.Programs
import SymbolicAlgebra.Proofs.Grammar.Patterns
import SymbolicAlgebra.Proofs.Tidying
import SymbolicAlgebra.Proofs.Grammar.Places
import SymbolicAlgebra.Proofs.Grammar.Problems
import SymbolicAlgebra.Proofs.Grammar.Locality
import SymbolicAlgebra.Proofs.Matrices.Entries
import SymbolicAlgebra.Proofs.Refusals.Tidying
import SymbolicAlgebra.Proofs.NormalForm
import SymbolicAlgebra.Proofs.Refusals.Division
import SymbolicAlgebra.Proofs.LikeTerms
import SymbolicAlgebra.Proofs.Cancellation
import SymbolicAlgebra.Proofs.Tolerance
import SymbolicAlgebra.Proofs.Arity
import SymbolicAlgebra.Proofs.Coefficients
import SymbolicAlgebra.Proofs.Rendering.Latex
import SymbolicAlgebra.Proofs.Matrices.Transposition
import SymbolicAlgebra.Proofs.Matrices.Filling
import SymbolicAlgebra.Proofs.Rendering.Columns
import SymbolicAlgebra.Proofs.Rendering.Spacing
import SymbolicAlgebra.Proofs.Traversal
import SymbolicAlgebra.Proofs.Grammar.Causes
import SymbolicAlgebra.Proofs.Grammar.Lines
import SymbolicAlgebra.Proofs.Termination
