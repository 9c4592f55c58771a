import HybridRelaxation.Certificate.Diagnosis
import HybridRelaxation.Certificate.Eigenvalue
import HybridRelaxation.Certificate.GramArray
import HybridRelaxation.Certificate.GramMatrix
import HybridRelaxation.Certificate.Residual
import HybridRelaxation.Conic.Citation
import HybridRelaxation.Conic.ConicProblem
import HybridRelaxation.Conic.ConicReport
import HybridRelaxation.Conic.Solution
import HybridRelaxation.Console.Profile
import HybridRelaxation.Console.Report
import HybridRelaxation.Console.SolveReport
import HybridRelaxation.Datum
import HybridRelaxation.Entries
import HybridRelaxation.Expression.AbsoluteValue
import HybridRelaxation.Expression.Approximation
import HybridRelaxation.Expression.Arithmetic
import HybridRelaxation.Expression.Basic
import HybridRelaxation.Expression.Derivative
import HybridRelaxation.Expression.Display
import HybridRelaxation.Expression.Expansion
import HybridRelaxation.Expression.Exponential
import HybridRelaxation.Expression.Facts
import HybridRelaxation.Expression.Formula
import HybridRelaxation.Expression.Fraction
import HybridRelaxation.Expression.Indeterminates
import HybridRelaxation.Expression.Multiplication
import HybridRelaxation.Expression.Power
import HybridRelaxation.Expression.Product
import HybridRelaxation.Expression.Radical
import HybridRelaxation.Expression.Rules
import HybridRelaxation.Expression.Sign
import HybridRelaxation.Expression.Substitution
import HybridRelaxation.Expression.Sum
import HybridRelaxation.Expression.Text
import HybridRelaxation.Expression.Trigonometry
import HybridRelaxation.Failure
import HybridRelaxation.Flow.VectorField
import HybridRelaxation.Grid
import HybridRelaxation.Number.ComplexValue
import HybridRelaxation.Number.Decimal
import HybridRelaxation.Number.Elementary
import HybridRelaxation.Number.FloatFunction
import HybridRelaxation.Number.FloatValue
import HybridRelaxation.Number.Mixed
import HybridRelaxation.Number.Reading
import HybridRelaxation.Number.Rounding
import HybridRelaxation.Number.Scalar
import HybridRelaxation.NumberArray
import HybridRelaxation.Polynomial.Coefficients
import HybridRelaxation.Polynomial.Exponents
import HybridRelaxation.Polynomial.LinearForm
import HybridRelaxation.Proofs.Certificate.CoefficientNorms
import HybridRelaxation.Proofs.Certificate.Subresidual
import HybridRelaxation.Proofs.Expression.Addition
import HybridRelaxation.Proofs.Expression.Canonical
import HybridRelaxation.Proofs.Expression.Derivative
import HybridRelaxation.Proofs.Expression.Expansion
import HybridRelaxation.Proofs.Expression.Meaning
import HybridRelaxation.Proofs.Expression.Multiplication
import HybridRelaxation.Proofs.Expression.Power
import HybridRelaxation.Proofs.Expression.Substitution
import HybridRelaxation.Proofs.Expression.Value
import HybridRelaxation.Proofs.Flow.FirstOrder
import HybridRelaxation.Proofs.Flow.VectorField
import HybridRelaxation.Proofs.Outcome
import HybridRelaxation.Proofs.Polynomial.AffineMeaning
import HybridRelaxation.Proofs.Polynomial.AffineSpan
import HybridRelaxation.Proofs.Polynomial.Coefficients
import HybridRelaxation.Proofs.Polynomial.Collecting
import HybridRelaxation.Proofs.Polynomial.Exponents
import HybridRelaxation.Proofs.Polynomial.GradedOrder
import HybridRelaxation.Proofs.Polynomial.IndexWords
import HybridRelaxation.Proofs.Polynomial.LinearForm
import HybridRelaxation.Proofs.Polynomial.LinearReading
import HybridRelaxation.Proofs.Polynomial.Reconstruction
import HybridRelaxation.Proofs.Polynomial.Renaming
import HybridRelaxation.Proofs.Polynomial.RingLaws
import HybridRelaxation.Proofs.Polynomial.ScopePoint
import HybridRelaxation.Proofs.Relaxation.Assembly
import HybridRelaxation.Proofs.Relaxation.Bookkeeping
import HybridRelaxation.Proofs.Relaxation.CertificateError
import HybridRelaxation.Proofs.Relaxation.CertifiedValues
import HybridRelaxation.Proofs.Relaxation.Coupling
import HybridRelaxation.Proofs.Relaxation.DistinctSymbols
import HybridRelaxation.Proofs.Relaxation.FlowDerivative
import HybridRelaxation.Proofs.Relaxation.Hierarchy
import HybridRelaxation.Proofs.Relaxation.Layout
import HybridRelaxation.Proofs.Relaxation.LowerBound
import HybridRelaxation.Proofs.Relaxation.Moments
import HybridRelaxation.Proofs.Relaxation.Monotonicity
import HybridRelaxation.Proofs.Relaxation.NameInvariance
import HybridRelaxation.Proofs.Relaxation.Presentation
import HybridRelaxation.Proofs.Relaxation.Renaming
import HybridRelaxation.Proofs.Relaxation.Renumbering
import HybridRelaxation.Proofs.Relaxation.ReportedBound
import HybridRelaxation.Proofs.Relaxation.ResetComposition
import HybridRelaxation.Proofs.Relaxation.Residuals
import HybridRelaxation.Proofs.Relaxation.RunningOffset
import HybridRelaxation.Proofs.Relaxation.ScopeClosure
import HybridRelaxation.Proofs.Relaxation.Solved
import HybridRelaxation.Proofs.Relaxation.SolvedCoefficients
import HybridRelaxation.Proofs.Relaxation.Soundness
import HybridRelaxation.Proofs.Relaxation.Translation
import HybridRelaxation.Proofs.Relaxation.ValueTemplate
import HybridRelaxation.Proofs.Results.Heatmap
import HybridRelaxation.Proofs.SquareSum.Decisions
import HybridRelaxation.Proofs.SquareSum.Duality
import HybridRelaxation.Proofs.SquareSum.Evaluation
import HybridRelaxation.Proofs.SquareSum.FailedCalls
import HybridRelaxation.Proofs.SquareSum.FeasiblePoint
import HybridRelaxation.Proofs.SquareSum.History
import HybridRelaxation.Proofs.SquareSum.Matching
import HybridRelaxation.Proofs.SquareSum.Nonnegativity
import HybridRelaxation.Proofs.SquareSum.Program
import HybridRelaxation.Proofs.SquareSum.QuadraticForm
import HybridRelaxation.Proofs.SquareSum.SumOfSquares
import HybridRelaxation.Proofs.System.Consistency
import HybridRelaxation.Proofs.System.Execution
import HybridRelaxation.Proofs.System.Presentation
import HybridRelaxation.Proofs.System.ResetTables
import HybridRelaxation.Proofs.System.Subsolution
import HybridRelaxation.Relaxation.Assembly
import HybridRelaxation.Relaxation.Constraint
import HybridRelaxation.Relaxation.Problem
import HybridRelaxation.Relaxation.Stated
import HybridRelaxation.Relaxation.ValueTemplate
import HybridRelaxation.Results.Attribute
import HybridRelaxation.Results.Basic
import HybridRelaxation.Results.Calculation
import HybridRelaxation.Results.Chart
import HybridRelaxation.Results.PointValue
import HybridRelaxation.Settings
import HybridRelaxation.SquareSum.Program
import HybridRelaxation.SquareSum.Stated
import HybridRelaxation.SquareSum.Statement
import HybridRelaxation.System.Basic
import HybridRelaxation.System.Mode
import HybridRelaxation.System.Stated
import HybridRelaxation.System.Tables
import HybridRelaxation.System.Validation
import HybridRelaxation.Text
import HybridRelaxation.Text.Unprinted
