import DiscreteOrdinates.Scalar
import DiscreteOrdinates.Requirement
import DiscreteOrdinates.SoftEquality
import DiscreteOrdinates.Text.Blank
import DiscreteOrdinates.Text.Letter
import DiscreteOrdinates.Decimal.Basic
import DiscreteOrdinates.Decimal.Binary
import DiscreteOrdinates.Decimal.Shortest
import DiscreteOrdinates.Decimal.Rounded
import DiscreteOrdinates.Decimal.Literal
import DiscreteOrdinates.Json.Value
import DiscreteOrdinates.Json.Token
import DiscreteOrdinates.Json.Reader
import DiscreteOrdinates.Json.Number
import DiscreteOrdinates.Sample
import DiscreteOrdinates.Selector
import DiscreteOrdinates.Matrix.Basic
import DiscreteOrdinates.Matrix.ColumnMajor
import DiscreteOrdinates.Matrix.Text
import DiscreteOrdinates.Matrix.Solver
import DiscreteOrdinates.Matrix.Inverse
import DiscreteOrdinates.Matrix.SingularValues
import DiscreteOrdinates.Quadrature.Error
import DiscreteOrdinates.Ordinate
import DiscreteOrdinates.Harmonics.Legendre
import DiscreteOrdinates.Harmonics.Spherical
import DiscreteOrdinates.Harmonics.Normalised
import DiscreteOrdinates.Quadrature.Table
import DiscreteOrdinates.Quadrature.IntervalRule
import DiscreteOrdinates.Quadrature.ChebyshevLegendre
import DiscreteOrdinates.Quadrature.Reflection
import DiscreteOrdinates.Quadrature.LevelSymmetric
import DiscreteOrdinates.Quadrature.UserTable
import DiscreteOrdinates.Quadrature.UserOctant
import DiscreteOrdinates.Quadrature.Basic
import DiscreteOrdinates.Quadrature.Closure
import DiscreteOrdinates.Quadrature.Families
import DiscreteOrdinates.Quadrature.Report
import DiscreteOrdinates.Configuration.Basic
import DiscreteOrdinates.Configuration.Block
import DiscreteOrdinates.Configuration.Document
import DiscreteOrdinates.Sweep.Level
import DiscreteOrdinates.Sweep.Basic
import DiscreteOrdinates.Moments.Index
import DiscreteOrdinates.Moments.Error
import DiscreteOrdinates.Moments.Selection
import DiscreteOrdinates.Moments.Operators
import DiscreteOrdinates.Moments.Report
import DiscreteOrdinates.Angular.Error
import DiscreteOrdinates.Angular.Redistribution
import DiscreteOrdinates.Angular.Compatibility
import DiscreteOrdinates.Proofs.RealScalar
import DiscreteOrdinates.Proofs.FloatScalar
import DiscreteOrdinates.Proofs.Sorting
import DiscreteOrdinates.Proofs.Sample.Clustering
import DiscreteOrdinates.Proofs.Harmonics.Recurrence
import DiscreteOrdinates.Proofs.Harmonics.Tesseral
import DiscreteOrdinates.Proofs.Harmonics.Agreement
import DiscreteOrdinates.Proofs.Moments.Candidates
import DiscreteOrdinates.Proofs.Moments.SearchRuns
import DiscreteOrdinates.Proofs.Moments.Validation
import DiscreteOrdinates.Proofs.Moments.Projection
import DiscreteOrdinates.Proofs.Moments.Greedy
import DiscreteOrdinates.Proofs.Moments.IndependentSearch
import DiscreteOrdinates.Proofs.Matrix.Nonsingular
import DiscreteOrdinates.Proofs.Moments.Galerkin
import DiscreteOrdinates.Proofs.Sweep.Arrangement
import DiscreteOrdinates.Proofs.Sweep.Levels
import DiscreteOrdinates.Proofs.Angular.Closing
import DiscreteOrdinates.Proofs.Angular.Levels
import DiscreteOrdinates.Proofs.Angular.Structure
import DiscreteOrdinates.Proofs.Sweep.Weight
import DiscreteOrdinates.Proofs.Angular.Recursion
import DiscreteOrdinates.Proofs.Angular.UniformFlux
import DiscreteOrdinates.Proofs.Angular.Alpha
import DiscreteOrdinates.Proofs.Quadrature.UserTable
import DiscreteOrdinates.Proofs.Angular.Cells
import DiscreteOrdinates.Proofs.Angular.Partition
import DiscreteOrdinates.Proofs.Angular.SweepOrder
import DiscreteOrdinates.Proofs.Matrix.Inversion
import DiscreteOrdinates.Proofs.Matrix.Product
import DiscreteOrdinates.Proofs.Moments.Construction
import DiscreteOrdinates.Proofs.Moments.RoundTrip
import DiscreteOrdinates.Proofs.Matrix.SingularFactors
import DiscreteOrdinates.Proofs.Moments.WeightedInverse
import DiscreteOrdinates.Proofs.Moments.FirstRow
import DiscreteOrdinates.Proofs.Sweep.Starts
import DiscreteOrdinates.Proofs.Sweep.Clusters
import DiscreteOrdinates.Proofs.Angular.Compatibility
import DiscreteOrdinates.Proofs.Angular.LevelNumbers
import DiscreteOrdinates.Proofs.Quadrature.Closure
import DiscreteOrdinates.Proofs.Quadrature.Merging
import DiscreteOrdinates.Proofs.Quadrature.Orbits
import DiscreteOrdinates.Proofs.Quadrature.FullSphere
import DiscreteOrdinates.Proofs.Quadrature.InteriorOctants
import DiscreteOrdinates.Proofs.Quadrature.Pole
import DiscreteOrdinates.Proofs.Quadrature.IntervalSets
import DiscreteOrdinates.Proofs.Quadrature.ProductSets
import DiscreteOrdinates.Proofs.Quadrature.GaussSets
import DiscreteOrdinates.Proofs.Sweep.UpperHalf
import DiscreteOrdinates.Proofs.Quadrature.Angles
import DiscreteOrdinates.Proofs.Quadrature.ReflectedMoments
import DiscreteOrdinates.Proofs.Quadrature.Columns
import DiscreteOrdinates.Proofs.Moments.FixedMap
import DiscreteOrdinates.Proofs.Harmonics.LegendrePolynomials
import DiscreteOrdinates.Proofs.Moments.DistinctCosines
import DiscreteOrdinates.Proofs.Moments.StandardMoments
import DiscreteOrdinates.Proofs.Matrix.PseudoInverse
import DiscreteOrdinates.Proofs.Quadrature.Reordering
import DiscreteOrdinates.Proofs.Moments.Renumbering
import DiscreteOrdinates.Proofs.Moments.Reordering
import DiscreteOrdinates.Proofs.Quadrature.Scaling
import DiscreteOrdinates.Proofs.Angular.Scaling
import DiscreteOrdinates.Proofs.Sweep.Collapse
import DiscreteOrdinates.Proofs.Angular.Reordering
import DiscreteOrdinates.Proofs.Moments.Scaling
import DiscreteOrdinates.Proofs.Decimal.Scales
import DiscreteOrdinates.Proofs.Decimal.Rounding
import DiscreteOrdinates.Proofs.Decimal.Shortest
import DiscreteOrdinates.Proofs.Decimal.Recognition
import DiscreteOrdinates.Proofs.Decimal.ReadBack
import DiscreteOrdinates.Proofs.Text.Lines
import DiscreteOrdinates.Proofs.Configuration.Grammar
import DiscreteOrdinates.Proofs.Configuration.Acceptance
import DiscreteOrdinates.Proofs.Configuration.Keywords
import DiscreteOrdinates.Proofs.Configuration.RoundTrip
import DiscreteOrdinates.Proofs.Matrix.Filling
import DiscreteOrdinates.Proofs.Moments.Entries
import DiscreteOrdinates.Proofs.Moments.IsotropicFlux
import DiscreteOrdinates.Proofs.Harmonics.Parity
import DiscreteOrdinates.Proofs.Moments.Refusals
import DiscreteOrdinates.Proofs.ExactNegation
import DiscreteOrdinates.Proofs.UnitLaws
import DiscreteOrdinates.Proofs.Harmonics.Rodrigues
import DiscreteOrdinates.Proofs.Harmonics.AssociatedDerivatives
import DiscreteOrdinates.Proofs.Harmonics.ShellNormalisation
import DiscreteOrdinates.Proofs.Harmonics.Orthogonality
import DiscreteOrdinates.Proofs.Harmonics.RealRoots
import DiscreteOrdinates.Proofs.Harmonics.Neighbours
import DiscreteOrdinates.Proofs.Quadrature.RootRules
import DiscreteOrdinates.Proofs.Quadrature.Exactness
import DiscreteOrdinates.Proofs.Quadrature.InPlaceRules
import DiscreteOrdinates.Proofs.Quadrature.SecondOrderRule
import DiscreteOrdinates.Proofs.Quadrature.IntervalSymmetry
import DiscreteOrdinates.Proofs.Quadrature.Rows
import DiscreteOrdinates.Proofs.Quadrature.AcceptedTables
import DiscreteOrdinates.Proofs.Text.LetterCase
import DiscreteOrdinates.Proofs.Configuration.LetterCase
import DiscreteOrdinates.Proofs.Configuration.Edits
import DiscreteOrdinates.Proofs.Matrix.Algebra
import DiscreteOrdinates.Proofs.Matrix.Buffer
import DiscreteOrdinates.Proofs.Matrix.Layout
import DiscreteOrdinates.Proofs.Sweep.StoredOrder
import DiscreteOrdinates.Proofs.Quadrature.NewtonSteps
