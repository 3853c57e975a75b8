import CompressedSensing.Decimal.Binary
import CompressedSensing.Decimal.Layout
import CompressedSensing.Decimal.Rounded
import CompressedSensing.Decimal.Shortest
import CompressedSensing.Ensemble.Basis
import CompressedSensing.Ensemble.Random
import CompressedSensing.Error
import CompressedSensing.LeastSquares.Backend
import CompressedSensing.LeastSquares.MinimumNorm
import CompressedSensing.LeastSquares.NormalEquations
import CompressedSensing.Matrix.Basic
import CompressedSensing.Matrix.Cholesky
import CompressedSensing.Matrix.Elimination
import CompressedSensing.Matrix.Property
import CompressedSensing.Matrix.QR
import CompressedSensing.Matrix.SVD
import CompressedSensing.Operator.Algebra
import CompressedSensing.Operator.Basic
import CompressedSensing.Operator.Diagnostics
import CompressedSensing.Operator.Elementary
import CompressedSensing.Operator.Transform.Convolution
import CompressedSensing.Operator.Transform.Cosine
import CompressedSensing.Operator.Transform.Fourier
import CompressedSensing.Operator.Transform.WalshHadamard
import CompressedSensing.Proofs.LeastSquares.Acceptance
import CompressedSensing.Proofs.LeastSquares.Homogeneous
import CompressedSensing.Proofs.LeastSquares.Minimizer
import CompressedSensing.Proofs.LeastSquares.Orthogonality
import CompressedSensing.Proofs.LeastSquares.RestrictedFit
import CompressedSensing.Proofs.LeastSquares.Shortest
import CompressedSensing.Proofs.LeastSquares.SingularValues
import CompressedSensing.Proofs.Operator.AdjointCheck
import CompressedSensing.Proofs.Operator.AdjointLaw
import CompressedSensing.Proofs.Operator.Adjunction
import CompressedSensing.Proofs.Operator.Agreement
import CompressedSensing.Proofs.Operator.ButterflySum
import CompressedSensing.Proofs.Operator.Constructed
import CompressedSensing.Proofs.Operator.ConvolutionAlgebra
import CompressedSensing.Proofs.Operator.CosineOrthogonality
import CompressedSensing.Proofs.Operator.HadamardInvolution
import CompressedSensing.Proofs.Operator.InPlaceButterfly
import CompressedSensing.Proofs.Operator.Linearity
import CompressedSensing.Proofs.Operator.MatrixForm
import CompressedSensing.Proofs.Operator.NormEstimate
import CompressedSensing.Proofs.Operator.Overwriting
import CompressedSensing.Proofs.Operator.Sylvester
import CompressedSensing.Proofs.Operator.Total
import CompressedSensing.Proofs.Operator.TransformMatrix
import CompressedSensing.Proofs.Operator.Unitary
import CompressedSensing.Proofs.Recovery.BestEstimate
import CompressedSensing.Proofs.Recovery.Cycling
import CompressedSensing.Proofs.Recovery.Descent
import CompressedSensing.Proofs.Recovery.Entry
import CompressedSensing.Proofs.Recovery.Equivariance
import CompressedSensing.Proofs.Recovery.ExactRecovery
import CompressedSensing.Proofs.Recovery.Failures
import CompressedSensing.Proofs.Recovery.FirstRound
import CompressedSensing.Proofs.Recovery.FixedPoint
import CompressedSensing.Proofs.Recovery.Isometry
import CompressedSensing.Proofs.Recovery.Linear
import CompressedSensing.Proofs.Recovery.Lockstep
import CompressedSensing.Proofs.Recovery.Monotone
import CompressedSensing.Proofs.Recovery.Multiples
import CompressedSensing.Proofs.Recovery.NormalizedDescent
import CompressedSensing.Proofs.Recovery.Optimality
import CompressedSensing.Proofs.Recovery.Orthonormal
import CompressedSensing.Proofs.Recovery.Pairs
import CompressedSensing.Proofs.Recovery.Prefix
import CompressedSensing.Proofs.Recovery.Progress
import CompressedSensing.Proofs.Recovery.Pruning
import CompressedSensing.Proofs.Recovery.Representation
import CompressedSensing.Proofs.Recovery.Requests
import CompressedSensing.Proofs.Recovery.Rescaling
import CompressedSensing.Proofs.Recovery.Rounds
import CompressedSensing.Proofs.Recovery.ScaleInvariance
import CompressedSensing.Proofs.Recovery.Solving
import CompressedSensing.Proofs.Recovery.Stopping
import CompressedSensing.Proofs.Recovery.Success
import CompressedSensing.Proofs.Recovery.Supports
import CompressedSensing.Proofs.Recovery.Thresholding
import CompressedSensing.Proofs.Recovery.Trajectory
import CompressedSensing.Proofs.Scalar.Differences
import CompressedSensing.Proofs.Scalar.Euclidean
import CompressedSensing.Proofs.Scalar.Exact
import CompressedSensing.Proofs.Scalar.Extended
import CompressedSensing.Proofs.Scalar.Normed
import CompressedSensing.Proofs.Scalar.Ordered
import CompressedSensing.Proofs.Scalar.Rationals
import CompressedSensing.Proofs.Scalar.Reals
import CompressedSensing.Proofs.Signal.BestApproximation
import CompressedSensing.Proofs.Signal.Coordinates
import CompressedSensing.Proofs.Signal.Energy
import CompressedSensing.Proofs.Signal.LineSearch
import CompressedSensing.Proofs.Signal.RepeatedThresholding
import CompressedSensing.Proofs.Signal.Restriction
import CompressedSensing.Proofs.Signal.Scaling
import CompressedSensing.Proofs.Signal.Scatter
import CompressedSensing.Proofs.Signal.Supported
import CompressedSensing.Proofs.Support.LargestEntries
import CompressedSensing.Proofs.Support.Merge
import CompressedSensing.Proofs.Support.Ranking
import CompressedSensing.Proofs.Support.Restricted
import CompressedSensing.Proofs.Support.Selection
import CompressedSensing.Proofs.Support.Union
import CompressedSensing.Proofs.Support.Validation
import CompressedSensing.Random.ChaCha
import CompressedSensing.Random.Sample
import CompressedSensing.Random.Source
import CompressedSensing.Random.Ziggurat
import CompressedSensing.Recovery.Algorithm
import CompressedSensing.Recovery.Context
import CompressedSensing.Recovery.GradientStep
import CompressedSensing.Recovery.Options
import CompressedSensing.Recovery.Round
import CompressedSensing.Recovery.Run
import CompressedSensing.Recovery.Stopping
import CompressedSensing.Recovery.Workbench
import CompressedSensing.Scalar.Basic
import CompressedSensing.Scalar.ComplexOver
import CompressedSensing.Scalar.Machine
import CompressedSensing.Signal.Basic
import CompressedSensing.Support.Merge
import CompressedSensing.Support.Restricted
import CompressedSensing.Support.Selection
import CompressedSensing.Support.Validation
import CompressedSensing.Text.Blank
