import DensityAlgebra.Amplitude
import DensityAlgebra.Assignment
import DensityAlgebra.ComplexNumber
import DensityAlgebra.Composite
import DensityAlgebra.Copy
import DensityAlgebra.Datum
import DensityAlgebra.Datum.Arithmetic
import DensityAlgebra.Datum.Conversion
import DensityAlgebra.Decay
import DensityAlgebra.Decay.Build
import DensityAlgebra.Decay.Sampling
import DensityAlgebra.Density
import DensityAlgebra.Description
import DensityAlgebra.Expression
import DensityAlgebra.Fault
import DensityAlgebra.Fault.Message
import DensityAlgebra.Fit
import DensityAlgebra.Fit.Descent
import DensityAlgebra.Fit.Hessian
import DensityAlgebra.Fit.Likelihood
import DensityAlgebra.Fit.Result
import DensityAlgebra.Fit.Search
import DensityAlgebra.Fit.SymmetricMatrix
import DensityAlgebra.Formula
import DensityAlgebra.Given
import DensityAlgebra.Grid
import DensityAlgebra.Histogram
import DensityAlgebra.Model
import DensityAlgebra.Notice
import DensityAlgebra.Object
import DensityAlgebra.Operation
import DensityAlgebra.Operators
import DensityAlgebra.PhaseSpace
import DensityAlgebra.Plot
import DensityAlgebra.Program
import DensityAlgebra.Program.Infix
import DensityAlgebra.Program.Tree
import DensityAlgebra.Proofs.Accepting
import DensityAlgebra.Proofs.Aliasing
import DensityAlgebra.Proofs.Arithmetic
import DensityAlgebra.Proofs.Assigning
import DensityAlgebra.Proofs.Batches
import DensityAlgebra.Proofs.Building
import DensityAlgebra.Proofs.Coherence
import DensityAlgebra.Proofs.Commuting
import DensityAlgebra.Proofs.Comparing
import DensityAlgebra.Proofs.Compiling
import DensityAlgebra.Proofs.Composing
import DensityAlgebra.Proofs.Constructing
import DensityAlgebra.Proofs.Copies
import DensityAlgebra.Proofs.Copying
import DensityAlgebra.Proofs.Covering
import DensityAlgebra.Proofs.Cubics
import DensityAlgebra.Proofs.Decoding
import DensityAlgebra.Proofs.Digits
import DensityAlgebra.Proofs.Dispatch
import DensityAlgebra.Proofs.Displacing
import DensityAlgebra.Proofs.Doubles
import DensityAlgebra.Proofs.Drawing
import DensityAlgebra.Proofs.Failing
import DensityAlgebra.Proofs.Faults
import DensityAlgebra.Proofs.Fitting
import DensityAlgebra.Proofs.Footprints
import DensityAlgebra.Proofs.Frames
import DensityAlgebra.Proofs.Gathering
import DensityAlgebra.Proofs.Inheriting
import DensityAlgebra.Proofs.Isolation
import DensityAlgebra.Proofs.Joining
import DensityAlgebra.Proofs.Likelihoods
import DensityAlgebra.Proofs.Linking
import DensityAlgebra.Proofs.Lockstep
import DensityAlgebra.Proofs.Machines
import DensityAlgebra.Proofs.Makings
import DensityAlgebra.Proofs.Marginals
import DensityAlgebra.Proofs.Masses
import DensityAlgebra.Proofs.Multiplying
import DensityAlgebra.Proofs.Nodes
import DensityAlgebra.Proofs.Normalizing
import DensityAlgebra.Proofs.Orders
import DensityAlgebra.Proofs.Outlines
import DensityAlgebra.Proofs.Packing
import DensityAlgebra.Proofs.Parsing
import DensityAlgebra.Proofs.Permuting
import DensityAlgebra.Proofs.Points
import DensityAlgebra.Proofs.Pointwise
import DensityAlgebra.Proofs.Probing
import DensityAlgebra.Proofs.Rational
import DensityAlgebra.Proofs.Reading
import DensityAlgebra.Proofs.Reals
import DensityAlgebra.Proofs.Refusals
import DensityAlgebra.Proofs.Regions
import DensityAlgebra.Proofs.Registries
import DensityAlgebra.Proofs.Rendering
import DensityAlgebra.Proofs.Renewing
import DensityAlgebra.Proofs.Restoring
import DensityAlgebra.Proofs.Roles
import DensityAlgebra.Proofs.Rounding
import DensityAlgebra.Proofs.Runs
import DensityAlgebra.Proofs.Scaling
import DensityAlgebra.Proofs.Sessions
import DensityAlgebra.Proofs.Setting
import DensityAlgebra.Proofs.Sharing
import DensityAlgebra.Proofs.Spawning
import DensityAlgebra.Proofs.Stopping
import DensityAlgebra.Proofs.Sums
import DensityAlgebra.Proofs.Supports
import DensityAlgebra.Proofs.Texts
import DensityAlgebra.Proofs.Traversals
import DensityAlgebra.Proofs.Validity
import DensityAlgebra.Proofs.Views
import DensityAlgebra.Proofs.Weighting
import DensityAlgebra.Proofs.Wholeness
import DensityAlgebra.Proofs.Wiring
import DensityAlgebra.Registry
import DensityAlgebra.Scalar
import DensityAlgebra.Scalar.Binary64
import DensityAlgebra.Scalar.Double
import DensityAlgebra.Scalar.Sum
import DensityAlgebra.Signature
import DensityAlgebra.Source
import DensityAlgebra.Store
import DensityAlgebra.Text.Aligned
import DensityAlgebra.Text.Decimal
import DensityAlgebra.Text.Hidden
import DensityAlgebra.Text.Numeral
import DensityAlgebra.Text.Quoted
import DensityAlgebra.Text.Shortest
import DensityAlgebra.Uncertainty
import DensityAlgebra.Value
import DensityAlgebra.Weight
