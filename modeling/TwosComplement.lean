import TwosComplement.Conversion
import TwosComplement.DoubleWidth.Arithmetic
import TwosComplement.Fixed.Chain
import TwosComplement.Fixed.CheckedChain
import TwosComplement.Fixed.Operations
import TwosComplement.Fixed.Wide
import TwosComplement.Reciprocal
import TwosComplement.Unbounded.MixedProgram
import TwosComplement.Unbounded.Program
import TwosComplement.WordStream.Lemmas
import TwosComplement.WordView
import TwosComplement.Proofs.FixedRange
import TwosComplement.Proofs.ReciprocalBounds
import TwosComplement.Proofs.ReciprocalDivision
import TwosComplement.Proofs.LimbRuns
import TwosComplement.Proofs.TwoLimbDivision
import TwosComplement.Proofs.LimbDivision
import TwosComplement.Proofs.StreamArithmetic
import TwosComplement.Proofs.UnboundedValue
import TwosComplement.Proofs.UnsignedReadings
import TwosComplement.Proofs.FixedConversion
import TwosComplement.Proofs.SignedDivision
import TwosComplement.Proofs.UnboundedRefinement
import TwosComplement.Proofs.StreamBits
import TwosComplement.Proofs.CanonicalForm
import TwosComplement.Proofs.OneWordDivision
import TwosComplement.Proofs.ExactConversion
import TwosComplement.Proofs.LimbShift
import TwosComplement.Proofs.StreamShift
import TwosComplement.Proofs.Masking
import TwosComplement.Proofs.DeferredChecks
import TwosComplement.Proofs.LowBits
import TwosComplement.Proofs.WordViews
import TwosComplement.Proofs.MaskingConversion
import TwosComplement.Proofs.ClampingConversion
import TwosComplement.Proofs.WordConversions
import TwosComplement.Proofs.TrialLimb
import TwosComplement.Proofs.LongDivision
import TwosComplement.Proofs.QuotientLimb
import TwosComplement.Proofs.UnboundedExactness
import TwosComplement.Proofs.UnboundedBits
import TwosComplement.Proofs.UnboundedOrder
import TwosComplement.Proofs.UnsignedDivision
import TwosComplement.Proofs.DoubleWidth
import TwosComplement.Proofs.CountSteps
import TwosComplement.Proofs.WideDivision
import TwosComplement.Proofs.BitCounts
