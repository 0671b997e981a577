import ThreeAddress.Main
import ThreeAddress.Proofs.CodeSize.Reoptimize
import ThreeAddress.Proofs.CommonSubexpr.Dominance
import ThreeAddress.Proofs.CommonSubexpr.StraightLine
import ThreeAddress.Proofs.Constants.Clean
import ThreeAddress.Proofs.Constants.Tracking
import ThreeAddress.Proofs.CopyChains
import ThreeAddress.Proofs.DominatorChain
import ThreeAddress.Proofs.Failures
import ThreeAddress.Proofs.FormCheck
import ThreeAddress.Proofs.Format.Programs
import ThreeAddress.Proofs.MemoryReads
import ThreeAddress.Proofs.Recorded
import ThreeAddress.Proofs.Respelling.Orders
import ThreeAddress.Proofs.RoundTrip
import ThreeAddress.Proofs.Ssa.Established
import ThreeAddress.Proofs.Ssa.Lockstep
import ThreeAddress.Proofs.StepLimit
import ThreeAddress.Proofs.Stretches
import ThreeAddress.Proofs.Views
