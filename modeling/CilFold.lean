import CilFold.Pass.Apply
import CilFold.Routine.Sketch
import CilFold.Proofs.WellFormed
import CilFold.Proofs.CaptureEffect
import CilFold.Proofs.NormalForm
import CilFold.Proofs.AliasTrace
import CilFold.Proofs.AliasNormal
import CilFold.Proofs.CaptureNormal
import CilFold.Proofs.Placement
import CilFold.Proofs.Accounting
import CilFold.Proofs.EffectOrder
import CilFold.Proofs.Sharing
import CilFold.Proofs.CaptureCalls
import CilFold.Proofs.CaptureRun
import CilFold.Proofs.Declaring
import CilFold.Proofs.Splicing
import CilFold.Proofs.SelfStoreFilter
import CilFold.Proofs.AliasSubstitution
import CilFold.Proofs.Comparison
import CilFold.Proofs.Copying
import CilFold.Proofs.Exhaustion
import CilFold.Proofs.Restoring
import CilFold.Proofs.Rewinding
import CilFold.Proofs.Marking
