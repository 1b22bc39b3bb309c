import SharedOwnership.Session
import SharedOwnership.Proofs.Run
import SharedOwnership.Proofs.Counting
import SharedOwnership.Proofs.Termination
import SharedOwnership.Proofs.Unwinding
import SharedOwnership.Proofs.Validity
import SharedOwnership.Proofs.Teardown.History
import SharedOwnership.Proofs.Teardown
import SharedOwnership.Proofs.Interleaving
import SharedOwnership.Proofs.Interleaving.Safety
import SharedOwnership.Proofs.Interleaving.Alone
import SharedOwnership.Proofs.Interleaving.Promotion
import SharedOwnership.Proofs.Expiry
import SharedOwnership.Proofs.Ownership.Cycles
import SharedOwnership.Proofs.Ownership.Fixpoint
import SharedOwnership.Proofs.Erasure
import SharedOwnership.Proofs.FailedAllocation
import SharedOwnership.Proofs.Observers
import SharedOwnership.Proofs.Outliving
import SharedOwnership.Proofs.Effect
import SharedOwnership.Proofs.Provenance
import SharedOwnership.Proofs.Routes
import SharedOwnership.Proofs.Overflow
import SharedOwnership.Proofs.Exchange
import SharedOwnership.Proofs.Projecting
import SharedOwnership.Proofs.Frame
