import DualTrace.Proofs.AliasChain
import DualTrace.Proofs.Comparison
import DualTrace.Proofs.Containment
import DualTrace.Proofs.Convergence
import DualTrace.Proofs.Counters
import DualTrace.Proofs.Dependence
import DualTrace.Proofs.Derivative
import DualTrace.Proofs.Elimination
import DualTrace.Proofs.Erasure
import DualTrace.Proofs.Fault
import DualTrace.Proofs.Folding
import DualTrace.Proofs.Formal
import DualTrace.Proofs.Invariant
import DualTrace.Proofs.Legibility
import DualTrace.Proofs.LivePart
import DualTrace.Proofs.Matching
import DualTrace.Proofs.Outcomes
import DualTrace.Proofs.Preservation
import DualTrace.Proofs.Progress
import DualTrace.Proofs.Recording
import DualTrace.Proofs.Refusal
import DualTrace.Proofs.Renaming
import DualTrace.Proofs.Restaging
import DualTrace.Proofs.Rewriting
import DualTrace.Proofs.Serial
import DualTrace.Proofs.StagedSize
import DualTrace.Proofs.Staging
import DualTrace.Proofs.StraightLine
import DualTrace.Proofs.Substitution
import DualTrace.Proofs.Tower
import DualTrace.Request
