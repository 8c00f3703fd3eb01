import LimbMachine.Artifact
import LimbMachine.Machine
import LimbMachine.Proofs.Exec.Storage
import LimbMachine.Proofs.Check.Rules
import LimbMachine.Proofs.Arith.Balance
import LimbMachine.Proofs.Exec.Effect
import LimbMachine.Proofs.Check.Accepted
import LimbMachine.Proofs.Exec.Safety
import LimbMachine.Proofs.Split.Layout
import LimbMachine.Proofs.Split.Represents
import LimbMachine.Proofs.Split.Equations
import LimbMachine.Proofs.Split.Polynomials
import LimbMachine.Proofs.Split.Stages
import LimbMachine.Proofs.Split.Borrows
import LimbMachine.Proofs.Exec.Counter
import LimbMachine.Proofs.Split.Fragments
import LimbMachine.Proofs.Split.GuardedCopy
import LimbMachine.Proofs.Split.Comparison
import LimbMachine.Proofs.Split.Renaming
import LimbMachine.Proofs.Split.Expansion
import LimbMachine.Proofs.Split.Lines
import LimbMachine.Proofs.Exec.Arrivals
import LimbMachine.Proofs.Split.Linking
import LimbMachine.Proofs.Split.Routine
import LimbMachine.Proofs.Split.Lockstep
import LimbMachine.Proofs.Split.Interface
import LimbMachine.Proofs.Split.Equivalence
import LimbMachine.Proofs.Split.Widths
import LimbMachine.Proofs.Split.Machine
import LimbMachine.Proofs.Artifact.Readers
import LimbMachine.Proofs.Artifact.RoundTrip
import LimbMachine.Proofs.Exec.Boundaries
import LimbMachine.Proofs.Machine.Requests
import LimbMachine.Proofs.Machine.Safety
import LimbMachine.Proofs.Machine.Transparency
import LimbMachine.Proofs.Check.Ways
import LimbMachine.Proofs.Failure
import LimbMachine.Proofs.Check.Bandwidth
import LimbMachine.Proofs.Split.Emission
import LimbMachine.Proofs.Split.Lowered
import LimbMachine.Proofs.Split.Unfolding
import LimbMachine.Proofs.Split.Linked
import LimbMachine.Proofs.Split.Tiling
import LimbMachine.Proofs.Split.Refusals
import LimbMachine.Proofs.Split.Acceptance
import LimbMachine.Proofs.Exec.Footprint
import LimbMachine.Proofs.Split.Allocation
import LimbMachine.Proofs.Split.Carries
import LimbMachine.Proofs.Split.Straight
import LimbMachine.Proofs.Split.Capacity
import LimbMachine.Proofs.Split.Candor
import LimbMachine.Proofs.Split.Vouched
import LimbMachine.Proofs.Split.Faithful
import LimbMachine.Proofs.Split.Retargeting
import LimbMachine.Proofs.Check.Paths
import LimbMachine.Proofs.Exec.Trails
import LimbMachine.Proofs.Check.Accounting
import LimbMachine.Proofs.Artifact.Accepted
import LimbMachine.Proofs.Artifact.Intact
import LimbMachine.Proofs.Artifact.Restored
import LimbMachine.Proofs.Split.Narrow
import LimbMachine.Proofs.Exec.Limits
import LimbMachine.Proofs.Exec.Traces
import LimbMachine.Proofs.Machine.Nesting
import LimbMachine.Proofs.Check.Overruns
import LimbMachine.Proofs.Check.Wrapping
import LimbMachine.Proofs.Machine.Overruns
import LimbMachine.Proofs.Exec.Residue
import LimbMachine.Proofs.Exec.Agreement
