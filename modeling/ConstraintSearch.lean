import ConstraintSearch.Main
import ConstraintSearch.Proofs.Satisfaction
import ConstraintSearch.Proofs.Confluence
import ConstraintSearch.Proofs.Fixpoint
import ConstraintSearch.Proofs.Equation
import ConstraintSearch.Proofs.Contract
import ConstraintSearch.Proofs.Schedule.Agenda
import ConstraintSearch.Proofs.Branching.Brancher
import ConstraintSearch.Proofs.Branching.Order
import ConstraintSearch.Proofs.Domain.SetHull
import ConstraintSearch.Proofs.Search.Node
import ConstraintSearch.Proofs.Search.Path
import ConstraintSearch.Proofs.Search.Complete
import ConstraintSearch.Proofs.Search.Engine
import ConstraintSearch.Proofs.Search.Orbits
import ConstraintSearch.Proofs.Search.Learning
import ConstraintSearch.Proofs.Search.Progress
import ConstraintSearch.Proofs.Search.Resuming
import ConstraintSearch.Proofs.Search.Discrepancy
import ConstraintSearch.Proofs.Search.Polling
import ConstraintSearch.Proofs.Search.Tracing
import ConstraintSearch.Proofs.Search.Resetting
import ConstraintSearch.Proofs.Search.Interleaving
import ConstraintSearch.Proofs.Search.Partition
import ConstraintSearch.Proofs.Search.Sharing
import ConstraintSearch.Proofs.Search.Custody
import ConstraintSearch.Proofs.Search.Reporting
import ConstraintSearch.Proofs.Atomicity
import ConstraintSearch.Proofs.Waking
import ConstraintSearch.Proofs.Wiring
import ConstraintSearch.Proofs.Objective
import ConstraintSearch.Proofs.Overflow.Binary
import ConstraintSearch.Proofs.Overflow.Linear
import ConstraintSearch.Proofs.Sequence
