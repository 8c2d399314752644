import Workflow.Context.Family
import Workflow.Main
import Workflow.Proofs.Action.Parallel
import Workflow.Proofs.Engine.Finality
import Workflow.Proofs.Graph.Paths
import Workflow.Proofs.Lint.Traps
import Workflow.Retry.Script
import Workflow.Sample
import Workflow.Proofs.Fault.Causes
import Workflow.Proofs.Retry.Attempts
import Workflow.Proofs.Work.Cancel
import Workflow.Proofs.Action.Retry
import Workflow.Proofs.Engine.Cancellation
import Workflow.Proofs.Engine.Limits
import Workflow.Proofs.Engine.Resumption
import Workflow.Proofs.Action.DataOnly
import Workflow.Proofs.Lint.Unreachable
import Workflow.Proofs.Engine.Timing
import Workflow.Proofs.Engine.Causes
import Workflow.Proofs.Lint.Structure
import Workflow.Proofs.Lint.Hidden
import Workflow.Proofs.Engine.Reordered
import Workflow.Proofs.Engine.TimeLimits
import Workflow.Proofs.Condition.RoundTrip
import Workflow.Proofs.Engine.Notices
import Workflow.Proofs.Action.Records
import Workflow.Proofs.Engine.Resolution
import Workflow.Proofs.Lint.Wiring
import Workflow.Proofs.Action.Validated
import Workflow.Proofs.Action.Progressive
import Workflow.Proofs.Action.RetryRecords
import Workflow.Proofs.Spec.RoundTrip
import Workflow.Proofs.Environment.Expansion
import Workflow.Proofs.Action.RetryTimes
import Workflow.Proofs.Condition.Integers
import Workflow.Proofs.Retry.RoundTrip
import Workflow.Proofs.Lint.DeadEnds
import Workflow.Proofs.Lint.Naming
import Workflow.Proofs.Engine.Preference
import Workflow.Proofs.Lint.Distance
