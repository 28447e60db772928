import Runbook.Plan.Builder
import Runbook.Plan.Transport
import Runbook.Queue
import Runbook.Worker
import Runbook.Main
import Runbook.Proofs.Calls
import Runbook.Proofs.Chains
import Runbook.Proofs.Company
import Runbook.Proofs.Continuation
import Runbook.Proofs.Ledger
import Runbook.Proofs.SideBySide
import Runbook.Proofs.Conduct
import Runbook.Proofs.Entries
import Runbook.Proofs.Growth
import Runbook.Proofs.Saves
import Runbook.Proofs.Progress
import Runbook.Proofs.JobRecords
import Runbook.Proofs.Triggers
import Runbook.Proofs.Attempts
import Runbook.Proofs.SingleTrigger
import Runbook.Proofs.Outputs
import Runbook.Proofs.Starts
import Runbook.Proofs.SingleStart
import Runbook.Proofs.Failures
import Runbook.Proofs.Stopping
import Runbook.Proofs.Lenience
import Runbook.Proofs.Stamps
import Runbook.Proofs.Documents
import Runbook.Proofs.JobHistory
import Runbook.Proofs.PlainRecords
import Runbook.Proofs.Backends
import Runbook.Proofs.DistinctIds
import Runbook.Proofs.Lineage
import Runbook.Proofs.ExactOutputs
import Runbook.Proofs.RootOutputs
import Runbook.Proofs.StepOutputs
import Runbook.Proofs.Regardless
import Runbook.Proofs.RecordedEnds
import Runbook.Proofs.FinishedRuns
import Runbook.Proofs.Deliveries
import Runbook.Proofs.Overlaps
import Runbook.Proofs.QueueRecords
import Runbook.Proofs.Turns
import Runbook.Proofs.Pipelines
import Runbook.Proofs.Settling
import Runbook.Proofs.Readiness
import Runbook.Proofs.Redeliveries
import Runbook.Proofs.Formed
import Runbook.Proofs.Arrivals
import Runbook.Proofs.Fidelity
import Runbook.Proofs.Patience
import Runbook.Proofs.LostPredicates
import Runbook.Proofs.RunHistory
import Runbook.Proofs.Amendments
import Runbook.Proofs.Simultaneous
import Runbook.Proofs.QueueHistory
import Runbook.Proofs.Refusals
import Runbook.Proofs.LastWrites
import Runbook.Proofs.ExecutionIds
import Runbook.Proofs.StampOrder
import Runbook.Proofs.Listings
import Runbook.Proofs.JobListings
import Runbook.Proofs.QueueListings
import Runbook.Proofs.QueueVerdicts
import Runbook.Proofs.StepNames
import Runbook.Proofs.Requests
import Runbook.Proofs.DefaultInputs
import Runbook.Proofs.Retries
import Runbook.Proofs.Mirrors
import Runbook.Proofs.Reaching
import Runbook.Proofs.Magnitudes
import Runbook.Proofs.Polls
import Runbook.Proofs.ChildFates
import Runbook.Proofs.Sleeps
import Runbook.Proofs.WakeTimes
import Runbook.Proofs.Awakenings
import Runbook.Proofs.DurationTexts
import Runbook.Proofs.RepeatedIds
import Runbook.Proofs.Extraction
import Runbook.Proofs.Snapshots
import Runbook.Proofs.Addresses
