import Blackboard.Proofs.Activity
import Blackboard.Proofs.Aging
import Blackboard.Proofs.Bound
import Blackboard.Proofs.Calls
import Blackboard.Proofs.Cassette
import Blackboard.Proofs.Deadlock
import Blackboard.Proofs.Decisions
import Blackboard.Proofs.Differences
import Blackboard.Proofs.Evidence
import Blackboard.Proofs.Executions
import Blackboard.Proofs.Executor
import Blackboard.Proofs.Feed
import Blackboard.Proofs.Fences
import Blackboard.Proofs.Gate
import Blackboard.Proofs.Grounded
import Blackboard.Proofs.Handlers
import Blackboard.Proofs.Ingest
import Blackboard.Proofs.Ledger
import Blackboard.Proofs.LiveSource
import Blackboard.Proofs.Loki
import Blackboard.Proofs.Messages
import Blackboard.Proofs.Past
import Blackboard.Proofs.Patch
import Blackboard.Proofs.PlanSchema
import Blackboard.Proofs.Policy
import Blackboard.Proofs.ReadBack
import Blackboard.Proofs.Render
import Blackboard.Proofs.Retrieval
import Blackboard.Proofs.Rollout
import Blackboard.Proofs.Search
import Blackboard.Proofs.Slots
import Blackboard.Proofs.Stores
import Blackboard.Proofs.Traces
import Blackboard.Proofs.Trail
import Blackboard.Proofs.Undo
import Blackboard.Proofs.Verification
import Blackboard.Proofs.View
import Blackboard.Proofs.Window
import Blackboard.Proofs.Wire
