import Blackboard.Spec.Jobs
import Blackboard.Lib.Runs

/-! The queue as a machine: any caller applies any operation with any job handle, and the
trace records what each call answered. -/

namespace Blackboard

inductive QueueOp
  | enqueue (now : Time) (e : Enqueue)
  | claim (now : Time) (owner : String) (leaseTtlS : Time) (maxPriority : ℕ)
      (kinds : Option (List Kind)) (locked : ℕ → Bool)
  | heartbeat (now : Time) (job : Job) (leaseTtlS : Time)
  | assertFence (job : Job)
  | complete (now : Time) (job : Job)
  | fail (now : Time) (job : Job) (error : String) (retryable : Bool)
      (backoffBaseS backoffMaxS jitter : Time)
  | release (now : Time) (job : Job)
  | reap (now : Time) (locked : ℕ → Bool)

inductive Answer
  | enqueued (id : Option ℕ)
  | claimed (job : Option Job)
  | alive (b : Bool)
  | accepted
  | failed (status : Status)
  | reaped (jobs : List (ℕ × Status))
  | raised (e : Err)

def answer (jobs : JobTable) : Except Err (JobTable × Answer) → JobTable × Answer
  | .ok x => x
  | .error e => (jobs, .raised e)

def QueueOp.apply (jobs : JobTable) : QueueOp → JobTable × Answer
  | .enqueue now e => answer jobs ((Jobs.enqueue now e jobs).map fun x => (x.1, .enqueued x.2))
  | .claim now owner ttl mp kinds locked =>
    let x := Jobs.claim now owner ttl mp kinds locked jobs
    (x.1, .claimed x.2)
  | .heartbeat now job ttl =>
    let x := Jobs.heartbeat now job ttl jobs
    (x.1, .alive x.2)
  | .assertFence job => answer jobs ((Jobs.assertFence job jobs).map fun _ => (jobs, .accepted))
  | .complete now job => answer jobs ((Jobs.complete now job jobs).map fun x => (x, .accepted))
  | .fail now job error retryable base max jitter =>
    answer jobs ((Jobs.fail now job error retryable base max jitter jobs).map
      fun x => (x.1, .failed x.2))
  | .release now job => answer jobs ((Jobs.release now job jobs).map fun x => (x, .accepted))
  | .reap now locked =>
    let x := Jobs.reap now locked jobs
    (x.1, .reaped x.2)

/-- The handle of an operation that only the holder of the job may do. -/
def QueueOp.handle? : QueueOp → Option Job
  | .heartbeat _ job _ => some job
  | .assertFence job => some job
  | .complete _ job => some job
  | .fail _ job _ _ _ _ _ => some job
  | .release _ job => some job
  | _ => none

/-- Whether a holder's operation was carried out. -/
def Answer.granted : Answer → Bool
  | .alive b => b
  | .accepted => true
  | .failed _ => true
  | _ => false

structure Queue where
  jobs : JobTable
  trace : List (QueueOp × Answer)

namespace Queue

def init : Queue := ⟨.empty, []⟩

def step (q : Queue) (op : QueueOp) : Option Queue :=
  let x := op.apply q.jobs
  some ⟨x.1, q.trace ++ [(op, x.2)]⟩

/-- `max_attempts` is at least 1 for every job enqueued. -/
def Valid (_ : Queue) : QueueOp → Prop
  | .enqueue _ e => 1 ≤ e.maxAttempts
  | _ => True

/-- One aging step is used by all enqueuers. -/
def SameStep (agingStepS : Time) (_ : Queue) : QueueOp → Prop
  | .enqueue _ e => e.agingStepS = agingStepS
  | _ => True

end Queue

def isClaim (id : ℕ) : QueueOp × Answer → Bool
  | (_, .claimed (some job)) => job.id = id
  | _ => false

def isRelease (id : ℕ) : QueueOp × Answer → Bool
  | (.release _ job, .accepted) => job.id = id
  | _ => false

def isCompletion (id : ℕ) : QueueOp × Answer → Bool
  | (.complete _ job, .accepted) => job.id = id
  | _ => false

end Blackboard
