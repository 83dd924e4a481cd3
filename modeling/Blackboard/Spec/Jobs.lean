import Blackboard.Spec.Base

/-! The job queue. Each function is one statement against the jobs table, which is atomic:
an UPDATE holds its row lock to commit. `now` is the start of the caller's transaction. -/

namespace Blackboard

inductive Status
  | queued | running | done | dead
deriving DecidableEq, Repr

/-- A row of `jobs`. -/
structure JobRow where
  tenantId : String
  incidentId : Option ℕ
  kind : Kind
  payload : Payload
  idempotencyKey : Option Key
  priority : ℕ
  status : Status := .queued
  attempts : ℤ := 0
  maxAttempts : ℤ
  sortKey : Time
  runAfter : Time
  leaseOwner : Option String := none
  leaseUntil : Option Time := none
  fence : ℕ := 0
  lastError : Option String := none
  enqueuedAt : Time
  updatedAt : Time
deriving DecidableEq, Repr

abbrev JobTable := Table JobRow

/-- A claimed job, as its holder knows it. -/
structure Job where
  id : ℕ
  tenantId : String
  incidentId : Option ℕ
  kind : Kind
  payload : Payload
  priority : ℕ
  attempts : ℤ
  maxAttempts : ℤ
  fence : ℕ
  leaseOwner : String
  waitedS : Time := 0
deriving DecidableEq, Repr

def Job.fromRow (id : ℕ) (row : JobRow) (owner : String) (waitedS : Time) : Job :=
  { id, tenantId := row.tenantId, incidentId := row.incidentId, kind := row.kind,
    payload := row.payload, priority := row.priority, attempts := row.attempts,
    maxAttempts := row.maxAttempts, fence := row.fence, leaseOwner := owner, waitedS }

/-- The arguments of `enqueue`. -/
structure Enqueue where
  tenantId : String
  kind : Kind
  priority : ℕ
  maxAttempts : ℤ
  agingStepS : Time
  incidentId : Option ℕ := none
  payload : Payload := {}
  idempotencyKey : Option Key := none
  delayS : Time := 0
deriving Repr

namespace Jobs

def rowOf (now : Time) (e : Enqueue) : JobRow :=
  { tenantId := e.tenantId, incidentId := e.incidentId, kind := e.kind, payload := e.payload,
    idempotencyKey := e.idempotencyKey, priority := e.priority, maxAttempts := e.maxAttempts,
    sortKey := now + e.priority * e.agingStepS, runAfter := now + e.delayS,
    enqueuedAt := now, updatedAt := now }

def keyTaken (jobs : JobTable) (key : Option Key) : Bool :=
  key.isSome && jobs.rows.any fun r => r.idempotencyKey = key

/-- Returns the new job's id, or `none` if a job with the same idempotency key exists. The
check constraint on the column refuses a priority above 3. -/
def enqueue (now : Time) (e : Enqueue) (jobs : JobTable) : Except Err (JobTable × Option ℕ) :=
  if 3 < e.priority then .error (.integrityError "ck_jobs_priority_range")
  else if keyTaken jobs e.idempotencyKey then .ok (jobs, none)
  else .ok (jobs.insert (rowOf now e), some jobs.size)

/-- `list(kinds) if kinds else None`: an empty list of kinds is no limit. -/
def kindFilter : Option (List Kind) → Option (List Kind)
  | some [] => none
  | kinds => kinds

/-- The WHERE of the claim. -/
def runnable (now : Time) (maxPriority : ℕ) (kinds : Option (List Kind)) (r : JobRow) : Bool :=
  r.status = .queued && decide (r.runAfter ≤ now) && decide (r.priority ≤ maxPriority) &&
    match kindFilter kinds with
    | none => true
    | some ks => ks.contains r.kind

/-- `ORDER BY sort_key, id LIMIT 1 FOR UPDATE SKIP LOCKED`. `select` lists ids in order, and
`argmin` returns the first of several least elements. -/
def next (now : Time) (maxPriority : ℕ) (kinds : Option (List Kind)) (locked : ℕ → Bool)
    (jobs : JobTable) : Option (ℕ × JobRow) :=
  (jobs.select fun id r => runnable now maxPriority kinds r && !locked id).argmin
    fun x => x.2.sortKey

def leased (now : Time) (owner : String) (leaseTtlS : Time) (r : JobRow) : JobRow :=
  { r with status := .running, leaseOwner := some owner, leaseUntil := some (now + leaseTtlS),
           fence := r.fence + 1, attempts := r.attempts + 1, updatedAt := now }

/-- Lease the next runnable job. `locked` are the rows another claimer holds. -/
def claim (now : Time) (owner : String) (leaseTtlS : Time) (maxPriority : ℕ)
    (kinds : Option (List Kind)) (locked : ℕ → Bool) (jobs : JobTable) : JobTable × Option Job :=
  match next now maxPriority kinds locked jobs with
  | none => (jobs, none)
  | some (id, r) =>
    (jobs.modify id (leased now owner leaseTtlS),
      some (Job.fromRow id (leased now owner leaseTtlS r) owner (now - r.runAfter)))

/-- `WHERE id = :id AND fence = :fence AND status = 'running'`. -/
def holds (job : Job) (jobs : JobTable) : Bool :=
  match jobs.get? job.id with
  | none => false
  | some r => r.fence = job.fence && r.status = .running

def lost (job : Job) : Err := .leaseLost job.id job.fence

/-- Extend the lease. `false` means the lease is gone and the worker must stop the job. -/
def heartbeat (now : Time) (job : Job) (leaseTtlS : Time) (jobs : JobTable) : JobTable × Bool :=
  if holds job jobs then
    (jobs.modify job.id fun r => { r with leaseUntil := some (now + leaseTtlS), updatedAt := now }, true)
  else (jobs, false)

/-- Check that the caller still owns the job. The row lock is held until commit. -/
def assertFence (job : Job) (jobs : JobTable) : Except Err Unit :=
  if holds job jobs then .ok () else .error (lost job)

def finish (now : Time) (job : Job) (assignments : JobRow → JobRow) (jobs : JobTable) :
    Except Err JobTable :=
  if holds job jobs then
    .ok (jobs.modify job.id fun r =>
      { assignments r with leaseOwner := none, leaseUntil := none, updatedAt := now })
  else .error (lost job)

def complete (now : Time) (job : Job) : JobTable → Except Err JobTable :=
  finish now job fun r => { r with status := .done, lastError := none }

/-- Hand a job back without counting the run as an attempt. -/
def release (now : Time) (job : Job) : JobTable → Except Err JobTable :=
  finish now job fun r => { r with status := .queued, attempts := r.attempts - 1, runAfter := now }

/-- `cap/2 + random.uniform(0, cap/2)`; `jitter` is the random draw. -/
def backoffDelay (attempt : ℤ) (baseS maxS jitter : Time) : Time :=
  min maxS (baseS * 2 ^ (max (attempt - 1) 0).toNat) / 2 + jitter

def afterFailure (retryable : Bool) (r : JobRow) : Status :=
  if retryable = true ∧ r.attempts < r.maxAttempts then .queued else .dead

/-- Record a failed run. Returns the new status. -/
def fail (now : Time) (job : Job) (error : String) (retryable : Bool)
    (backoffBaseS backoffMaxS jitter : Time) (jobs : JobTable) : Except Err (JobTable × Status) :=
  match jobs.get? job.id with
  | none => .error (lost job)
  | some row =>
    if holds job jobs then
      .ok (jobs.modify job.id fun r =>
        { r with status := afterFailure retryable r,
                 runAfter := now + backoffDelay job.attempts backoffBaseS backoffMaxS jitter,
                 leaseOwner := none, leaseUntil := none,
                 lastError := some (error.take 2000).copy, updatedAt := now },
        afterFailure retryable row)
    else .error (lost job)

/-- `status = 'running' AND lease_until < now()`, rows another reaper holds skipped. -/
def expired (now : Time) (locked : ℕ → Bool) (id : ℕ) (r : JobRow) : Bool :=
  r.status = .running && !locked id &&
    match r.leaseUntil with
    | none => false
    | some t => decide (t < now)

def afterExpiry (r : JobRow) : Status :=
  if r.maxAttempts ≤ r.attempts then .dead else .queued

def reaped (now : Time) (r : JobRow) : JobRow :=
  { r with status := afterExpiry r, leaseOwner := none, leaseUntil := none,
           lastError := some "lease expired", updatedAt := now }

/-- Requeue jobs whose lease expired; dead-letter those out of attempts. Returns the id and
the new status of each. -/
def reap (now : Time) (locked : ℕ → Bool) (jobs : JobTable) : JobTable × List (ℕ × Status) :=
  (jobs.update fun id r => if expired now locked id r then reaped now r else r,
    (jobs.select (expired now locked)).map fun x => (x.1, afterExpiry x.2))

end Jobs

end Blackboard
