import Blackboard.Spec.Db
import Blackboard.Lib.Threads

/-! The state the processes share, and the atomic actions their code is made of: one SELECT,
one commit, one request to the cluster. A transaction is its SELECTs, each at its own moment
as READ COMMITTED has it, and then its writes, which take effect together at the commit. -/

namespace Blackboard

open Threads

structure Settings where
  queueLeaseTtlS : Time := 30
  queueAgingStepS : Time := 60
  queueMaxAttempts : ℤ := 5
  queueBackoffBaseS : Time := 2
  queueBackoffMaxS : Time := 300
  autoInvestigate : Bool := true
  autoRemediate : Bool := true
  k8sNamespace : String := "otel-demo"
  remediationTargets : List String := []
  remediationMinConfidence : ℚ := 1 / 2
  remediationAutoMaxRisk : Risk := .R1
  remediationChangeWindow : String := "00:00-24:00"
  remediationApprovalTtlS : Time := 1800
  verifySettleS : Time := 60
  verifyHealthyChecks : ℕ := 3
  verifyTimeoutS : Time := 600

/-- The Deployments and ReplicaSets of the namespace, as the API returns them. -/
structure Cluster where
  deployments : List (String × Json) := []
  replicasets : List Json := []

/-- A change worked out against the Deployment as it is now. -/
structure Prepared where
  deployment : String
  ops : List Json
  before : Json
  summary : String
  noop : Bool := false
  /-- History: which contents of the cluster the Deployment and its ReplicaSets were read in. -/
  readAt : ℕ := 0
  listedAt : ℕ := 0

/-- What an attempt read when it checked that a plan may run. -/
structure Checked where
  /-- History: which contents of the database the incident, the first of these, was read in. -/
  since : ℕ
  incident : Incident
  planId : ℕ
  plan : PlanRow
  /-- The configuration of the process that checks. -/
  settings : Settings
  context : PolicyContext
  decision : Decision
  approval : Option Approval

/-- The answer of the Kubernetes API. -/
inductive Reply
  | ok (body : Json)
  | http (status : ℕ) (detail : String)
  | noAnswer (error : String)

/-- History: one PATCH that was sent for real. -/
structure Sent where
  attempt : Attempt
  planId : ℕ
  index : ℕ
  action : Action
  prepared : Prepared
  checked : Checked
  /-- Whether the attempt held its job then, and the state of the incident. -/
  held : Bool
  state : Option State
  /-- What came back, if the attempt was there to see it. -/
  answer : Option Reply

/-- History; no code reads it. -/
structure Hist where
  sent : List Sent := []
  /-- Attempts that have committed `execution.started` and go on to send the PATCH. -/
  ready : List Attempt := []
  /-- An attempt wrote the outcome of an action and has the audit row still to write:
  `execution.started` (false) or `execution.succeeded` (true). -/
  owed : List (Attempt × ℕ × ℕ × Bool) := []
  /-- Decided plans: the time of the check, and the contents of the cluster then. -/
  decided : List (ℕ × Time × ℕ) := []
  /-- The plans that `approval_timeout` jobs were for, of those that escalated the incident. -/
  timedOut : List ℕ := []
  /-- API calls that committed something. -/
  wrote : List ℕ := []
  /-- A process ran without automatic investigation and remediation. -/
  manual : Bool := false

structure Core where
  db : Db := {}
  cluster : Cluster := {}
  /-- History: the contents of the database before. -/
  log : List Db := []
  /-- History: the contents of the cluster before. -/
  past : List Cluster := []
  hist : Hist := {}

namespace Core

/-- Every content the database has had, the present one last. -/
def dbs (c : Core) : List Db := c.log ++ [c.db]

/-- Every content the cluster has had, the present one last. -/
def clusters (c : Core) : List Cluster := c.past ++ [c.cluster]

def write (c : Core) (db : Db) : Core := { c with db, log := c.dbs }

end Core

/-- What can go wrong at an await: any exception of the driver or the runtime, or the task is
cancelled (`true`: by its heartbeat, because the lease is gone). -/
inductive Fault
  | raised (message : String)
  | cancelled (leaseLost : Bool)

def Fault.err : Fault → Err
  | .raised m => .exception m
  | .cancelled l => .cancelled l

/-- What `investigate` comes to. -/
structure Outcome where
  diagnosis : Option Diagnosis
  escalate : Option String

/-- What `planner.propose` comes to. -/
structure Proposal where
  plan : Option RemediationPlan
  error : Option String

/-- What an action meets from outside. -/
structure Input where
  now : Time := 0
  fault : Option Fault := none
  /-- The fault hit after the action had taken effect. -/
  late : Bool := false
  reply : Reply := .ok .null
  outcome : Except Err Outcome := .ok ⟨none, none⟩
  proposal : Except Err Proposal := .ok ⟨none, none⟩
  /-- The SLI, or the message of the tool's error. -/
  sli : Except String (Option Sli) := .ok none
  jitter : Time := 0
  rounds : ℕ := 0

abbrev Handler := ExceptT Err (Prog Core Input)

/-- An action that changes nothing. -/
def look {α : Type} (f : Input → Core → Except Err α) : Handler α :=
  ExceptT.mk (Prog.lift fun i c =>
    match i.fault with
    | some x => (.error x.err, c)
    | none => (f i c, c))

def select {α : Type} (f : Db → α) : Handler α := look fun _ c => .ok (f c.db)

/-- `datetime.now(UTC)` -/
def clock : Handler Time := look fun i _ => .ok i.now

/-- Commit `body`. `note` is what history remembers of it. A fault before the commit leaves
nothing behind; one after it raises although everything is in place. -/
def commit {α : Type} (body : Input → Tx α) (note : Input → α → Core → Hist := fun _ _ c => c.hist) :
    Handler α :=
  ExceptT.mk (Prog.lift fun i c =>
    match (body i).run c.db with
    | .error e => (.error ((i.fault.map Fault.err).getD e), c)
    | .ok (a, db) =>
      match i.fault with
      | none => (.ok a, { c.write db with hist := note i a c })
      | some x => (.error x.err, if i.late then { c.write db with hist := note i a c } else c))

structure JobContext where
  job : Job
  settings : Settings
  workerId : String

namespace JobContext

def attempt (ctx : JobContext) : Attempt := ⟨ctx.job.id, ctx.job.fence⟩

/-- The start of `transaction()`: a worker that lost the job goes no further. -/
def assertFence (ctx : JobContext) : Handler Unit := look fun _ c => Jobs.assertFence ctx.job c.db.jobs

/-- The end of `transaction()`: the writes, if the worker still owns the job. -/
def commit {α : Type} (ctx : JobContext) (body : Input → Tx α)
    (note : Input → α → Core → Hist := fun _ _ c => c.hist) : Handler α :=
  Blackboard.commit (fun i => do Tx.assertFence ctx.job; body i) note

end JobContext

/-- `s[:n]` -/
def cut (n : ℕ) (s : String) : String := (s.take n).copy

end Blackboard
