import Blackboard.Spec.Jobs
import Blackboard.Spec.Policy

/-! The database, and the statements that write it inside a transaction. `Tx` is the body of a
transaction: it takes effect as a whole when it commits, or raises and leaves nothing. Rows
it changed stay locked until then, so what a statement finds there holds at the commit. -/

namespace Blackboard

/-- A claim of a job: the job and the fence. -/
structure Attempt where
  job : ℕ
  fence : ℕ
deriving DecidableEq, Repr

structure RootCause where
  service : String
  cause : String
  confidence : ℚ
deriving DecidableEq, Repr

structure Diagnosis where
  rootCauses : List RootCause
deriving DecidableEq, Repr

/-- A row of `remediation_plans`. -/
structure PlanRow where
  tenantId : String
  incidentId : ℕ
  seq : ℕ
  proposedBy : Actor
  plan : RemediationPlan
  planHash : String
  verdict : Verdict
  risk : Option Risk
  checks : List Check
  expiresAt : Option Time
  createdAt : Time
deriving DecidableEq, Repr

inductive ApprovalDecision
  | approve | reject
deriving DecidableEq, Repr

/-- A row of `approvals`. -/
structure Approval where
  tenantId : String
  incidentId : ℕ
  planId : ℕ
  planHash : String
  approver : Actor
  decision : ApprovalDecision
  comment : String
  createdAt : Time
deriving DecidableEq, Repr

inductive ExecStatus
  | started | succeeded | failed | unknown
deriving DecidableEq, Repr

/-- A row of `executions`. The key is `plan:{plan_id}:action:{action_index}`. -/
structure Execution where
  tenantId : String
  incidentId : ℕ
  planId : ℕ
  actionIndex : ℕ
  action : Action
  status : ExecStatus
  executor : Actor
  dryRun : Json
  before : Json
  after : Json
  error : Option String
  startedAt : Time
  finishedAt : Option Time
  /-- History: the attempt that inserted the row, and with which status. -/
  insertedBy : Attempt
  insertedAs : ExecStatus

/-- `f` on the row with the key. -/
def Execution.updated (planId index : ℕ) (f : Execution → Execution) (e : Execution) : Execution :=
  if e.planId = planId ∧ e.actionIndex = index then f e else e

/-- A row of `evidence`. -/
structure Evidence where
  incidentId : ℕ
  id : String
  ref : EvidenceRef

structure Db where
  incidents : Table Incident := .empty
  jobs : JobTable := .empty
  audit : List AuditEntry := []
  plans : Table PlanRow := .empty
  approvals : Table Approval := .empty
  executions : Table Execution := .empty
  /-- The diagnoses on the blackboard, oldest first. -/
  diagnoses : List (ℕ × Diagnosis) := []
  evidence : List Evidence := []

namespace Db

/-- `ORDER BY seq DESC LIMIT 1` -/
def currentPlan (db : Db) (incident : ℕ) : Option (ℕ × PlanRow) :=
  (db.plans.select fun _ p => p.incidentId = incident).argmax fun x => x.2.seq

/-- `COALESCE(MAX(seq), 0)` -/
def maxSeq (db : Db) (incident : ℕ) : ℕ := ((db.currentPlan incident).map fun x => x.2.seq).getD 0

def approval (db : Db) (planId : ℕ) : Option Approval :=
  db.approvals.rows.find? fun a => a.planId = planId

def execution (db : Db) (planId index : ℕ) : Option Execution :=
  db.executions.rows.find? fun e => e.planId = planId && e.actionIndex = index

def diagnosis (db : Db) (incident : ℕ) : Option Diagnosis :=
  ((db.diagnoses.filter fun d => d.1 = incident).getLast?).map (·.2)

def evidenceOf (db : Db) (incident : ℕ) : String → Option EvidenceRef := fun id =>
  (db.evidence.find? fun e => e.incidentId = incident && e.id = id).map (·.ref)

end Db

abbrev Tx := StateT Db (Except Err)

namespace Tx

def run {α : Type} (x : Tx α) (db : Db) : Except Err (α × Db) := StateT.run x db

def raise {α : Type} (e : Err) : Tx α := fun _ => .error e

/-- `audit.append`; the hash chain is not part of this database. -/
def append (e : AuditEntry) : Tx Unit := fun db => .ok ((), { db with audit := db.audit ++ [e] })

/-- `incidents.transition`; returns the new version. -/
def transition (now : Time) (m : Transition) : Tx ℕ := fun db =>
  match Incidents.checkTransition m.fromState m.toState with
  | .error e => .error e
  | .ok _ =>
    match db.incidents.get? m.incident with
    | none => .error (stale m)
    | some i =>
      if Incidents.isAt m.fromState m.expectedVersion i then
        .ok (i.version + 1,
          { db with incidents := db.incidents.modify m.incident (Incidents.moved now m.toState),
                    audit := db.audit ++ [Incidents.transitionEntry m i.tenantId (i.version + 1)] })
      else .error (stale m)
where
  stale (m : Transition) : Err := .staleVersion
    ("incident " ++ toString m.incident ++ " is not at " ++ m.fromState.name ++ " v" ++
      toString m.expectedVersion)

def enqueue (now : Time) (e : Enqueue) : Tx (Option ℕ) := fun db =>
  (Jobs.enqueue now e db.jobs).map fun x => (x.2, { db with jobs := x.1 })

def assertFence (job : Job) : Tx Unit := fun db =>
  (Jobs.assertFence job db.jobs).map fun _ => ((), db)

/-- The open incident of the fingerprint, or a new one, and whether it was created. -/
def openOrMerge (now : Time) (o : Opening) : Tx (ℕ × Bool) := fun db =>
  if 3 < o.priority then .error (.integrityError "ck_incidents_priority_range")
  else
    match db.incidents.select fun _ i => Incidents.openFor o i with
    | (id, _) :: _ =>
      .ok ((id, false), { db with incidents := db.incidents.update fun _ => Incidents.mergedIf now o })
    | [] => .ok ((db.incidents.size, true), { db with incidents := db.incidents.insert (Incidents.opened now o) })

/-- INSERT INTO remediation_plans; the hash is unique, and so is the seq in the incident. -/
def insertPlan (p : PlanRow) : Tx ℕ := fun db =>
  if db.plans.rows.any (fun q => q.planHash = p.planHash) then
    .error (.integrityError "remediation_plans_plan_hash_key")
  else if db.plans.rows.any (fun q => q.incidentId = p.incidentId && q.seq = p.seq) then
    .error (.integrityError "ux_remediation_plans_incident_seq")
  else .ok (db.plans.size, { db with plans := db.plans.insert p })

/-- INSERT INTO approvals ... ON CONFLICT (plan_id) DO NOTHING; whether a row was inserted. -/
def insertApproval (a : Approval) : Tx Bool := fun db =>
  if (db.approval a.planId).isSome then .ok (false, db)
  else .ok (true, { db with approvals := db.approvals.insert a })

/-- INSERT INTO executions; the key is unique. -/
def insertExecution (e : Execution) : Tx Unit := fun db =>
  if (db.execution e.planId e.actionIndex).isSome then
    .error (.integrityError "executions_idempotency_key_key")
  else .ok ((), { db with executions := db.executions.insert e })

/-- UPDATE executions ... WHERE idempotency_key = :k -/
def updateExecution (planId index : ℕ) (f : Execution → Execution) : Tx Unit := fun db =>
  .ok ((), { db with executions := db.executions.update fun _ => Execution.updated planId index f })

end Tx

end Blackboard
