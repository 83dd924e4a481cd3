import Blackboard.Spec.Security
import Blackboard.Spec.System
import Blackboard.Spec.View

/-! The endpoints: the role each one asks for, the calls that write, and the answers of those that
read. A read runs on one state of the database. -/

namespace Blackboard

open Security

namespace Api

structure IncidentOut where
  id : ℕ
  title : String
  service : String
  environment : String
  priority : String
  state : State
  version : ℕ
  alertCount : ℕ
  labels : List (String × String)
  createdAt : Time
  updatedAt : Time
  closedAt : Option Time
deriving DecidableEq

/-- `IncidentOut.from_row` -/
def IncidentOut.fromRow (id : ℕ) (row : Incident) : IncidentOut :=
  { id, title := row.title, service := row.service, environment := row.environment,
    priority := Ingest.priorityName row.priority, state := row.state, version := row.version,
      alertCount := row.alertCount,
    labels := row.labels, createdAt := row.createdAt, updatedAt := row.updatedAt, closedAt := row.closedAt }

structure ApprovalOut where
  approver : Actor
  decision : ApprovalDecision
  comment : String
  createdAt : Time

structure ExecutionOut where
  actionIndex : ℕ
  action : Action
  status : ExecStatus
  executor : Actor
  dryRun : Json
  before : Json
  after : Json
  error : Option String
  startedAt : Time
  finishedAt : Option Time

structure PlanOut where
  id : ℕ
  seq : ℕ
  planHash : String
  proposedBy : Actor
  plan : RemediationPlan
  verdict : Verdict
  risk : Option Risk
  checks : List Check
  expiresAt : Option Time
  createdAt : Time
  approval : Option ApprovalOut
  executions : List ExecutionOut

inductive Answer
  | incidents (rows : List IncidentOut)
  | incident (row : IncidentOut)
  | plans (rows : List PlanOut)
  /-- With the position of each row in the log. -/
  | audit (rows : List (ℕ × AuditEntry))

variable (db : Db) (tenantId : String)

/-- `incidents.get` for a tenant, and the 404: another tenant's incident is as one that is missing. -/
def incidentOf (id : ℕ) : Except Err Incident :=
  match (db.incidents.get? id).filter fun i => i.tenantId = tenantId with
  | some i => .ok i
  | none => .error (.http 404 "incident not found")

/-- `ORDER BY created_at DESC LIMIT :n` -/
def listIncidents (limit : ℕ) : List IncidentOut :=
  (((db.incidents.select fun _ i => i.tenantId = tenantId).insertionSort fun a b =>
    b.2.createdAt ≤ a.2.createdAt).take limit).map
    fun x => .fromRow x.1 x.2

def approvalOut (planId : ℕ) : Option ApprovalOut :=
  (db.approval planId).map fun a => ⟨a.approver, a.decision, a.comment, a.createdAt⟩

/-- `WHERE plan_id = :p ORDER BY action_index` -/
def executionsOut (planId : ℕ) : List ExecutionOut :=
  ((db.executions.rows.filter fun e => e.planId = planId).insertionSort fun a b =>
    a.actionIndex ≤ b.actionIndex).map fun e =>
    ⟨e.actionIndex, e.action, e.status, e.executor, e.dryRun, e.before, e.after, e.error, e.startedAt, e.finishedAt⟩

/-- `flow.plans`, oldest first, each with its decision and its executions. -/
def listPlans (id : ℕ) : List PlanOut :=
  ((db.plans.select fun _ p => p.incidentId = id).insertionSort fun a b => a.2.seq ≤ b.2.seq).map fun x =>
    { id := x.1, seq := x.2.seq, planHash := x.2.planHash, proposedBy := x.2.proposedBy, plan := x.2.plan,
      verdict := x.2.verdict, risk := x.2.risk, checks := x.2.checks, expiresAt := x.2.expiresAt,
      createdAt := x.2.createdAt, approval := approvalOut db x.1, executions := executionsOut db x.1 }

/-- `WHERE subject = :s AND tenant_id = :t ORDER BY seq` -/
def incidentAudit (id : ℕ) : List (ℕ × AuditEntry) :=
  (db.audit.zipIdx.filter fun x => x.1.subject = .incident id ∧ x.1.tenantId = some tenantId).map fun x => (x.2, x.1)

inductive Read
  | listIncidents (limit : ℕ)
  | getIncident (id : ℕ)
  | listPlans (id : ℕ)
  | incidentAudit (id : ℕ)

def read : Read → Except Err Answer
  | .listIncidents limit => .ok (.incidents (listIncidents db tenantId limit))
  | .getIncident id => do return .incident (.fromRow id (← incidentOf db tenantId id))
  | .listPlans id => do
    let _ ← incidentOf db tenantId id
    return .plans (listPlans db id)
  | .incidentAudit id => do
    let _ ← incidentOf db tenantId id
    return .audit (incidentAudit db tenantId id)

end Api

/-! Requests. -/

namespace Http

/-- `r"^[0-9a-f]{64}$"` -/
def isHash (s : String) : Bool :=
  s.length = 64 && s.toList.all fun c => c.isDigit || (('a' ≤ c) && (c ≤ 'f'))

inductive Endpoint
  | read (r : Api.Read)
  /-- The firing alerts; their tenant is the caller's. -/
  | receiveAlerts (alerts : List Opening)
  | revisePlan (id : ℕ) (plan : RemediationPlan)
  | decide (id : ℕ) (decision : ApprovalDecision) (planHash comment : String)

def Endpoint.role : Endpoint → Role
  | .read _ => .viewer
  | .receiveAlerts _ => .ingest
  | .revisePlan .. => .responder
  | .decide .. => .approver

/-- What the models of the query and of the body refuse; a `RemediationPlan` has been validated. -/
def Endpoint.valid : Endpoint → Bool
  | .read (.listIncidents limit) => 1 ≤ limit && limit ≤ 200
  | .decide _ _ planHash comment => isHash planHash && comment.length ≤ 500
  | _ => true

/-- A call that came through: a read of a tenant's rows, or a write with what the token says of who it is. -/
inductive Call
  | read (tenantId : String) (r : Api.Read)
  | write (r : Request)

def Endpoint.call (settings : Settings) (p : Principal) : Endpoint → Call
  | .read r => .read p.tenantId r
  | .receiveAlerts alerts =>
    .write (.webhook p.subject (alerts.map fun o => { o with tenantId := p.tenantId }) settings)
  | .revisePlan id plan => .write (.revise p.tenantId id p.subject plan settings)
  | .decide id decision planHash comment => .write (.decide p.tenantId id p.subject decision planHash comment settings)

/-- The token and the role first, then the query or the body. -/
def route (jwt : String → Except String Claims) (settings : Settings) (credentials : Option String) (e : Endpoint) :
    Except Err Call := do
  let principal ← require jwt e.role credentials
  if !e.valid then throw (.http 422 "Unprocessable Content")
  return e.call settings principal

end Http

end Blackboard
