import Blackboard.Spec.Executor

/-! The whole system: worker and executor processes that claim jobs and run their handlers, the
API, the webhook, and what happens around them. Every job attempt and every API call is a
program; a process that crashes is its programs being stopped. -/

namespace Blackboard

open Threads

/-- The text `_fail` records: `f"{type(exc).__name__}: {exc}"`. -/
def Err.describe : Err → String
  | .leaseLost job fence => "LeaseLost: job " ++ toString job ++ " fence " ++ toString fence
  | .permanentJobError m => "PermanentJobError: " ++ m
  | .illegalTransition m => "IllegalTransition: " ++ m
  | .staleVersion m => "StaleVersion: " ++ m
  | .integrityError c => "IntegrityError: " ++ c
  | .approvalRefused _ m => "ApprovalRefused: " ++ m
  | .http status d => "HTTPException: " ++ toString status ++ ": " ++ d
  | .execError m _ => "ExecError: " ++ m
  | .llmError m _ => "LLMError: " ++ m
  | .cancelled _ => "CancelledError: "
  | .exception m => m

namespace Tx

def complete (now : Time) (job : Job) : Tx Unit := fun db =>
  (Jobs.complete now job db.jobs).map fun jobs => ((), { db with jobs })

def release (now : Time) (job : Job) : Tx Unit := fun db =>
  (Jobs.release now job db.jobs).map fun jobs => ((), { db with jobs })

def fail (now : Time) (job : Job) (error : String) (retryable : Bool) (settings : Settings) (jitter : Time) :
    Tx Status := fun db =>
  (Jobs.fail now job error retryable settings.queueBackoffBaseS settings.queueBackoffMaxS jitter db.jobs).map
    fun x => (x.2, { db with jobs := x.1 })

end Tx

namespace Worker

/-- The attempt is over. -/
def noteEnd (ctx : JobContext) (c : Core) : Hist :=
  { c.hist with ready := c.hist.ready.filter (· ≠ ctx.attempt) }

def auditDead (ctx : JobContext) (error : String) : AuditEntry :=
  { actor := .worker ctx.workerId, subject := .job ctx.job.id, tenantId := some ctx.job.tenantId,
    event := .jobDead (some ctx.job.kind) (some ctx.job.attempts) (cut 500 error) }

/-- `_fail`: record the failure, with the audit row if the job is dead now. -/
def fail (ctx : JobContext) (e : Err) (retryable : Bool) : Handler Unit := do
  match ← attempt (commit (fun i => do
      let status ← Tx.fail i.now ctx.job e.describe retryable ctx.settings i.jitter
      if status = .dead then
        Tx.append (auditDead ctx e.describe)) fun _ _ c => noteEnd ctx c) with
  | .ok _ => return
  | .error (.leaseLost _ _) => return
  | .error e => throw e

/-- `_release`: what goes wrong here is left to the reaper. -/
def release (ctx : JobContext) : Handler Unit := do
  let _ ← attempt (commit (fun i => Tx.release i.now ctx.job) fun _ _ c => noteEnd ctx c)

/-- `_execute`: run the handler, then settle the job. -/
def execute (ctx : JobContext) (handler : Option (JobContext → Handler Unit)) : Handler Unit := do
  match ← attempt (do
      match handler with
      | none => throw (.permanentJobError ("no handler for job kind '" ++ ctx.job.kind.name ++ "'"))
      | some h => h ctx
      commit (fun i => Tx.complete i.now ctx.job) fun _ _ c => noteEnd ctx c) with
  | .ok _ => return
  | .error (.leaseLost _ _) => return
  | .error (.cancelled true) => return
  | .error (.cancelled false) =>
    release ctx
    throw (.cancelled false)
  | .error (.permanentJobError m) => fail ctx (.permanentJobError m) false
  | .error e => fail ctx e true

end Worker

/-- A worker process, or an executor process. -/
structure Process where
  workerId : String
  settings : Settings
  executor : Bool
  prometheus : Bool

namespace Process

/-- `sorted(self.handlers)` -/
def kinds (p : Process) : List Kind :=
  if p.executor then [.execute] else [.approvalTimeout, .investigate, .plan, .triage, .verify]

/-- `default_handlers`, or the executor's own. -/
def handler (sha256 : String → String) (p : Process) (kind : Kind) : Option (JobContext → Handler Unit) :=
  if p.executor then
    match kind with
    | .execute => some Executor.execute
    | _ => none
  else
    match kind with
    | .triage => some Handlers.triage
    | .investigate => some Handlers.investigate
    | .plan => some (Handlers.plan sha256)
    | .approvalTimeout => some Handlers.approvalTimeout
    | .verify => some fun ctx => Handlers.verify ctx p.prometheus
    | _ => none

end Process

/-- The calls of the API that write. `n` numbers them in the history. -/
inductive Request
  | decide (tenantId : String) (incident : ℕ) (subject : String) (decision : ApprovalDecision)
      (planHash comment : String) (settings : Settings)
  | revise (tenantId : String) (incident : ℕ) (subject : String) (plan : RemediationPlan) (settings : Settings)
  /-- The firing alerts of a webhook, as `identify` and `priority_of` read them. -/
  | webhook (subject : String) (alerts : List Opening) (settings : Settings)

inductive Response
  | decided (state : State)
  | planned (planId : ℕ) (state : State)
  | ingested (incidents : List (ℕ × Bool))
  | settled

namespace Api

def incident (id : ℕ) (tenantId : String) : Handler Incident := do
  match ← select fun db => db.incidents.get? id with
  | none => throw (.http 404 "incident not found")
  | some i => if i.tenantId = tenantId then return i else throw (.http 404 "incident not found")

def noteWrite (n : ℕ) (c : Core) : Hist := { c.hist with wrote := n :: c.hist.wrote }

/-- A lost race as an HTTP error. -/
def conflict : Err → Err
  | .staleVersion m => .http 409 ("the incident changed meanwhile: " ++ m)
  | .illegalTransition m => .http 409 ("the incident changed meanwhile: " ++ m)
  | e => e

def decide (n : ℕ) (tenantId : String) (id : ℕ) (b : Flow.Ballot) (settings : Settings) : Handler Response := do
  let row ← incident id tenantId
  match ← attempt (Flow.decide id row b settings fun planId checkedAt body =>
      commit body fun _ _ c =>
        { noteWrite n c with decided := (planId, checkedAt, c.past.length) :: c.hist.decided }) with
  | .ok state => return .decided state
  | .error (.approvalRefused status m) => throw (.http status m)
  | .error e => throw (conflict e)

def revise (sha256 : String → String) (n : ℕ) (tenantId : String) (id : ℕ) (who : Actor)
    (plan : RemediationPlan) (settings : Settings) : Handler Response := do
  let row ← incident id tenantId
  if row.state ≠ .awaitingApproval then
    throw (.http 409 ("the incident is " ++ row.state.name ++ "; only a waiting plan can be revised"))
  match ← attempt (Flow.submit sha256 id row plan who who settings fun body =>
      commit body fun _ _ c => noteWrite n c) with
  | .ok (planId, state) => return .planned planId state
  | .error e => throw (conflict e)

def createdEntry (id : ℕ) (o : Opening) (actor : Actor) : AuditEntry :=
  { actor, subject := .incident id, tenantId := some o.tenantId,
    event := .incidentCreated o.title o.service o.environment o.priority }

/-- `_on_incident_created` -/
def created (now : Time) (id : ℕ) (o : Opening) (actor : Actor) (settings : Settings) : Tx Unit := do
  let _ ← Handlers.enqueue now id o.tenantId o.priority .triage settings
  Tx.append (createdEntry id o actor)

def ingest (now : Time) (actor : Actor) (settings : Settings) : List Opening → Tx (List (ℕ × Bool))
  | [] => return []
  | o :: rest => do
    let (id, isNew) ← Tx.openOrMerge now o
    if isNew then
      created now id o actor settings
    return (id, isNew) :: (← ingest now actor settings rest)

/-- The alerts in the order of their fingerprints. -/
def webhook (n : ℕ) (subject : String) (alerts : List Opening) (settings : Settings) : Handler Response := do
  let results ← commit (fun i => ingest i.now (.webhook subject) settings
    (alerts.insertionSort fun a b => a.fingerprint ≤ b.fingerprint)) fun _ _ c => noteWrite n c
  return .ingested results

def handle (sha256 : String → String) (n : ℕ) : Request → Handler Response
  | .decide tenantId id subject decision planHash comment settings =>
    decide n tenantId id ⟨.user subject, decision, planHash, comment⟩ settings
  | .revise tenantId id subject plan settings => revise sha256 n tenantId id (.user subject) plan settings
  | .webhook subject alerts settings => webhook n subject alerts settings

end Api

/-- The programs: job attempts and API calls. -/
inductive Caller
  | job (a : Attempt) | request (n : ℕ)
deriving DecidableEq

/-- What happens outside them. -/
inductive Happening
  | claim (p : Process) (now : Time) (maxPriority : ℕ) (locked : ℕ → Bool)
  | heartbeat (job : Job) (now leaseTtlS : Time)
  | reap (workerId : String) (now : Time) (locked : ℕ → Bool)
  | request (n : ℕ) (r : Request)
  /-- Anybody changes the cluster. -/
  | cluster (c : Cluster)
  /-- The agents write what they found; this is fenced too, which nothing here depends on. -/
  | evidence (e : Evidence)
  | diagnosis (incident : ℕ) (d : Diagnosis)

abbrev Program := Prog Core Input (Except Err Response)

def attemptProgram (sha256 : String → String) (p : Process) (job : Job) : Program :=
  ExceptT.run do
    Worker.execute ⟨job, p.settings, p.workerId⟩ (p.handler sha256 job.kind)
    return .settled

/-- The reaper's transaction, with an audit row for every job that is dead now. -/
def reap (workerId : String) (now : Time) (locked : ℕ → Bool) (db : Db) : Db :=
  let x := Jobs.reap now locked db.jobs
  { db with jobs := x.1,
            audit := db.audit ++ (x.2.filter fun j => j.2 = .dead).map fun j =>
              { actor := .worker workerId, subject := .job j.1, tenantId := none,
                event := .jobDead none none "lease expired" } }

def happen (sha256 : String → String) (c : Core) : Happening → Option (Core × Option (Caller × Program))
  | .claim p now maxPriority locked =>
    let x := Jobs.claim now p.workerId p.settings.queueLeaseTtlS maxPriority (some p.kinds) locked c.db.jobs
    let hist := { c.hist with
      manual := c.hist.manual || !(p.settings.autoInvestigate && p.settings.autoRemediate) }
    some ({ c.write { c.db with jobs := x.1 } with hist },
      x.2.map fun job => (.job ⟨job.id, job.fence⟩, attemptProgram sha256 p job))
  | .heartbeat job now ttl =>
    some (c.write { c.db with jobs := (Jobs.heartbeat now job ttl c.db.jobs).1 }, none)
  | .reap workerId now locked => some (c.write (reap workerId now locked c.db), none)
  | .request n r => some (c, some (.request n, (Api.handle sha256 n r).run))
  | .cluster k => some ({ c with cluster := k, past := c.past ++ [c.cluster] }, none)
  | .evidence e => some (c.write { c.db with evidence := c.db.evidence ++ [e] }, none)
  | .diagnosis id d => some (c.write { c.db with diagnoses := c.db.diagnoses ++ [(id, d)] }, none)

def system (sha256 : String → String) : System Caller Core Input Happening (Except Err Response) :=
  { init := {}, env := fun e c => happen sha256 c e }

abbrev World := Config Caller Core Input (Except Err Response)

abbrev Step := Choice Caller Input Happening

/-- A run of the system from its start. -/
def Reaches (sha256 : String → String) (steps : List Step) (c : World) : Prop :=
  Runs.run (system sha256).step (system sha256).start steps = some c

/-! An incident of one service, for runs on concrete inputs: an alert comes in, the agents find
the service itself at fault, and a plan is submitted. -/

namespace Sample

def opening : Opening := ⟨"t", "f", "errors", "payment", "prod", 2, [("slo", "availability")]⟩

def settings (autoMaxRisk : Risk) : Settings :=
  { remediationTargets := ["payment"], remediationAutoMaxRisk := autoMaxRisk }

def worker (s : Settings) : Process := ⟨"worker", s, false, true⟩

def executor (s : Settings) : Process := ⟨"executor", s, true, false⟩

def diagnosis : Diagnosis := ⟨[⟨"payment", "a bad release", 9 / 10⟩]⟩

def restart : RemediationPlan := ⟨"restart", [⟨"payment", [], "it hangs", .restartDeployment⟩], [], none⟩

def deployment (revision : String) (image : String) : Json :=
  .obj [("metadata", .obj [("resourceVersion", .str "7"), ("uid", .str "u"),
      ("annotations", .obj [(K8s.REVISION, .str revision)])]),
    ("spec", .obj [("replicas", .num 1),
      ("template", .obj [("metadata", .obj []), ("spec", .obj [("image", .str image)])])])]

def acts (k : Caller) (inputs : List Input) : List Step := inputs.map fun i => .act k i

def claim (p : Process) (now : Time) : Step := .env (.claim p now 3 fun _ => false)

/-- `n` actions that meet nothing unusual. -/
def plain (n : ℕ) (now : Time) : List Input := List.replicate n { now }

/-- Jobs 0, 1 and 2 triage, investigate and plan the incident 0; job 3 follows. -/
def planned (s : Settings) (p : RemediationPlan) (k : Cluster) : List Step :=
  [.env (.cluster k), .env (.request 0 (.webhook "alertmanager" [opening] s))] ++ acts (.request 0) (plain 1 0) ++
    [claim (worker s) 0] ++ acts (.job ⟨0, 1⟩) (plain 4 0) ++
    [claim (worker s) 0, .env (.diagnosis 0 diagnosis)] ++
    acts (.job ⟨1, 1⟩) (plain 3 0 ++ [{ outcome := .ok ⟨some diagnosis, none⟩ }] ++ plain 3 0) ++
    [claim (worker s) 0] ++
    acts (.job ⟨2, 1⟩) (plain 2 0 ++ [{ proposal := .ok ⟨some p, none⟩ }] ++ plain 8 0)

/-- The API accepts a write. -/
def accepted (now : Time) : Input := { now, reply := .ok (.obj [("metadata", .obj [("generation", .num 2)])]) }

def cluster : Cluster := ⟨[("payment", deployment "1" "payment:1")], []⟩

/-- The restart is allowed at once; the executor has taken `n` steps. All of them are 18. -/
def restarting (n : ℕ) : List Step :=
  planned (settings .R2) restart cluster ++ [claim (executor (settings .R2)) 1] ++
    acts (.job ⟨3, 1⟩) (List.replicate n (accepted 1))

/-- The lease of the executor expires, and another one takes the job and `n` steps. -/
def retried (n : ℕ) : List Step :=
  [.env (.reap "reaper" 100 fun _ => false), claim (executor (settings .R2)) 100] ++
    acts (.job ⟨3, 2⟩) (List.replicate n (accepted 100))

/-- A restart and a scaling. -/
def growth : RemediationPlan :=
  ⟨"restart and scale",
    [⟨"payment", [], "it hangs", .restartDeployment⟩, ⟨"payment", [], "too few", .scaleDeployment 2⟩], [], none⟩

/-- The executor crashes between the two actions; another one goes on with the second. -/
def recovered : List Step :=
  planned (settings .R2) growth cluster ++ [claim (executor (settings .R2)) 1] ++
    acts (.job ⟨3, 1⟩) (List.replicate 14 (accepted 1)) ++ [.kill (.job ⟨3, 1⟩)] ++ retried 19

/-- The restart needs an approval, and gets it. -/
def approving : List Step :=
  planned (settings .R1) restart cluster ++
    [.env (.request 1 (.decide "t" 0 "ann" .approve (Plans.planHash id 0 1 restart) "" (settings .R1)))] ++
    acts (.request 1) (plain 4 1)

end Sample

end Blackboard
