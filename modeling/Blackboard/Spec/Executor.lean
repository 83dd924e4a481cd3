import Blackboard.Spec.Handlers
import Blackboard.Spec.K8s

/-! The execute job. It checks again that the plan may run, and runs each action at most once:
the row in `executions` is committed before the real patch is sent, and a rerun that finds it
still started marks it unknown and escalates instead of sending the patch again. -/

namespace Blackboard

open Threads

namespace Executor

/-- Why the decision on the plan does not let it run. -/
def badApproval (plan : PlanRow) : Option Approval → Option String
  | none => some "it needs an approval and has none"
  | some a =>
    if a.decision ≠ .approve then some "it needs an approval and has none"
    else if a.planHash ≠ plan.planHash then some "the approval is for a different plan"
    else if a.approver = plan.proposedBy then some "it was approved by its own author"
    else none

/-- Why this plan must not run now, or what was checked if it may. -/
def refusal (ctx : JobContext) (id : ℕ) (incident : Incident) (since : ℕ) :
    Option (ℕ × PlanRow) → Handler (Except String Checked)
  | none => return .error "there is no plan"
  | some (planId, plan) => do
    if ctx.job.payload.planId ≠ some planId then
      return .error ("the job is for plan " ++ (ctx.job.payload.planId.map toString).getD "None" ++
        ", the current plan is " ++ toString planId)
    if plan.verdict = .deny then
      return .error "the policy denied this plan"
    let (context, decision) ← Flow.review id incident plan.plan ctx.settings
    if decision.verdict = .deny then
      return .error ("the policy denies it now: " ++ decision.reasons)
    if plan.verdict = .requireApproval ∨ decision.verdict = .requireApproval then
      let approval ← select fun db => db.approval planId
      match badApproval plan approval with
      | some why => return .error why
      | none => return .ok { since, incident, planId, plan, settings := ctx.settings, context, decision, approval }
    else
      return .ok { since, incident, planId, plan, settings := ctx.settings, context, decision, approval := none }

/-- How to undo the actions of the incident's plan, after the reason. -/
def withUndo (reason : String) (plan : Option (ℕ × PlanRow)) : String :=
  let undo := match plan with
    | some (_, p) => String.intercalate "; " (p.plan.actions.map fun a =>
        "to undo " ++ a.kind.name ++ ": " ++ ((CATALOGUE a.kind).map ActionInfo.inverse).getD "")
    | none => ""
  if undo = "" then reason else reason ++ ". " ++ undo

/-- `_escalate`. `plan` says whether the reason tells how to undo the plan. -/
def escalate (ctx : JobContext) (id : ℕ) (actor : Actor) (reason : String) (plan : Bool) : Handler Unit := do
  ctx.assertFence
  match ← select fun db => db.incidents.get? id with
  | none => return
  | some current =>
    if Incidents.TERMINAL.contains current.state then
      return
    let plan ← if plan then select fun db => db.currentPlan id else pure none
    ctx.commit fun i => do
      let _ ← Tx.transition i.now ⟨id, current.state, .escalated, current.version, actor,
        cut 500 (withUndo reason plan)⟩

/-- `_record`: INSERT the row of an action. -/
def record (ctx : JobContext) (checked : Checked) (id index : ℕ) (action : Action) (status : ExecStatus)
    (dryRun before : Json) (error : Option String) : Handler Unit :=
  ctx.commit (fun i => Tx.insertExecution
    { tenantId := checked.incident.tenantId, incidentId := id, planId := checked.planId, actionIndex := index,
      action, status, executor := .executor ctx.workerId, dryRun, before, after := .null, error,
      startedAt := i.now, finishedAt := if status = .started then none else some i.now,
      insertedBy := ctx.attempt, insertedAs := status })
    fun _ _ c => if status = .started then
      { c.hist with owed := (ctx.attempt, checked.planId, index, false) :: c.hist.owed } else c.hist

/-- `_finish`: UPDATE the row with the outcome. -/
def finish (ctx : JobContext) (planId index : ℕ) (status : ExecStatus) (after : Json) (error : Option String) :
    Handler Unit :=
  ctx.commit (fun i => Tx.updateExecution planId index fun e =>
    { e with status, after, error, finishedAt := some i.now })
    fun _ _ c => if status = .succeeded then
      { c.hist with owed := (ctx.attempt, planId, index, true) :: c.hist.owed } else c.hist

/-- A row an earlier attempt left `started`. -/
def markUnknown (ctx : JobContext) (planId index : ℕ) : Handler Unit :=
  ctx.commit fun i => Tx.updateExecution planId index fun e =>
    { e with status := .unknown, finishedAt := some i.now,
             error := some "the executor stopped while the change was being sent" }

def executionEvent (ctx : JobContext) (checked : Checked) (id : ℕ) (event : Event) : AuditEntry :=
  { actor := .executor ctx.workerId, event, subject := .incident id,
    tenantId := some checked.incident.tenantId }

/-- The audit row of the intent. -/
def auditStarted (ctx : JobContext) (checked : Checked) (id index : ℕ) (p : Prepared) (dryRun : Json) :
    Handler Unit :=
  ctx.commit (fun _ => Tx.append (executionEvent ctx checked id
    (.executionStarted checked.planId index p.summary dryRun p.before)))
    fun i _ c => { c.hist with
      owed := c.hist.owed.filter (· ≠ (ctx.attempt, checked.planId, index, false))
      ready := if p.noop || i.fault.isSome then c.hist.ready else ctx.attempt :: c.hist.ready }

def auditSucceeded (ctx : JobContext) (checked : Checked) (id index : ℕ) (p : Prepared) (after : Json) :
    Handler Unit :=
  ctx.commit (fun _ => Tx.append (executionEvent ctx checked id
    (.executionSucceeded checked.planId index p.summary after)))
    fun _ _ c => { c.hist with
      owed := c.hist.owed.filter (· ≠ (ctx.attempt, checked.planId, index, true)) }

/-- The PATCH. A fault before it goes out leaves it unsent; there is no fence on the way. -/
def patch (ctx : JobContext) (checked : Checked) (id index : ℕ) (action : Action) (p : Prepared) :
    Handler Json :=
  ExceptT.mk (Prog.lift fun i c =>
    let quiet := { c.hist with ready := c.hist.ready.filter (· ≠ ctx.attempt) }
    let sent := { quiet with sent := c.hist.sent ++
      [{ attempt := ctx.attempt, planId := checked.planId, index, action, prepared := p, checked,
         held := Jobs.holds ctx.job c.db.jobs,
         state := (c.db.incidents.get? id).map Incident.state,
         answer := if i.fault.isSome then none else some i.reply }] }
    match i.fault with
    | none => (K8s.answer .patch (K8s.path ctx.settings.k8sNamespace p.deployment) i.reply, { c with hist := sent })
    | some x => (.error x.err, { c with hist := if i.late then sent else quiet }))

/-- `_apply` -/
def apply (ctx : JobContext) (checked : Checked) (id index : ℕ) (action : Action) (p : Prepared) :
    Handler Json := do
  if p.noop then
    return .obj [("noop", .bool true), ("summary", .str p.summary)]
  let result ← patch ctx checked id index action p
  let generation ← K8s.ofExcept (K8s.need result ["metadata", "generation"])
  let rollout ← look fun i _ =>
    match K8s.answer .get (K8s.path ctx.settings.k8sNamespace p.deployment) i.reply with
    | .ok j => .ok j
    -- applied: the API said so; only watching the rollout failed
    | .error (.execError m _) => .ok (.obj [("rolled_out", .null), ("error", .str m)])
    | .error e => .error e
  return .obj (("generation", generation) :: match rollout with | .obj ms => ms | _ => [])

/-- Step 1: work out the change and let the API server check it, without applying it. -/
def prepare (ns : String) (action : Action) (note : String) : Handler (Prepared × Json) := do
  let p ← K8s.prepare ns action note
  if p.ops.isEmpty then
    return (p, .null)
  let dry ← look fun i _ => K8s.answer .patch (K8s.path ns p.deployment) i.reply
  return (p, .obj [("accepted", .bool true),
    ("generation", ((dry.path? ["metadata", "generation"]).getD .null))])

/-- One action of the plan; whether to go on with the next. -/
def runAction (ctx : JobContext) (checked : Checked) (id index : ℕ) (action : Action) (note : String) :
    Handler Bool := do
  let me := Actor.executor ctx.workerId
  match ← select fun db => (db.execution checked.planId index).map Execution.status with
  | some .succeeded => return true  -- an earlier attempt finished this action
  | some status =>
    if status = .started then
      markUnknown ctx checked.planId index
    escalate ctx id me (action.line ++ ": outcome unknown after an interrupted attempt; check the cluster") true
    return false
  | none =>
    match ← attempt (prepare ctx.settings.k8sNamespace action note) with
    | .error (.execError e _) =>
      record ctx checked id index action .failed .null .null (some e)
      escalate ctx id me (action.line ++ " failed before any change: " ++ e) true
      return false
    | .error e => throw e
    | .ok (p, dryRun) =>
      -- 2. commit the intent, then send the change; from here on a crash means "unknown"
      record ctx checked id index action .started dryRun p.before none
      auditStarted ctx checked id index p dryRun
      match ← attempt (apply ctx checked id index action p) with
      | .error (.execError e applied) =>
        let status := if applied = none then ExecStatus.unknown else .failed
        finish ctx checked.planId index status .null (some e)
        escalate ctx id me (p.summary ++ ": " ++ (if applied = none then "unknown" else "failed") ++ ": " ++ e) true
        return false
      | .error e => throw e
      | .ok after =>
        finish ctx checked.planId index .succeeded after none
        auditSucceeded ctx checked id index p after
        return true

/-- The actions in order, as long as each succeeds. -/
def runActions (ctx : JobContext) (checked : Checked) (id : ℕ) (note : String) :
    List (Action × ℕ) → Handler Bool
  | [] => return true
  | (action, index) :: rest => do
    if ← runAction ctx checked id index action note then
      runActions ctx checked id note rest
    else return false

/-- EXECUTING -> VERIFYING, and queue the verification. -/
def executed (ctx : JobContext) (checked : Checked) (id : ℕ) : Handler Unit := do
  ctx.assertFence
  match ← select fun db => db.incidents.get? id with
  | none => return
  | some current =>
    if current.state ≠ .executing then
      return
    ctx.commit fun i => do
      let _ ← Tx.transition i.now ⟨id, .executing, .verifying, current.version, .executor ctx.workerId,
        "plan " ++ cut 12 checked.plan.planHash ++ " executed; checking the SLO"⟩
      let _ ← Flow.enqueue i.now id current .verify checked.planId ctx.settings ctx.settings.verifySettleS

def execute (ctx : JobContext) : Handler Unit := do
  match ctx.job.incidentId with
  | none => throw (Handlers.noIncident "execute")
  | some id =>
    let (incident, since) ← look fun _ c => .ok (c.db.incidents.get? id, c.log.length)
    match incident with
    | none => throw (Handlers.notFound id)
    | some incident =>
      if incident.state ≠ .executing then
        return
      let plan ← select fun db => db.currentPlan id
      match ← refusal ctx id incident since plan with
      | .error why =>
        escalate ctx id (.executor ctx.workerId) ("execution refused: " ++ why) false
      | .ok checked =>
        let note := "sre-blackboard: plan " ++ cut 12 checked.plan.planHash ++ " for incident " ++ toString id
        if ← runActions ctx checked id note checked.plan.plan.actions.zipIdx then
          executed ctx checked id

end Executor

end Blackboard
