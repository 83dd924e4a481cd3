import Blackboard.Spec.Flow

/-! The worker's job handlers. Each may run more than once for the same job. The agents and
their model are outside: `Input` says what an investigation or the planner comes to. -/

namespace Blackboard

namespace Handlers

def noIncident (kind : String) : Err := .permanentJobError (kind ++ " job without incident_id")

def notFound (id : ℕ) : Err := .permanentJobError ("incident " ++ toString id ++ " not found")

/-- A job of an incident, once per incident and kind. -/
def job (incidentId : ℕ) (tenantId : String) (priority : ℕ) (kind : Kind) (settings : Settings) : Enqueue :=
  { tenantId, incidentId := some incidentId, kind, priority, maxAttempts := settings.queueMaxAttempts,
    agingStepS := settings.queueAgingStepS, idempotencyKey := some (.incident incidentId kind) }

def enqueue (now : Time) (incidentId : ℕ) (tenantId : String) (priority : ℕ) (kind : Kind)
    (settings : Settings) : Tx (Option ℕ) :=
  Tx.enqueue now (job incidentId tenantId priority kind settings)

/-- RECEIVED -> TRIAGED, and queue the investigation. -/
def triage (ctx : JobContext) : Handler Unit := do
  match ctx.job.incidentId with
  | none => throw (noIncident "triage")
  | some id =>
    ctx.assertFence
    match ← select fun db => db.incidents.get? id with
    | none => throw (notFound id)
    | some incident =>
      if incident.state ≠ .received then
        return  -- an earlier attempt already did it
      ctx.commit fun i => do
        let _ ← Tx.transition i.now ⟨id, .received, .triaged, incident.version, .worker ctx.workerId,
          "accepted for investigation"⟩
        if ctx.settings.autoInvestigate then
          let _ ← enqueue i.now id incident.tenantId incident.priority .investigate ctx.settings

/-- The first transaction of the investigation; INVESTIGATING is the resume point. Returns the
incident as it was read and its version now, or none when there is nothing left to do. -/
def startInvestigation (ctx : JobContext) (id : ℕ) : Handler (Option (Incident × ℕ)) := do
  ctx.assertFence
  match ← select fun db => db.incidents.get? id with
  | none => throw (notFound id)
  | some incident =>
    if incident.state = .triaged then
      let version ← ctx.commit fun i =>
        Tx.transition i.now ⟨id, .triaged, .investigating, incident.version, .worker ctx.workerId,
          "investigation started"⟩
      return some (incident, version)
    else if incident.state = .investigating then
      return some (incident, incident.version)  -- a rerun: resume from the checkpoints
    else return none  -- already diagnosed, escalated or closed

/-- What the handler makes of a model that fails: the last attempt, and an error that a retry
does not help, escalate. -/
def outcomeOf (job : Job) : Except Err Outcome → Except Err Outcome
  | .ok o => .ok o
  | .error (.llmError m retryable) =>
    if retryable = false ∨ job.maxAttempts ≤ job.attempts then
      .ok ⟨none, some ("the model was unavailable: " ++ m)⟩
    else .error (.llmError m retryable)
  | .error e => .error e

/-- TRIAGED -> INVESTIGATING -> DIAGNOSED (and queue the plan job), or ESCALATED. -/
def investigate (ctx : JobContext) : Handler Unit := do
  match ctx.job.incidentId with
  | none => throw (noIncident "investigate")
  | some id =>
    match ← startInvestigation ctx id with
    | none => return
    | some (incident, version) =>
      let outcome ← look fun i _ => outcomeOf ctx.job i.outcome
      ctx.assertFence
      match outcome.escalate, outcome.diagnosis with
      | none, some ⟨top :: _⟩ =>
        ctx.commit fun i => do
          let _ ← Tx.transition i.now ⟨id, .investigating, .diagnosed, version, .worker ctx.workerId,
            cut 500 ("root cause candidate: " ++ top.service ++ " (" ++ Text.percent top.confidence ++ "): " ++
              top.cause)⟩
          if ctx.settings.autoRemediate then
            let _ ← enqueue i.now id incident.tenantId incident.priority .plan ctx.settings
      | none, some ⟨[]⟩ => throw (.exception "IndexError: list index out of range")
      | escalate, _ =>
        ctx.commit fun i => do
          let _ ← Tx.transition i.now ⟨id, .investigating, .escalated, version, .worker ctx.workerId,
            cut 500 (escalate.getD "no diagnosis")⟩

/-- A rate limit or an outage is retried while there are attempts left. -/
def proposalOf (job : Job) : Except Err Proposal → Except Err Proposal
  | .ok p => .ok p
  | .error (.llmError m retryable) =>
    if retryable = true ∧ job.attempts < job.maxAttempts then .error (.llmError m retryable)
    else .ok ⟨none, some ("the model was unavailable: " ++ m)⟩
  | .error e => .error e

/-- The planner's proposal, asked for outside any transaction. -/
def propose (ctx : JobContext) : Option Diagnosis → Handler Proposal
  | none => return ⟨none, some "there is no diagnosis to plan from"⟩
  | some _ => look fun i _ => proposalOf ctx.job i.proposal

/-- DIAGNOSED -> (planner) -> PLANNED -> SAFETY_REVIEWED -> EXECUTING, AWAITING_APPROVAL or
ESCALATED. -/
def plan (sha256 : String → String) (ctx : JobContext) : Handler Unit := do
  match ctx.job.incidentId with
  | none => throw (noIncident ctx.job.kind.name)
  | some id =>
    match ← select fun db => db.incidents.get? id with
    | none => throw (notFound id)
    | some incident =>
      if incident.state ≠ .diagnosed then
        return
      let dx ← select fun db => db.diagnosis id
      let proposal ← propose ctx dx
      ctx.assertFence
      match ← select fun db => db.incidents.get? id with
      | none => return
      | some incident =>
        if incident.state ≠ .diagnosed then
          return
        match proposal.plan with
        | none =>
          ctx.commit fun i => do
            let _ ← Tx.transition i.now ⟨id, .diagnosed, .escalated, incident.version, .planner,
              cut 500 ("no repair plan: " ++ proposal.error.getD "None")⟩
        | some p =>
          let _ ← Flow.submit sha256 id incident p .planner .planner ctx.settings ctx.commit

/-- A plan nobody decided on in time: the incident goes to a human. -/
def approvalTimeout (ctx : JobContext) : Handler Unit := do
  match ctx.job.incidentId with
  | none => throw (noIncident ctx.job.kind.name)
  | some id =>
    ctx.assertFence
    match ← select fun db => db.incidents.get? id with
    | none => return
    | some incident =>
      if incident.state ≠ .awaitingApproval then
        return
      match ← select fun db => db.currentPlan id with
      | none => return
      | some (planId, plan) =>
        if ctx.job.payload.planId ≠ some planId then
          return  -- revised since
        if (← select fun db => db.approval planId).isSome then
          return  -- decided since
        ctx.commit (fun i => do
          let _ ← Tx.transition i.now ⟨id, .awaitingApproval, .escalated, incident.version, .policy,
            "plan " ++ cut 12 plan.planHash ++ " was not approved within " ++
              Text.fixed0 (ctx.settings.remediationApprovalTtlS / 60) ++ " minutes"⟩)
          fun _ _ c => { c.hist with timedOut := ctx.job.payload.planId.toList ++ c.hist.timedOut }

/-- The SLI check of an alert's `slo` label. -/
structure SliCheck where
  name : String
  healthyBelow : ℚ
  unit : String

def checkFor (labels : List (String × String)) : Option SliCheck :=
  match labels.lookup "slo" with
  | some "availability" => some ⟨"error ratio over 1m", 6 / 100, "ratio"⟩
  | some "latency" => some ⟨"p95 over 1m", 1000, "ms"⟩
  | _ => none

def shown : Option Sli → String
  | none => "no data"
  | some (.num q) => Text.general 3 q
  | some .inf => "inf"
  | some .negInf => "-inf"

/-- VERIFYING -> RESOLVED, or ESCALATED. -/
def verified (ctx : JobContext) (id : ℕ) (ok : Bool) (reason : String) (samples : List Sample)
    (plan : Option (ℕ × PlanRow)) : Handler Unit := do
  let reason := match plan with
    | some (_, p) =>
      if !ok && !p.plan.actions.isEmpty then
        reason ++ ". " ++ String.intercalate "; " (p.plan.actions.map fun a =>
          a.line ++ " can be undone: " ++ ((CATALOGUE a.kind).map ActionInfo.inverse).getD "")
      else reason
    | none => reason
  ctx.assertFence
  match ← select fun db => db.incidents.get? id with
  | none => return
  | some incident =>
    if incident.state ≠ .verifying then
      return
    ctx.commit fun i => do
      Tx.append
        { actor := .verifier, subject := .incident id, tenantId := some incident.tenantId,
          event := .verification ok reason (samples.drop (samples.length - 20)) }
      let _ ← Tx.transition i.now ⟨id, .verifying, if ok then .resolved else .escalated, incident.version,
        .verifier, cut 500 reason⟩

/-- One reading of the SLI after another, until it was healthy often enough or the deadline has
passed. The job timeout ends the loop after some number of rounds. -/
def watch (ctx : JobContext) (id : ℕ) (service : String) (check : SliCheck) (deadline : Time)
    (plan : Option (ℕ × PlanRow)) : ℕ → List Sample → ℕ → Handler Unit
  | 0, _, _ => throw (.exception "TimeoutError: ")
  | rounds + 1, samples, streak => do
    let (value, note, now) ← look fun i _ =>
      match i.sli with
      | .ok v => .ok (v, "", i.now)
      | .error m => .ok (none, m, i.now)
    let healthy := value.any (Sli.below check.healthyBelow)
    let streak := if healthy then streak + 1 else 0
    let samples := samples ++ [⟨now, value, note⟩]
    if ctx.settings.verifyHealthyChecks ≤ streak then
      verified ctx id true (service ++ " " ++ check.name ++ " is " ++ shown value ++ " " ++ check.unit ++ ", below " ++
        Text.general 6 check.healthyBelow ++ ", for " ++ toString streak ++ " checks in a row") samples plan
    else
      let now ← clock
      if deadline ≤ now then
        verified ctx id false (service ++ " " ++ check.name ++ " still " ++ shown value ++ " " ++ check.unit ++
          " (healthy below " ++ Text.general 6 check.healthyBelow ++ ") " ++
          Text.fixed0 (ctx.settings.verifyTimeoutS / 60) ++ " minutes after the repair") samples plan
      else watch ctx id service check deadline plan rounds samples streak

/-- The deadline counts from entering VERIFYING, so a rerun of this job keeps it. -/
def verify (ctx : JobContext) (prometheus : Bool) : Handler Unit := do
  match ctx.job.incidentId with
  | none => throw (noIncident ctx.job.kind.name)
  | some id =>
    match ← select fun db => db.incidents.get? id with
    | none => return
    | some incident =>
      if incident.state ≠ .verifying then
        return
      let plan ← select fun db => db.currentPlan id
      match checkFor incident.labels with
      | none =>
        verified ctx id false ("the repair cannot be verified: no SLI check for slo=" ++
          (match incident.labels.lookup "slo" with
            | some slo => "'" ++ slo ++ "'"
            | none => "None")) [] plan
      | some check =>
        if prometheus then
          let rounds ← look fun i _ => .ok i.rounds
          watch ctx id incident.service check
            (incident.updatedAt + (ctx.settings.verifySettleS + ctx.settings.verifyTimeoutS)) plan rounds [] 0
        else verified ctx id false "the repair cannot be verified: no Prometheus" [] plan

end Handlers

end Blackboard
