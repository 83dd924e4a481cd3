import Blackboard.Spec.Core

/-! The remediation part of the state machine, in the database: a plan is submitted, decided
on, and either executed or given up. A plan, its verdict, the state moves, the audit rows and
the follow-up job commit together or not at all. -/

namespace Blackboard

namespace Flow

def policyContext (incident : Incident) (evidence : String → Option EvidenceRef) (dx : Option Diagnosis)
    (settings : Settings) (now : Time) : PolicyContext :=
  { incidentService := incident.service
    rootCauses := match dx with
      | some d => d.rootCauses.map fun rc => (rc.service, rc.confidence)
      | none => []
    evidence
    namespace_ := settings.k8sNamespace
    allowedTargets := settings.remediationTargets
    minConfidence := settings.remediationMinConfidence
    autoMaxRisk := settings.remediationAutoMaxRisk
    changeWindow := settings.remediationChangeWindow
    now }

/-- The policy's verdict on a plan for this incident, now, with what it was given. -/
def review (incidentId : ℕ) (incident : Incident) (plan : RemediationPlan) (settings : Settings) :
    Handler (PolicyContext × Decision) := do
  let dx ← select fun db => db.diagnosis incidentId
  let context ← look fun i c =>
    .ok (policyContext incident (c.db.evidenceOf incidentId) dx settings i.now)
  return (context, Policy.evaluate CATALOGUE plan context)

def planLine (plan : RemediationPlan) : String :=
  if plan.actions.isEmpty then "no action proposed: " ++ plan.noActionReason.getD "none given"
  else "proposed: " ++ String.intercalate ", " (plan.actions.map Action.line)

/-- A job of the plan, once per plan and kind. -/
def job (incidentId : ℕ) (incident : Incident) (kind : Kind) (planId : ℕ) (settings : Settings)
    (delayS : Time) : Enqueue :=
  { tenantId := incident.tenantId, incidentId := some incidentId, kind, payload := ⟨some planId⟩,
    priority := incident.priority, maxAttempts := settings.queueMaxAttempts,
    agingStepS := settings.queueAgingStepS, idempotencyKey := some (.plan planId kind), delayS }

/-- `_enqueue` -/
def enqueue (now : Time) (incidentId : ℕ) (incident : Incident) (kind : Kind) (planId : ℕ)
    (settings : Settings) (delayS : Time) : Tx (Option ℕ) :=
  Tx.enqueue now (job incidentId incident kind planId settings delayS)

/-- Everything `submit` writes. -/
def submitted (now : Time) (settings : Settings) (incidentId : ℕ) (incident : Incident) (row : PlanRow)
    (decision : Decision) (actor : Actor) : Tx (ℕ × State) := do
  let planId ← Tx.insertPlan row
  Tx.append
    { actor, subject := .incident incidentId, tenantId := some incident.tenantId,
      event := .remediationPlan planId row.seq row.planHash row.proposedBy (Plans.describe row.plan)
        decision.verdict decision.risk decision.checks }
  let version ← Tx.transition now
    ⟨incidentId, incident.state, .planned, incident.version, actor, cut 500 (planLine row.plan)⟩
  let version ← Tx.transition now
    ⟨incidentId, .planned, .safetyReviewed, version, .policy,
      cut 500 (decision.verdict.name ++ ": " ++ decision.reasons)⟩
  let risk := (decision.risk.map Risk.name).getD "None"
  match decision.verdict with
  | .deny =>
    let reason := if row.plan.actions.isEmpty ∧ row.plan.noActionReason.getD "" ≠ "" then
      row.plan.noActionReason.getD "" else decision.reasons
    let _ ← Tx.transition now
      ⟨incidentId, .safetyReviewed, .escalated, version, .policy,
        cut 500 ("no safe automatic repair: " ++ reason)⟩
    return (planId, .escalated)
  | .requireApproval =>
    let _ ← Tx.transition now
      ⟨incidentId, .safetyReviewed, .awaitingApproval, version, .policy,
        match row.expiresAt with
        | some t => risk ++ " plan " ++ cut 12 row.planHash ++ " needs an approval by " ++ Text.clock t ++ " UTC"
        | none => "needs an approval"⟩
    let _ ← enqueue now incidentId incident .approvalTimeout planId settings settings.remediationApprovalTtlS
    return (planId, .awaitingApproval)
  | .allow =>
    let _ ← Tx.transition now
      ⟨incidentId, .safetyReviewed, .executing, version, .policy,
        risk ++ " plan " ++ cut 12 row.planHash ++ " is allowed without an approval"⟩
    let _ ← enqueue now incidentId incident .execute planId settings 0
    return (planId, .executing)

/-- Record a plan and the policy's verdict, and move the incident on. `finish` commits the
transaction this is part of. Returns the plan and the new state. -/
def submit (sha256 : String → String) (incidentId : ℕ) (incident : Incident) (plan : RemediationPlan)
    (proposedBy actor : Actor) (settings : Settings)
    (finish : (Input → Tx (ℕ × State)) → Handler (ℕ × State)) : Handler (ℕ × State) := do
  let (_, decision) ← review incidentId incident plan settings
  let maxSeq ← select fun db => db.maxSeq incidentId
  let expires ← clock
  finish fun i => submitted i.now settings incidentId incident
    { tenantId := incident.tenantId, incidentId, seq := 1 + maxSeq, proposedBy, plan,
      planHash := Plans.planHash sha256 incidentId (1 + maxSeq) plan,
      verdict := decision.verdict, risk := decision.risk, checks := decision.checks,
      expiresAt := if decision.verdict = .requireApproval then
        some (expires + settings.remediationApprovalTtlS) else none,
      createdAt := i.now } decision actor

/-- What a caller of the API sends to decide on a plan. -/
structure Ballot where
  approver : Actor
  decision : ApprovalDecision
  hashSeen : String
  comment : String

/-- The row of the decision. -/
def vote (now : Time) (incidentId : ℕ) (incident : Incident) (planId : ℕ) (plan : PlanRow) (b : Ballot) : Approval :=
  { tenantId := incident.tenantId, incidentId, planId, planHash := plan.planHash, approver := b.approver,
    decision := b.decision, comment := b.comment, createdAt := now }

/-- Everything `decide` writes. -/
def decided (now : Time) (settings : Settings) (incidentId : ℕ) (incident : Incident) (planId : ℕ)
    (plan : PlanRow) (b : Ballot) : Tx State := do
  let inserted ← Tx.insertApproval (vote now incidentId incident planId plan b)
  if !inserted then Tx.raise (.approvalRefused 409 "this plan has already been decided")
  Tx.append
    { actor := b.approver, subject := .incident incidentId, tenantId := some incident.tenantId,
      event := match b.decision with
        | .approve => .remediationApproved planId plan.planHash b.comment
        | .reject => .remediationRejected planId plan.planHash b.comment }
  match b.decision with
  | .approve =>
    let _ ← Tx.transition now
      ⟨incidentId, .awaitingApproval, .executing, incident.version, b.approver,
        "plan " ++ cut 12 plan.planHash ++ " approved"⟩
    let _ ← enqueue now incidentId incident .execute planId settings 0
    return .executing
  | .reject =>
    let _ ← Tx.transition now
      ⟨incidentId, .awaitingApproval, .escalated, incident.version, b.approver,
        cut 500 ("plan " ++ cut 12 plan.planHash ++ " rejected: " ++ b.comment)⟩
    return .escalated

/-- A human's approval or rejection of the plan waiting for one. `finish` commits, knowing the
plan and the time it was checked at. Returns the new state. -/
def decide (incidentId : ℕ) (incident : Incident) (b : Ballot) (settings : Settings)
    (finish : ℕ → Time → (Input → Tx State) → Handler State) : Handler State := do
  if incident.state ≠ .awaitingApproval then
    throw (.approvalRefused 409 ("the incident is " ++ incident.state.name ++ ", not waiting for an approval"))
  match ← select fun db => db.currentPlan incidentId with
  | none => throw (.approvalRefused 409 "no plan is waiting for an approval")
  | some (planId, plan) =>
    if plan.verdict ≠ .requireApproval then
      throw (.approvalRefused 409 "no plan is waiting for an approval")
    if b.hashSeen ≠ plan.planHash then
      throw (.approvalRefused 409 "the plan changed since you looked at it; review the current plan")
    let now ← clock
    if plan.expiresAt.any (· ≤ now) then
      throw (.approvalRefused 409 "the approval window for this plan has closed")
    if b.decision = .approve ∧ b.approver = plan.proposedBy then
      throw (.approvalRefused 403 "a plan cannot be approved by the person who proposed it")
    finish planId now fun i => decided i.now settings incidentId incident planId plan b

end Flow

end Blackboard
