import Blackboard.Spec.Incidents
import Blackboard.Lib.Json

/-! The audit log: who did what, as the program writes it. -/

namespace Blackboard

/-- The actors the program writes. A webhook is written under the caller's subject. -/
inductive Actor
  | worker (id : String) | executor (id : String) | planner | policy | verifier
  | user (subject : String) | webhook (subject : String)
deriving DecidableEq, Repr

def Actor.text : Actor → String
  | .worker id => "worker:" ++ id
  | .executor id => "executor:" ++ id
  | .planner => "agent:planner"
  | .policy => "policy"
  | .verifier => "verifier"
  | .user s => "user:" ++ s
  | .webhook s => s

/-- `str(incident_id)`, or `job:<id>`. -/
inductive Subject
  | incident (id : ℕ) | job (id : ℕ)
deriving DecidableEq, Repr

inductive Verdict
  | allow | requireApproval | deny
deriving DecidableEq, Repr

inductive Risk
  | R0 | R1 | R2 | R3 | R4
deriving DecidableEq, Repr

/-- A check of the policy, as it is stored with the plan. -/
structure Check where
  name : String
  ok : Bool
  detail : String
  blocking : Bool := true
  action : Option ℕ := none
deriving DecidableEq, Repr

/-- The value of an SLI. Prometheus also answers with infinities; NaN is read as no data. -/
inductive Sli
  | num (q : ℚ) | inf | negInf
deriving DecidableEq, Repr

def Sli.below (bound : ℚ) : Sli → Bool
  | .num q => q < bound
  | .inf => false
  | .negInf => true

/-- One reading of the verify job; `value` is none when there is no data. -/
structure Sample where
  takenAt : Time
  value : Option Sli
  note : String
deriving DecidableEq, Repr

/-- The events with their payloads. -/
inductive Event
  | incidentCreated (title service environment : String) (priority : ℕ)
  | incidentTransition (fromState toState : State) (version : ℕ) (reason : String)
  | remediationPlan (planId seq : ℕ) (planHash : String) (proposedBy : Actor) (actions : List Json)
      (verdict : Verdict) (risk : Option Risk) (checks : List Check)
  | remediationApproved (planId : ℕ) (planHash comment : String)
  | remediationRejected (planId : ℕ) (planHash comment : String)
  | executionStarted (planId action : ℕ) (summary : String) (dryRun before : Json)
  | executionSucceeded (planId action : ℕ) (summary : String) (after : Json)
  | verification (passed : Bool) (reason : String) (samples : List Sample)
  /-- `kind` and `attempts` are missing when the reaper writes it. -/
  | jobDead (kind : Option Kind) (attempts : Option ℤ) (error : String)

def Event.name : Event → String
  | .incidentCreated .. => "incident.created"
  | .incidentTransition .. => "incident.transition"
  | .remediationPlan .. => "remediation.plan"
  | .remediationApproved .. => "remediation.approved"
  | .remediationRejected .. => "remediation.rejected"
  | .executionStarted .. => "execution.started"
  | .executionSucceeded .. => "execution.succeeded"
  | .verification passed .. => if passed then "verification.passed" else "verification.failed"
  | .jobDead .. => "job.dead"

/-- What `append` is given. -/
structure AuditEntry where
  actor : Actor
  event : Event
  subject : Subject
  tenantId : Option String := none

/-- The arguments of `transition`. -/
structure Transition where
  incident : ℕ
  fromState : State
  toState : State
  expectedVersion : ℕ
  actor : Actor
  reason : String

namespace Incidents

def transitionEntry (m : Transition) (tenantId : String) (version : ℕ) : AuditEntry :=
  { actor := m.actor, event := .incidentTransition m.fromState m.toState version m.reason,
    subject := .incident m.incident, tenantId := some tenantId }

end Incidents

end Blackboard
