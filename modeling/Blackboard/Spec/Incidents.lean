import Blackboard.Spec.Base

/-! Incidents: the state machine, the row, and what the statements against the table do to
one row. -/

namespace Blackboard

inductive State
  | received | triaged | investigating | diagnosed | planned | safetyReviewed
  | awaitingApproval | executing | verifying | resolved | escalated
deriving DecidableEq, Repr

def State.name : State → String
  | .received => "RECEIVED"
  | .triaged => "TRIAGED"
  | .investigating => "INVESTIGATING"
  | .diagnosed => "DIAGNOSED"
  | .planned => "PLANNED"
  | .safetyReviewed => "SAFETY_REVIEWED"
  | .awaitingApproval => "AWAITING_APPROVAL"
  | .executing => "EXECUTING"
  | .verifying => "VERIFYING"
  | .resolved => "RESOLVED"
  | .escalated => "ESCALATED"

namespace Incidents

def TERMINAL : List State := [.resolved, .escalated]

/-- Allowed moves; `escalated` is reachable from every state that is not terminal. -/
def TRANSITIONS : State → List State
  | .received => [.triaged]
  | .triaged => [.investigating]
  | .investigating => [.diagnosed]
  | .diagnosed => [.planned, .investigating]
  | .planned => [.safetyReviewed]
  | .safetyReviewed => [.awaitingApproval, .executing]
  | .awaitingApproval => [.executing, .planned]
  | .executing => [.verifying]
  | .verifying => [.resolved]
  | .resolved | .escalated => []

def checkTransition (fromState toState : State) : Except Err Unit :=
  if TERMINAL.contains fromState then .error (.illegalTransition (fromState.name ++ " is terminal"))
  else if toState ≠ .escalated ∧ ¬ (TRANSITIONS fromState).contains toState then
    .error (.illegalTransition (fromState.name ++ " -> " ++ toState.name))
  else .ok ()

end Incidents

/-- A row of `incidents`. Its id is its position. -/
structure Incident where
  tenantId : String
  fingerprint : String
  title : String
  service : String
  environment : String
  priority : ℕ
  state : State := .received
  version : ℕ := 1
  alertCount : ℕ := 1
  labels : List (String × String)
  createdAt : Time
  updatedAt : Time
  closedAt : Option Time := none
deriving DecidableEq, Repr

/-- The arguments of `open_or_merge`. -/
structure Opening where
  tenantId : String
  fingerprint : String
  title : String
  service : String
  environment : String
  priority : ℕ
  labels : List (String × String)
deriving DecidableEq, Repr

namespace Incidents

/-- The row of INSERT, with the column defaults. -/
def opened (now : Time) (o : Opening) : Incident :=
  { tenantId := o.tenantId, fingerprint := o.fingerprint, title := o.title, service := o.service,
    environment := o.environment, priority := o.priority, labels := o.labels,
    createdAt := now, updatedAt := now }

/-- The rows of the partial unique index: same tenant and fingerprint, not closed. -/
def openFor (o : Opening) (i : Incident) : Bool :=
  i.tenantId = o.tenantId && i.fingerprint = o.fingerprint && i.closedAt.isNone

def merged (now : Time) (o : Opening) (i : Incident) : Incident :=
  { i with alertCount := i.alertCount + 1, priority := min i.priority o.priority, updatedAt := now }

/-- The UPDATE of the merge, on any row. -/
def mergedIf (now : Time) (o : Opening) (i : Incident) : Incident :=
  if openFor o i then merged now o i else i

/-- The WHERE of the UPDATE in `transition`. -/
def isAt (fromState : State) (version : ℕ) (i : Incident) : Bool :=
  i.state = fromState && i.version = version

def moved (now : Time) (toState : State) (i : Incident) : Incident :=
  { i with state := toState, version := i.version + 1, updatedAt := now,
           closedAt := if TERMINAL.contains toState then some now else i.closedAt }

end Incidents

end Blackboard
