import Blackboard.Spec.Store
import Blackboard.Spec.System

/-! `app.ingest` statement by statement: any number of webhook transactions at once, among
transactions that move and close incidents. Statements see and lock what `Store` says; a step
that has to wait is not possible, and `waitsFor` says for whom it waits. -/

namespace Blackboard.Ingest

inductive AlertStatus
  | firing | resolved
deriving DecidableEq, Repr

/-- `AlertmanagerAlert`; an alert without a name is refused before anything is written. -/
structure Alert where
  status : AlertStatus
  labels : List (String × String)
  annotations : List (String × String) := []
  startsAt : Option Time := none
  endsAt : Option Time := none
  named : (labels.lookup "alertname").getD "" ≠ ""

structure AlertIdentity where
  title : String
  service : String
  environment : String
  fingerprint : String
deriving DecidableEq, Repr

def PRIORITY_NAMES : List String := ["P0", "P1", "P2", "P3"]

def SEVERITY_PRIORITY : List (String × ℕ) := [("critical", 1), ("high", 1), ("warning", 2), ("info", 3)]

def DEFAULT_PRIORITY : ℕ := 3

/-- `labels.get(k1) or labels.get(k2) or ... or default` -/
def firstOf (labels : List (String × String)) : List String → String → String
  | [], default => default
  | k :: ks, default =>
    match labels.lookup k with
    | some v => if v = "" then firstOf labels ks default else v
    | none => firstOf labels ks default

/-- The first half of the digest of `json.dumps([title, service, environment])`. -/
def fingerprint (sha256 : String → String) (title service environment : String) : String :=
  let raw := '[' :: (Json.quoteAscii title ++ ',' ::
    (Json.quoteAscii service ++ ',' :: (Json.quoteAscii environment ++ [']'])))
  String.ofList ((sha256 (String.ofList raw)).toList.take 32)

/-- Which incident an alert belongs to: same alert name, service and environment. -/
def identify (sha256 : String → String) (labels : List (String × String)) : AlertIdentity :=
  let title := (labels.lookup "alertname").getD ""
  let service := firstOf labels ["service", "service_name", "job"] "unknown"
  let environment := firstOf labels ["environment", "env", "namespace"] "default"
  ⟨title, service, environment, fingerprint sha256 title service environment⟩

/-- No letter outside ASCII becomes one of the letters of these names. -/
def priorityOf (labels : List (String × String)) : ℕ :=
  let explicit := ((labels.lookup "priority").getD "").toUpper
  if PRIORITY_NAMES.contains explicit then PRIORITY_NAMES.idxOf explicit
  else (SEVERITY_PRIORITY.lookup ((labels.lookup "severity").getD "").toLower).getD DEFAULT_PRIORITY

/-- A row of `alerts`. -/
structure AlertRow where
  tenantId : String
  incidentId : Option ℕ
  fingerprint : String
  status : AlertStatus
  labels : List (String × String)
  annotations : List (String × String)
  startsAt : Option Time
  endsAt : Option Time
deriving DecidableEq, Repr

/-- The arguments of `ingest`. -/
structure Webhook where
  tenantId : String
  actor : Actor
  settings : Settings
  alerts : List Alert

/-- An alert with what it was identified as. -/
abbrev Identified := AlertIdentity × Alert

/-- Sorted by fingerprint: a fixed lock order. -/
def Webhook.identified (sha256 : String → String) (h : Webhook) : List Identified :=
  (h.alerts.map fun a => (identify sha256 a.labels, a)).insertionSort fun x y => x.1.fingerprint ≤ y.1.fingerprint

def opening (tenantId : String) (x : Identified) : Opening :=
  { tenantId, fingerprint := x.1.fingerprint, title := x.1.title, service := x.1.service,
    environment := x.1.environment, priority := priorityOf x.2.labels, labels := x.2.labels }

/-- The row of `_record_alert`. -/
def alertRow (tenantId : String) (incidentId : Option ℕ) (x : Identified) : AlertRow :=
  { tenantId, incidentId, fingerprint := x.1.fingerprint, status := x.2.status, labels := x.2.labels,
    annotations := x.2.annotations, startsAt := x.2.startsAt,
    endsAt := if x.2.status = .resolved then x.2.endsAt else none }

/-- Where `ingest` stands with the alert in front. -/
inductive WebhookPc
  | next
  /-- `open_or_merge`, with this many rounds left: before the INSERT, before the UPDATE, and in
  the UPDATE, waiting for the row it found. -/
  | inserting (left : ℕ)
  | merging (left : ℕ)
  | rechecking (id left : ℕ)
  /-- `_on_incident_created`. -/
  | enqueueing (id : ℕ)
  | auditing (id : ℕ)
  /-- `_open_incident_id`, and `_record_alert`. -/
  | looking
  | recording (incidentId : Option ℕ)
  | failed

/-- What other transactions call, of what matters here. -/
inductive Call
  | transition (m : Transition)
  | append (e : AuditEntry)
  | enqueue (e : Enqueue)

inductive OtherPc
  | idle
  | moving (m : Transition)
  | appending (e : AuditEntry)
  | enqueueing (e : Enqueue)

inductive Work
  | webhook (h : Webhook) (todo : List Identified) (pc : WebhookPc)
  | other (pc : OtherPc)
  | ended

/-- A transaction with the rows it inserted. -/
structure Session where
  now : Time
  work : Work
  alerts : List AlertRow := []
  jobs : List Enqueue := []
  audit : List AuditEntry := []

structure Tables where
  slots : Table Slot := .empty
  alerts : List AlertRow := []
  jobs : List Enqueue := []
  audit : List AuditEntry := []
  lock : Option ℕ := none
  sessions : Table Session := .empty
  /-- History: the alerts of the webhooks that committed. -/
  received : List (String × Identified) := []

inductive Op
  | webhook (now : Time) (h : Webhook)
  | begin (now : Time)
  | call (t : ℕ) (c : Call)
  | next (t : ℕ)
  | commit (t : ℕ)
  | rollback (t : ℕ)

/-- Only `_on_incident_created` writes `incident.created` and enqueues triage, and a job is keyed by its own kind. -/
def Call.foreign : Call → Bool
  | .transition _ => true
  | .append e => match e.event with
    | .incidentCreated .. => false
    | _ => true
  | .enqueue e => e.kind ≠ .triage && match e.idempotencyKey with
    | some (.incident _ kind) => kind = e.kind
    | _ => true

namespace Tables

def set (s : Tables) (t : ℕ) (x : Session) : Tables := { s with sessions := s.sessions.modify t fun _ => x }

/-- The open incident of the alert, as a statement of `t` finds it. -/
def findOpen (s : Tables) (t : ℕ) (o : Opening) : Option ℕ := s.slots.rows.findIdx? (Slot.isOpen t o)

def lockedFor (s : Tables) (t id : ℕ) : Bool := (s.slots.get? id).any (Slot.lockedFor t)

/-- The transaction goes on at another place. -/
def goto (s : Tables) (t : ℕ) (x : Session) (h : Webhook) (todo : List Identified) (pc : WebhookPc) : Tables :=
  s.set t { x with work := .webhook h todo pc }

/-- No row was updated: the loop goes round, or gives up with a RuntimeError. -/
def noRow (s : Tables) (t : ℕ) (x : Session) (h : Webhook) (todo : List Identified) (left : ℕ) : Tables :=
  s.goto t x h todo (if 1 < left then .inserting (left - 1) else .failed)

def mergeInto (s : Tables) (t : ℕ) (x : Session) (h : Webhook) (todo : List Identified) (o : Opening) (id : ℕ) :
    Tables :=
  { s with slots := s.slots.modify id (Slot.write t (Incidents.merged x.now o)) }.goto t x h todo (.recording (some id))

/-- A row of `jobs` with this key that another transaction has yet to decide. -/
def keyUndecided (s : Tables) (t : ℕ) (e : Enqueue) : Bool :=
  (s.sessions.select fun u x => u ≠ t && x.jobs.any fun j => j.idempotencyKey = e.idempotencyKey).isEmpty.not

def insertJob (s : Tables) (x : Session) (e : Enqueue) : List Enqueue :=
  if e.idempotencyKey.isSome && (s.jobs ++ x.jobs).any (fun j => j.idempotencyKey = e.idempotencyKey) then x.jobs
  else x.jobs ++ [e]

/-- One statement of `ingest` for the alert in front. -/
def webhookStmt (s : Tables) (t : ℕ) (x : Session) (h : Webhook) (a : Identified) (rest : List Identified) :
    WebhookPc → Option Tables
  | .next => some (s.goto t x h (a :: rest) (if a.2.status = .firing then .inserting 3 else .looking))
  | .inserting left =>
    if s.slots.rows.any (Slot.undecided t (opening h.tenantId a)) then none
    else if s.slots.rows.any (Slot.isOpen t (opening h.tenantId a)) then some (s.goto t x h (a :: rest) (.merging left))
    else
      some ({ s with slots := s.slots.insert { dirty := some (t, Incidents.opened x.now (opening h.tenantId a)) } }.goto
        t x h (a :: rest) (.enqueueing s.slots.size))
  | .merging left =>
    match s.findOpen t (opening h.tenantId a) with
    | none => some (s.noRow t x h (a :: rest) left)
    | some id =>
      if s.lockedFor t id then some (s.goto t x h (a :: rest) (.rechecking id left))
      else some (s.mergeInto t x h (a :: rest) (opening h.tenantId a) id)
  | .rechecking id left =>
    if s.lockedFor t id then none
    else if (s.slots.get? id).any (Slot.isOpen t (opening h.tenantId a)) then
      some (s.mergeInto t x h (a :: rest) (opening h.tenantId a) id)
    else some (s.noRow t x h (a :: rest) left)
  | .enqueueing id =>
    let e := Handlers.job id h.tenantId (priorityOf a.2.labels) .triage h.settings
    if s.keyUndecided t e then none
    else some (s.set t { x with jobs := s.insertJob x e, work := .webhook h (a :: rest) (.auditing id) })
  | .auditing id =>
    if s.lock.any (· ≠ t) then none
    else some ({ s with lock := some t }.set t
      { x with audit := x.audit ++ [Api.createdEntry id (opening h.tenantId a) h.actor],
               work := .webhook h (a :: rest) (.recording (some id)) })
  | .looking => some (s.goto t x h (a :: rest) (.recording (s.findOpen t (opening h.tenantId a))))
  | .recording incidentId =>
    some (s.set t { x with alerts := x.alerts ++ [alertRow h.tenantId incidentId a], work := .webhook h rest .next })
  | .failed => none

/-- The UPDATE of `transition`, then its audit row. -/
def moveStmt (s : Tables) (t : ℕ) (x : Session) (m : Transition) : Option Tables :=
  match (s.slots.get? m.incident).bind (Slot.visible t) with
  | none => some (s.set t { x with work := .other .idle })
  | some i =>
    if Incidents.isAt m.fromState m.expectedVersion i then
      if s.lockedFor t m.incident then none
      else some ({ s with slots := s.slots.modify m.incident (Slot.write t (Incidents.moved x.now m.toState)) }.set t
        { x with work := .other (.appending (Incidents.transitionEntry m i.tenantId (i.version + 1))) })
    else some (s.set t { x with work := .other .idle })

def otherStmt (s : Tables) (t : ℕ) (x : Session) : OtherPc → Option Tables
  | .idle => none
  | .moving m => s.moveStmt t x m
  | .appending e =>
    if s.lock.any (· ≠ t) then none
    else some ({ s with lock := some t }.set t { x with audit := x.audit ++ [e], work := .other .idle })
  | .enqueueing e =>
    if s.keyUndecided t e then none
    else some (s.set t { x with jobs := s.insertJob x e, work := .other .idle })

def call (s : Tables) (t : ℕ) (x : Session) : Call → Option Tables
  | .transition m =>
    match Incidents.checkTransition m.fromState m.toState with
    | .ok _ => some (s.set t { x with work := .other (.moving m) })
    | .error _ => some s
  | .append e => some (s.set t { x with work := .other (.appending e) })
  | .enqueue e => some (s.set t { x with work := .other (.enqueueing e) })

def unlock (s : Tables) (t : ℕ) : Option ℕ := if s.lock = some t then none else s.lock

def close (x : Session) : Session := { now := x.now, work := .ended }

def commit (s : Tables) (t : ℕ) (x : Session) (received : List (String × Identified)) : Tables :=
  { s with slots := s.slots.update fun _ => Slot.settle t, alerts := s.alerts ++ x.alerts, jobs := s.jobs ++ x.jobs,
           audit := s.audit ++ x.audit, lock := s.unlock t, received := s.received ++ received }.set t (close x)

def rollback (s : Tables) (t : ℕ) (x : Session) : Tables :=
  { s with slots := s.slots.update fun _ => Slot.abandon t, lock := s.unlock t }.set t (close x)

/-- `u` wrote the row, and has yet to end. -/
def writtenBy (s : Tables) (u id : ℕ) : Bool := ((s.slots.get? id).bind Slot.dirty).any (·.1 = u)

def keyOf (s : Tables) (u : ℕ) (e : Enqueue) : Bool :=
  (s.sessions.get? u).any fun x => x.jobs.any fun j => j.idempotencyKey = e.idempotencyKey

/-- The statement that `t` is at waits for `u` to end. -/
def stmtWaits (s : Tables) (t u : ℕ) : Work → Bool
  | .webhook h (a :: _) (.inserting _) =>
    s.slots.rows.any fun y => y.undecided t (opening h.tenantId a) && y.dirty.any (·.1 = u)
  | .webhook _ (_ :: _) (.rechecking id _) => s.writtenBy u id
  | .webhook h (a :: _) (.enqueueing id) =>
    s.keyOf u (Handlers.job id h.tenantId (priorityOf a.2.labels) .triage h.settings)
  | .webhook _ (_ :: _) (.auditing _) => s.lock = some u
  | .other (.moving m) =>
    ((s.slots.get? m.incident).bind (Slot.visible t)).any (Incidents.isAt m.fromState m.expectedVersion) &&
      s.writtenBy u m.incident
  | .other (.appending _) => s.lock = some u
  | .other (.enqueueing e) => s.keyOf u e
  | _ => false

def waitsFor (s : Tables) (t u : ℕ) : Bool := t ≠ u && (s.sessions.get? t).any fun x => s.stmtWaits t u x.work

/-- The committed row of an incident. -/
def incident? (s : Tables) (id : ℕ) : Option Incident := (s.slots.get? id).bind Slot.committed

end Tables

def step (sha256 : String → String) (s : Tables) : Op → Option Tables
  | .webhook now h => some
    { s with sessions := s.sessions.insert ⟨now, .webhook h (h.identified sha256) .next, [], [], []⟩ }
  | .begin now => some { s with sessions := s.sessions.insert ⟨now, .other .idle, [], [], []⟩ }
  | .call t c => (s.sessions.get? t).bind fun x =>
      match x.work with
      | .other .idle => if c.foreign then s.call t x c else none
      | _ => none
  | .next t => (s.sessions.get? t).bind fun x =>
      match x.work with
      | .webhook h (a :: rest) pc => s.webhookStmt t x h a rest pc
      | .other pc => s.otherStmt t x pc
      | _ => none
  | .commit t => (s.sessions.get? t).bind fun x =>
      match x.work with
      | .webhook h [] .next => some (s.commit t x ((h.identified sha256).map fun a => (h.tenantId, a)))
      | .other .idle => some (s.commit t x [])
      | _ => none
  | .rollback t => (s.sessions.get? t).bind fun x =>
      match x.work with
      | .ended => none
      | _ => some (s.rollback t x)

end Blackboard.Ingest
