import Blackboard.Lib.Datetime
import Blackboard.Lib.Json

/-! The replay of an exported case: the responses that the incident page reads, each cut back to the
replay clock's now. `ms` is `Date.parse`, with none for a text that is no date. -/

namespace Blackboard.Console

structure Incident where
  id : String
  title : String
  service : String
  environment : String
  priority : String
  state : Json
  version : Json
  alertCount : ℕ
  labels : List (String × Json)
  createdAt : String
  updatedAt : String
  closedAt : Option String

structure AuditRow where
  seq : ℕ
  ts : String
  actor : String
  event : String
  payload : List (String × Json)
  hash : String

structure ToolCall where
  tool : String
  args : Json
  status : String
  errorCode : Option String
  attempts : ℕ
  latencyMs : ℕ
  evidenceId : Option String
  createdAt : String

structure LlmStep where
  stepNo : ℕ
  status : String
  errorCode : Option String
  error : Option String
  attempts : ℕ
  model : String
  inputTokens : ℕ
  outputTokens : ℕ
  cacheReadTokens : ℕ
  cacheCreationTokens : ℕ
  costUsd : Option Float
  latencyMs : ℕ
  createdAt : String
  reasoning : Option String
  final : Bool
  tools : List ToolCall

structure Usage where
  calls : ℕ := 0
  promptTokens : ℕ := 0
  outputTokens : ℕ := 0
  costUsd : Float := 0
  modelTimeMs : ℕ := 0
  toolCalls : ℕ := 0

structure AgentRun where
  agent : String
  status : String
  model : String
  promptVersion : String
  steps : ℕ
  error : Option String
  startedAt : String
  finishedAt : Option String
  usage : Usage
  llmCalls : List LlmStep

structure Approval where
  approver : String
  decision : String
  comment : String
  decidedAt : String

structure Execution where
  actionIndex : ℕ
  action : Json
  status : String
  executor : String
  dryRun : Json
  before : Json
  after : Json
  error : Option String
  startedAt : String
  finishedAt : Option String

structure Plan where
  id : ℕ
  seq : ℕ
  planHash : String
  proposedBy : String
  plan : Json
  verdict : String
  risk : Option String
  checks : Json
  expiresAt : Option String
  createdAt : String
  approval : Option Approval
  executions : List Execution

structure Finding where
  author : String
  body : List (String × Json)

/-- How an agent's run stands, as the diagnosis response has it. -/
structure RunSummary where
  status : String
  model : String
  promptVersion : String
  steps : ℕ
  result : Json

structure Totals where
  calls : ℕ
  errors : ℕ
  promptTokens : ℕ
  outputTokens : ℕ
  tokens : ℕ
  costUsd : Option Float
  modelTimeMs : ℕ

structure DiagnosisOut where
  incidentId : String
  state : Json
  diagnosis : Json
  findings : List Finding
  agents : List (String × RunSummary)
  usage : Totals

/-- An exported case: the responses under the incident's own paths, and the others by path. The id is
a UUID, so that no query starts in it. -/
structure CaseBundle where
  incidentId : String
  incident : Incident
  audit : Option (List AuditRow)
  agents : Option (List AgentRun)
  plans : Option (List Plan)
  diagnosis : DiagnosisOut
  others : List (String × Json)
  noQuery : '?' ∉ incidentId.toList

/-- The day of a date, counted from 1970-01-01. -/
def dayNumber (year month day : ℕ) : ℤ :=
  let leaps (y : ℕ) : ℤ := y / 4 - y / 100 + y / 400
  365 * ((year : ℤ) - 1970) + leaps (year - 1) - leaps 1969 +
    ((List.range (month - 1)).map fun m => (daysIn year (m + 1) : ℤ)).sum + (day - 1 : ℤ)

/-- `Date.parse` of the date and time that the API writes, in UTC: milliseconds since 1970, none for NaN. -/
def dateParse (iso : String) : Option ℤ := do
  let cs := iso.toList
  let number (start len : ℕ) : Option ℕ :=
    let ds := (cs.drop start).take len
    if ds.length = len ∧ ds.all Char.isDigit = true then
      some (ds.foldl (fun n c => 10 * n + (c.toNat - '0'.toNat)) 0)
    else none
  let year ← number 0 4
  let month ← number 5 2
  let day ← number 8 2
  let hour ← number 11 2
  let minute ← number 14 2
  let second ← number 17 2
  let fraction := (cs.drop 20).takeWhile Char.isDigit
  let millis := (fraction ++ ['0', '0', '0']).take 3 |>.foldl (fun n c => 10 * n + (c.toNat - '0'.toNat)) 0
  let rest := if cs[19]? = some '.' then (cs.drop 20).dropWhile Char.isDigit else cs.drop 19
  if cs[4]? = some '-' ∧ cs[7]? = some '-' ∧ cs[10]? = some 'T' ∧ cs[13]? = some ':' ∧ cs[16]? = some ':' ∧
      rest = ['Z'] ∧ (cs[19]? = some '.' → fraction ≠ []) ∧
      1 ≤ month ∧ month ≤ 12 ∧ 1 ≤ day ∧ day ≤ daysIn year month ∧ hour < 24 ∧ minute < 60 ∧ second < 60 then
    some ((((dayNumber year month day * 24 + hour) * 60 + minute) * 60 + second) * 1000 +
      if cs[19]? = some '.' then millis else 0)
  else none

/-- `value ?? default` -/
def nullish (value : Option Json) (default : Json) : Json :=
  match value with
  | none | some .null => default
  | some v => v

/-- `Math.round` -/
def mathRound (x : Float) : Float := if x - x.floor < 0.5 then x.floor else x.floor + 1

def usageOf (steps : List LlmStep) : Usage :=
  let u := steps.foldl (fun (u : Usage) s =>
    { calls := u.calls + 1
      promptTokens := u.promptTokens + (s.inputTokens + s.cacheReadTokens + s.cacheCreationTokens)
      outputTokens := u.outputTokens + s.outputTokens
      -- null counts as zero
      costUsd := u.costUsd + s.costUsd.getD 0
      modelTimeMs := u.modelTimeMs + s.latencyMs
      toolCalls := u.toolCalls + s.tools.length }) {}
  { u with costUsd := mathRound (u.costUsd * 1e6) / 1e6 }

def FINAL : List String := ["RESOLVED", "ESCALATED"]

def AuditRow.to (e : AuditRow) : Option Json := Json.member? e.payload "to"

def AuditRow.isTransition (e : AuditRow) : Bool := e.event = "incident.transition"

section At

variable {τ : Type} [LE τ] [DecidableLE τ] (ms : String → Option τ)

/-- `ms(iso) <= now` -/
def past (now : τ) (iso : String) : Bool :=
  match ms iso with
  | some t => t ≤ now
  | none => false

/-- `iso !== null && ms(iso) <= now` -/
def pastNonNull (now : τ) (iso : Option String) : Bool := iso.any (past ms now)

/-- `iso && ms(iso) <= now` -/
def pastTruthy (now : τ) (iso : Option String) : Bool := iso.any fun t => t ≠ "" && past ms now t

namespace CaseBundle

variable (b : CaseBundle)

def auditRows : List AuditRow := b.audit.getD []
def agentRuns : List AgentRun := b.agents.getD []
def planRows : List Plan := b.plans.getD []

def base : String := "/api/v1/incidents/" ++ b.incidentId

def auditAt (now : τ) : List AuditRow := b.auditRows.filter fun e => past ms now e.ts

def incidentAt (now : τ) : Incident :=
  let moves := b.auditRows.filter fun e => e.isTransition && past ms now e.ts
  let last := moves.getLast?
  let state := nullish (last.bind AuditRow.to) (.str "RECEIVED")
  { b.incident with
    state
    version := nullish (last.bind fun e => Json.member? e.payload "version") (.num 1)
    updatedAt := (last.map AuditRow.ts).getD b.incident.createdAt
    closedAt := if state.asStr?.any FINAL.contains then last.map AuditRow.ts else none }

end CaseBundle

/-- The steps so far, each with its tool calls so far. -/
def stepsAt (now : τ) (steps : List LlmStep) : List LlmStep :=
  (steps.filter fun s => past ms now s.createdAt).map fun s =>
    { s with tools := s.tools.filter fun x => past ms now x.createdAt }

def AgentRun.shownAt (now : τ) (run : AgentRun) : AgentRun :=
  let done := pastNonNull ms now run.finishedAt
  let steps := stepsAt ms now run.llmCalls
  { run with
    status := if done then run.status else "running"
    finishedAt := if done then run.finishedAt else none
    llmCalls := steps
    usage := usageOf steps }

def Execution.shownAt (now : τ) (x : Execution) : Execution :=
  if pastTruthy ms now x.finishedAt then x else { x with status := "running", finishedAt := none, after := .null }

def Plan.shownAt (now : τ) (p : Plan) : Plan :=
  { p with
    approval := p.approval.filter fun a => past ms now a.decidedAt
    executions := (p.executions.filter fun x => past ms now x.startedAt).map (Execution.shownAt ms now) }

namespace CaseBundle

variable (b : CaseBundle)

def agentsAt (now : τ) : List AgentRun :=
  (b.agentRuns.filter fun run => past ms now run.startedAt).map (AgentRun.shownAt ms now)

def plansAt (now : τ) : List Plan :=
  (b.planRows.filter fun p => past ms now p.createdAt).map (Plan.shownAt ms now)

def diagnosed (now : τ) : Bool :=
  b.auditRows.any fun e => e.isTransition && e.to.bind Json.asStr? = some "DIAGNOSED" && past ms now e.ts

/-- The agents whose runs have ended. -/
def finished (now : τ) : List String :=
  (b.agentRuns.filter fun run => pastTruthy ms now run.finishedAt).map AgentRun.agent

def findingsAt (now : τ) : List Finding :=
  b.diagnosis.findings.filter fun f => (b.finished ms now).contains f.author

def diagnosisAt (now : τ) : DiagnosisOut :=
  let u := usageOf ((b.agentsAt ms now).flatMap AgentRun.llmCalls)
  { b.diagnosis with
    state := (b.incidentAt ms now).state
    diagnosis := if b.diagnosed ms now then b.diagnosis.diagnosis else .null
    findings := b.findingsAt ms now
    usage :=
      { b.diagnosis.usage with
        calls := u.calls
        tokens := u.promptTokens + u.outputTokens
        costUsd := some u.costUsd } }

end CaseBundle

inductive Response
  | incidents (rows : List Incident)
  | incident (row : Incident)
  | audit (rows : List AuditRow)
  | agents (runs : List AgentRun)
  | plans (rows : List Plan)
  | diagnosis (out : DiagnosisOut)
  | other (value : Json)

/-- `path.split("?")[0]` -/
def cleaned (path : String) : String := String.ofList (path.toList.takeWhile (· ≠ '?'))

/-- The response for `path` as it was at `now`. -/
def CaseBundle.at (b : CaseBundle) (path : String) (now : τ) : Option Response :=
  let clean := cleaned path
  if clean = "/api/v1/incidents" then
    some (.incidents (if past ms now b.incident.createdAt then [b.incidentAt ms now] else []))
  else if clean = b.base then some (.incident (b.incidentAt ms now))
  else if clean = b.base ++ "/audit" then some (.audit (b.auditAt ms now))
  else if clean = b.base ++ "/agents" then some (.agents (b.agentsAt ms now))
  else if clean = b.base ++ "/plans" then some (.plans (b.plansAt ms now))
  else if clean = b.base ++ "/diagnosis" then some (.diagnosis (b.diagnosisAt ms now))
  else (b.others.lookup clean).map .other

end At

end Blackboard.Console
