import Blackboard.Spec.Citations
import Blackboard.Spec.AgentStore
import Blackboard.Spec.Queue
import Blackboard.Spec.Handlers
import Blackboard.Spec.Llm

/-! One incident's investigation: any number of attempts of its job, each a handler with the
agents it runs, step by step between two awaits. What the model answers and what the tools
return comes from outside. Reads see what is committed; every write of a checkpoint or of the
incident is one transaction that checks the fence first. -/

namespace Blackboard.Agents

open Blackboard.Llm (LLMError Usage)

inductive Agent
  | coordinator
  | investigator (focus : Focus)
  | synthesizer
  | solo
deriving DecidableEq, Repr

def Agent.name : Agent → String
  | .coordinator => "coordinator"
  | .investigator f => "investigator." ++ f.name
  | .synthesizer => "synthesizer"
  | .solo => "solo"

def INVESTIGATOR_TOOLS : Focus → List String
  | .metrics => ["prom_query", "prom_range"]
  | .logsTraces => ["logs_search", "traces_search", "trace_get"]
  | .changes => ["rollout_history", "deploy_diff", "k8s_events", "flag_state"]

inductive Mode
  | multi | single
deriving DecidableEq, Repr

/-- What an attempt runs with: `AgentConfig` and its variant. -/
structure AgentConfig where
  mode : Mode := .multi
  knowledge : Bool := false
  maxSteps : ℕ := 5
  model : String → String := fun _ => ""
  promptVersion : String → String := fun _ => ""

/-- `AgentSpec`, of what decides anything. -/
structure AgentSpec where
  tools : List String
  maxSteps : ℕ
  maxRewrites : ℕ := 1

def AgentConfig.knowledgeTools (c : AgentConfig) : List String := if c.knowledge then ["kb_search"] else []

def AgentConfig.spec (c : AgentConfig) : Agent → AgentSpec
  | .coordinator | .synthesizer => { tools := [], maxSteps := 1 }
  | .investigator f => { tools := INVESTIGATOR_TOOLS f ++ c.knowledgeTools, maxSteps := c.maxSteps }
  | .solo =>
    { tools := INVESTIGATORS.flatMap INVESTIGATOR_TOOLS ++ c.knowledgeTools,
      maxSteps := c.maxSteps * INVESTIGATORS.length }

/-- A final answer, of the type its agent must give. -/
inductive Answer
  | plan (p : Plan)
  | report (r : InvestigatorReport)
  | diagnosis (d : Diagnosis)

def Answer.fits : Answer → Agent → Bool
  | .plan _, .coordinator | .report _, .investigator _ | .diagnosis _, .synthesizer | .diagnosis _, .solo => true
  | _, _ => false

/-- The body of a blackboard entry: what `model_dump` gave and `model_validate` reads back. -/
inductive Body
  | plan (p : Plan)
  | finding (f : Finding)
  | diagnosis (d : Diagnosis)

structure ToolAction where
  tool : String
  args : Json

/-- `ToolOutcome`, of what the loop reads. -/
inductive CallOutcome
  | ok (evidenceId : String)
  | error

/-- `AgentRun.usage` after a step. -/
def added (u v : Usage) : Usage :=
  ⟨u.inputTokens + v.inputTokens, u.outputTokens + v.outputTokens, u.cacheReadTokens + v.cacheReadTokens,
    u.cacheCreationTokens + v.cacheCreationTokens⟩

/-- A step of the model. A final answer has been through `model_validate`, with the problems if it failed. -/
structure LLMResult where
  actions : List ToolAction
  final : Option (Except (List String) Answer)
  usage : Usage

def MAX_ACTIONS : ℕ := 3

/-- The fields of `AgentRun` that are kept; `shown` is a dict. -/
structure AgentRun where
  steps : ℕ := 0
  toolCalls : ℕ := 0
  toolErrors : ℕ := 0
  rewrites : ℕ := 0
  dropped : ℕ := 0
  problems : List String := []
  shown : List (String × String) := []
  usage : Usage := {}

def AgentRun.summary (r : AgentRun) : List (String × Json) :=
  [("steps", .num r.steps), ("tool_calls", .num r.toolCalls), ("tool_errors", .num r.toolErrors),
    ("rewrites", .num r.rewrites), ("dropped", .num r.dropped), ("problems", .arr ((r.problems.take 10).map .str)),
    ("usage", r.usage.toDict)]

/-- `run.shown[evidence_id] = tool` -/
def AgentRun.show (r : AgentRun) (id tool : String) : AgentRun :=
  { r with shown := (id, tool) :: r.shown.filter fun x => x.1 ≠ id }

/-- `asyncio.gather`: nothing until every call has returned. -/
def gather : List (ToolAction × Option CallOutcome) → Option (List (ToolAction × CallOutcome))
  | [] => some []
  | (a, o) :: calls => o.bind fun o => (gather calls).map fun cs => (a, o) :: cs

def evidenceIn : List (ToolAction × CallOutcome) → List String
  | [] => []
  | (_, .ok id) :: calls => id :: evidenceIn calls
  | (_, .error) :: calls => evidenceIn calls

/-- The results of one step's calls. -/
def AgentRun.gathered (r : AgentRun) : List (ToolAction × CallOutcome) → AgentRun
  | [] => r
  | (a, .ok id) :: calls => ({ r with toolCalls := r.toolCalls + 1 }.show id a.tool).gathered calls
  | (_, .error) :: calls => { r with toolCalls := r.toolCalls + 1, toolErrors := r.toolErrors + 1 }.gathered calls

/-- The exceptions of `run_agent`. -/
inductive Failure
  | budgetExceeded (used budget : ℤ)
  | llmError (e : LLMError)
  | agentFailed (message : String)

/-- What `once` passes to `fail_run`. -/
def Failure.error : Failure → String
  | .budgetExceeded .. => "token budget exhausted"
  | .llmError e => e.text
  | .agentFailed m => m

/-- A rate limit or an outage, or an empty budget: the agents stop. -/
def Failure.isRaised : Failure → Bool
  | .budgetExceeded .. => true
  | .llmError e => e.retryable && e.code ≠ "invalid_output"
  | .agentFailed _ => false

/-- Where one call of `once` stands, in `run_agent` most of the time. -/
inductive TaskPc
  | starting
  /-- The top of the loop. -/
  | stepping
  | asking (forceFinal : Bool)
  | recording (forceFinal : Bool) (r : Except LLMError LLMResult)
  | calling (calls : List (ToolAction × Option CallOutcome))
  | checking (answer : Answer)
  | finishing (answer : Answer)
  | failing (why : Failure)
  | returned (entries : Option (List (Entry Body)))
  | raised (why : Failure)

structure AgentTask where
  run : AgentRun := {}
  pc : TaskPc := .starting

structure Outcome where
  diagnosis : Option Diagnosis := none
  escalate : Option String := none

/-- Where the handler stands. -/
inductive AttemptPc
  | opening
  | readingRuns
  | readingBoard
  | coordinating
  | investigating
  | rereadingRuns
  | rereadingBoard
  | synthesizing (cited : List String)
  | soloing
  | concluding (outcome : Outcome)
  | ended

structure Attempt where
  job : Job
  config : AgentConfig
  pc : AttemptPc := .opening
  version : ℕ := 0
  /-- Of the incident as the first transaction read it. -/
  priority : ℕ := 3
  runs : List RunRow := []
  board : List (Entry Body) := []
  tasks : Agent → Option AgentTask := fun _ => none

structure EvidenceRow where
  id : String
  incidentId : Option ℕ
  tool : String
deriving DecidableEq, Repr

/-- History: what one `finish_run` wrote. -/
structure Batch where
  attempt : ℕ
  agent : Agent
  entries : List (Entry Body)

structure World where
  jobs : JobTable := .empty
  incident : Incident
  store : AgentTables Body := {}
  evidence : List EvidenceRow := []
  /-- The sum over `llm_calls`. -/
  tokens : ℤ := 0
  attempts : Table Attempt := .empty
  batches : List Batch := []
  /-- History: the model was asked; an id was shown to an agent. -/
  asked : List (ℕ × Agent) := []
  shown : List (ℕ × Agent × String) := []

structure Setup where
  incidentId : ℕ
  settings : Settings := {}
  tokenBudget : ℤ := 1500000
  /-- Python's `repr` of a list of strings. -/
  reprList : List String → String := fun _ => "[]"
  /-- The configuration an attempt finds. -/
  config : ℕ → AgentConfig

inductive Op
  /-- Anybody's operation on the queue. A claim of the incident's investigation begins an attempt. -/
  | queue (op : QueueOp)
  /-- Anybody else's move of the incident, or answer of a tool. -/
  | transition (now : Time) (m : Transition)
  | evidence (row : EvidenceRow)
  /-- The next step of an attempt; of the agent it runs. -/
  | next (k : ℕ) (now : Time)
  | raised (k : ℕ) (g : Agent)
  | task (k : ℕ) (g : Agent)
  | answer (k : ℕ) (g : Agent) (r : Except LLMError LLMResult)
  | called (k : ℕ) (g : Agent) (i : ℕ) (o : CallOutcome)
  /-- Its process is gone, or it was cancelled, or a statement failed. -/
  | crash (k : ℕ)

/-- `evidence_tools` -/
def evidenceTools (incidentId : ℕ) (evidence : List EvidenceRow) (ids : List String) : List (String × String) :=
  (evidence.filter fun r => r.incidentId = some incidentId && ids.contains r.id).map fun r => (r.id, r.tool)

/-- `INSERT INTO evidence ... ON CONFLICT (id) DO NOTHING` -/
def insertEvidence (evidence : List EvidenceRow) (row : EvidenceRow) : List EvidenceRow :=
  if evidence.any fun r => r.id = row.id then evidence else evidence ++ [row]

def citedBy (findings : List Finding) : List String := findings.flatMap fun f => f.evidenceIds.1

/-- The findings on the blackboard. -/
def findingsOn (board : List (Entry Body)) : List Finding :=
  board.filterMap fun e => match e.body with
    | .finding f => some f
    | _ => none

/-- What the agent's `to_entries` writes for an answer. -/
def entriesOf (g : Agent) : Answer → List (Entry Body)
  | .plan p => [{ kind := .plan, author := g.name, body := .plan p }]
  | .report r =>
    r.findings.map fun f => { kind := .finding, author := g.name, body := .finding f, evidenceIds := f.evidenceIds.1 }
  | .diagnosis d => [{ kind := .diagnosis, author := g.name, body := .diagnosis d,
                       evidenceIds := Strings.sortedSet d.cited }]

/-- What it adds to the run's summary. -/
def extraOf : Answer → List (String × Json)
  | .report r => [("report_summary", .str r.summary.1)]
  | _ => []

/-- The agent's citation check. `known` are the rows of the ids it cites, `shown` what it was shown. -/
def check (known : List String → List (String × String)) (shown : List String) : Answer → Checked Answer
  | .plan p => ⟨.plan p, [], 0⟩
  | .report r =>
    let c := checkReport r (known (citedBy r.findings)) shown
    ⟨.report c.value, c.problems, c.dropped⟩
  | .diagnosis d =>
    let c := checkDiagnosis d (known d.cited) shown
    ⟨.diagnosis c.value, c.problems, c.dropped⟩

/-- `_concluded`; none is an entry that is no diagnosis. -/
def concluded : Option (List (Entry Body)) → Option Outcome
  | none | some [] => some { escalate := some "the synthesizer could not produce a diagnosis" }
  | some (e :: _) =>
    match e.body with
    | .diagnosis d =>
      some { diagnosis := some d,
             escalate := if d.rootCauses.isEmpty
             then some "no root cause candidate is supported by the evidence" else none }
    | _ => none

/-- The model's step is recorded: on with its calls, its answer, or what is wrong with it. -/
def afterStep (setup : Setup) (spec : AgentSpec) (g : Agent) (run : AgentRun) (forceFinal : Bool) (r : LLMResult) :
    AgentTask :=
  match r.final with
  | none =>
    if forceFinal then ⟨run, .failing (.agentFailed (g.name ++ ": no final answer on the last step"))⟩
    else ⟨run, .calling ((r.actions.take MAX_ACTIONS).map fun a => (a, none))⟩
  | some (.error problems) =>
    if run.rewrites < spec.maxRewrites then ⟨{ run with rewrites := run.rewrites + 1 }, .stepping⟩
    else ⟨run, .failing (.agentFailed
      (g.name ++ ": final answer does not match the schema: " ++ setup.reprList problems))⟩
  | some (.ok answer) => ⟨run, .checking answer⟩

/-- The answer is checked: problems go back to the model once, then whatever still fails is dropped. -/
def afterCheck (spec : AgentSpec) (run : AgentRun) (c : Checked Answer) : AgentTask :=
  if c.problems ≠ [] ∧ run.rewrites < spec.maxRewrites then
    ⟨{ run with problems := c.problems, rewrites := run.rewrites + 1 }, .stepping⟩
  else ⟨{ run with problems := c.problems, dropped := c.dropped }, .finishing c.value⟩

namespace Attempt

/-- `spec.name in runs and runs[spec.name].status == "done"` -/
def found (a : Attempt) (g : Agent) : Bool := a.runs.any fun r => r.agent = g.name && r.status = .done

/-- A checkpoint that says the agent finished: its blackboard entries, and no model is asked. -/
def once (a : Attempt) (g : Agent) : AgentTask :=
  if a.found g then { pc := .returned (some (a.board.filter fun e => e.author = g.name)) } else {}

def await (a : Attempt) (pc : AttemptPc) (gs : List Agent) : Attempt :=
  { a with pc, tasks := fun g => if g ∈ gs then some (a.once g) else none }

def setTask (a : Attempt) (g : Agent) (t : AgentTask) : Attempt :=
  { a with tasks := fun g' => if g' = g then some t else a.tasks g' }

def returned? (a : Attempt) (g : Agent) : Option (Option (List (Entry Body))) :=
  (a.tasks g).bind fun t => match t.pc with
    | .returned es => some es
    | _ => none

/-- The agents are done that the handler waits for. -/
def allReturned (a : Attempt) (gs : List Agent) : Bool := gs.all fun g => (a.returned? g).isSome

/-- The findings are read; without one there is nothing to synthesize. -/
def synthesize (a : Attempt) : Attempt :=
  match findingsOn a.board with
  | [] =>
    { a with pc := .concluding { escalate := some "the investigators found nothing they could support with evidence" } }
  | f :: fs => a.await (.synthesizing (citedBy (f :: fs))) [.synthesizer]

/-- The outcome, or an exception. -/
def conclude (a : Attempt) (entries : Option (List (Entry Body))) : Attempt :=
  { a with pc := match concluded entries with
    | some outcome => .concluding outcome
    | none => .ended }

/-- `except BudgetExceeded` of `investigate`, and `except LLMError` of the handler. -/
def failed (a : Attempt) (why : Failure) : Attempt :=
  { a with pc := match why with
    | .budgetExceeded used budget =>
      .concluding { escalate := some ("token budget exhausted (" ++ toString used ++ " tokens used, budget " ++
        toString budget ++ ")") }
    | .llmError e =>
      if e.retryable = false ∨ a.job.maxAttempts ≤ a.job.attempts then
        .concluding { escalate := some ("the model was unavailable: " ++ e.text) }
      else .ended
    | .agentFailed _ => .ended }

/-- The agents of the phase. -/
def awaited (a : Attempt) : List Agent :=
  match a.pc with
  | .coordinating => [.coordinator]
  | .investigating => INVESTIGATORS.map .investigator
  | .synthesizing _ => [.synthesizer]
  | .soloing => [.solo]
  | _ => []

/-- What the agent may cite: what it was shown, for the synthesizer what the findings cite. -/
def citable (a : Attempt) (t : AgentTask) : List String :=
  match a.pc with
  | .synthesizing cited => cited
  | _ => t.run.shown.map Prod.fst

end Attempt

namespace World

/-- An incident of which nothing has been investigated yet. -/
def fresh (incident : Incident) (evidence : List EvidenceRow) : World := { incident, evidence }

/-- `ORDER BY id DESC LIMIT 1` -/
def storedDiagnosis (s : World) : Option Diagnosis :=
  (s.store.entries (some .diagnosis)).getLast?.bind fun e => match e.body with
    | .diagnosis d => some d
    | _ => none

def set (s : World) (k : ℕ) (a : Attempt) : World := { s with attempts := s.attempts.modify k fun _ => a }

/-- A transaction that only commits if the attempt still owns the job. -/
def fenced (s : World) (k : ℕ) (a : Attempt) (f : World → World) : World :=
  if Jobs.holds a.job s.jobs then f s else s.set k { a with pc := .ended }

/-- An UPDATE of `transition` on the incident; StaleVersion ends the attempt. -/
def move (s : World) (k : ℕ) (a : Attempt) (now : Time) (fromState toState : State) (version : ℕ) (f : World → World) :
    World :=
  if Incidents.isAt fromState version s.incident then f { s with incident := Incidents.moved now toState s.incident }
  else s.set k { a with pc := .ended }

/-- The first transaction of the handler. -/
def opened (s : World) (k : ℕ) (a : Attempt) (now : Time) : World :=
  if s.incident.state = .triaged then
    s.move k a now .triaged .investigating s.incident.version fun s =>
      s.set k { a with pc := .readingRuns, version := s.incident.version, priority := s.incident.priority }
  else if s.incident.state = .investigating then  -- a rerun: resume from the checkpoints
    s.set k { a with pc := .readingRuns, version := s.incident.version, priority := s.incident.priority }
  else s.set k { a with pc := .ended }  -- already diagnosed, escalated or closed

/-- The last one. -/
def closed (setup : Setup) (s : World) (k : ℕ) (a : Attempt) (now : Time) (outcome : Outcome) : World :=
  match outcome.escalate, outcome.diagnosis with
  | none, some _ =>
    s.move k a now .investigating .diagnosed a.version fun s' =>
      let ended := { a with pc := .ended }
      if setup.settings.autoRemediate then
        match Jobs.enqueue now
          (Handlers.job setup.incidentId s.incident.tenantId a.priority .plan setup.settings) s.jobs with
        | .ok (jobs, _) => { s' with jobs }.set k ended
        | .error _ => s.set k ended  -- rolled back
      else s'.set k ended
  | _, _ => s.move k a now .investigating .escalated a.version fun s => s.set k { a with pc := .ended }

/-- The handler goes on, between two awaits. -/
def attemptNext (setup : Setup) (s : World) (k : ℕ) (a : Attempt) (now : Time) : Option World :=
  match a.pc with
  | .opening => some (s.fenced k a fun s => s.opened k a now)
  | .readingRuns => some (s.set k { a with pc := .readingBoard, runs := s.store.runs })
  | .readingBoard =>
    let a := { a with board := s.store.entries none }
    some (s.set k (if a.config.mode = .single then a.await .soloing [.solo] else a.await .coordinating [.coordinator]))
  | .coordinating =>
    if a.allReturned a.awaited then some (s.set k (a.await .investigating (INVESTIGATORS.map .investigator))) else none
  | .investigating =>
    if a.allReturned a.awaited then some (s.set k { a with pc := .rereadingRuns, tasks := fun _ => none }) else none
  | .rereadingRuns => some (s.set k { a with pc := .rereadingBoard, runs := s.store.runs })
  | .rereadingBoard => some (s.set k { a with board := s.store.entries none }.synthesize)
  | .synthesizing _ => (a.returned? .synthesizer).map fun es => s.set k (a.conclude es)
  | .soloing => (a.returned? .solo).map fun es => s.set k (a.conclude es)
  | .concluding outcome => some (s.fenced k a fun s => s.closed setup k a now outcome)
  | .ended => none

def setTask (s : World) (k : ℕ) (a : Attempt) (g : Agent) (t : AgentTask) : World := s.set k (a.setTask g t)

/-- `finish_run`, and what it wrote if it did. -/
def finishRun (s : World) (k : ℕ) (g : Agent) (run : AgentRun) (answer : Answer) : World :=
  { s with store := s.store.finishRun g.name run.steps (run.summary ++ extraOf answer) (entriesOf g answer),
           batches := if s.store.runs.any (RunRow.openFor g.name) then s.batches ++ [⟨k, g, entriesOf g answer⟩]
           else s.batches }

/-- An agent goes on, but for the answers of the model and of the tools. -/
def taskNext (setup : Setup) (s : World) (k : ℕ) (a : Attempt) (g : Agent) (t : AgentTask) : Option World :=
  let spec := a.config.spec g
  match t.pc with
  | .starting =>
    some (s.fenced k a fun s =>
      { s with store := s.store.startRun g.name (a.config.model g.name) (a.config.promptVersion g.name) }.setTask k a g
        { t with pc := .stepping })
  | .stepping =>
    let run := { t.run with steps := t.run.steps + 1 }
    if setup.tokenBudget ≤ s.tokens then
      some (s.setTask k a g ⟨run, .failing (.budgetExceeded s.tokens setup.tokenBudget)⟩)
    else
      some ({ s with asked := s.asked ++ [(k, g)] }.setTask k a g
        ⟨run, .asking (!spec.tools.isEmpty && decide (spec.maxSteps ≤ run.steps))⟩)
  | .recording forceFinal (.ok r) =>
    some ({ s with tokens := s.tokens + r.usage.total }.setTask k a g
      (afterStep setup spec g { t.run with usage := added t.run.usage r.usage } forceFinal r))
  | .recording _ (.error e) => some (s.setTask k a g { t with pc := .failing (.llmError e) })
  | .calling calls =>
    (gather calls).map fun outcomes =>
      { s with shown := s.shown ++ (evidenceIn outcomes).map fun id => (k, g, id) }.setTask k a g
        ⟨t.run.gathered outcomes, .stepping⟩
  | .checking answer =>
    some (s.setTask k a g (afterCheck spec t.run
      (check (evidenceTools setup.incidentId s.evidence) (a.citable t) answer)))
  | .finishing answer =>
    some (s.fenced k a fun s =>
      (s.finishRun k g t.run answer).setTask k a g { t with pc := .returned (some (entriesOf g answer)) })
  | .failing why =>
    some (s.fenced k a fun s => { s with store := s.store.failRun g.name 0 why.error }.setTask k a g
      { t with pc := if why.isRaised then .raised why else .returned none })
  | .asking _ | .returned _ | .raised _ => none

/-- The answer to one of the calls of a step. A tool outside the agent's role is not run. -/
def taskCalled (setup : Setup) (s : World) (k : ℕ) (a : Attempt) (g : Agent) (t : AgentTask)
    (calls : List (ToolAction × Option CallOutcome)) (i : ℕ) (o : CallOutcome) : Option World :=
  match calls[i]? with
  | some (c, none) =>
    let s' := s.setTask k a g { t with pc := .calling (calls.set i (c, some o)) }
    match o with
    | .ok id =>
      if (a.config.spec g).tools.contains c.tool then
        some { s' with evidence := insertEvidence s.evidence ⟨id, some setup.incidentId, c.tool⟩ }
      else none
    | .error => some s'
  | _ => none

/-- The agent of an attempt that still waits for it. -/
def task? (s : World) (k : ℕ) (g : Agent) : Option (Attempt × AgentTask) :=
  (s.attempts.get? k).bind fun a => if g ∈ a.awaited then (a.tasks g).map fun t => (a, t) else none

/-- A claimed job is one of this incident's. -/
def isOurs (setup : Setup) (job : Job) : Bool := job.kind = .investigate && job.incidentId = some setup.incidentId

/-- The unique index allows one investigate job to an incident: its key is the incident's. -/
def allowed : QueueOp → Bool
  | .enqueue _ e => e.kind ≠ .investigate || e.idempotencyKey = e.incidentId.map fun id => Key.incident id .investigate
  | _ => true

def queued (setup : Setup) (s : World) (op : QueueOp) : World :=
  let x := op.apply s.jobs
  match x.2 with
  | .claimed (some job) =>
    if isOurs setup job then
      { s with jobs := x.1, attempts := s.attempts.insert { job, config := setup.config s.attempts.size } }
    else { s with jobs := x.1 }
  | _ => { s with jobs := x.1 }

def step (setup : Setup) (s : World) : Op → Option World
  | .queue op => if allowed op then some (queued setup s op) else none
  | .transition now m =>
    match Incidents.checkTransition m.fromState m.toState with
    | .error _ => some s
    | .ok _ =>
      if m.toState = .diagnosed then none
      else if Incidents.isAt m.fromState m.expectedVersion s.incident then
        some { s with incident := Incidents.moved now m.toState s.incident }
      else some s
  | .evidence row => some { s with evidence := insertEvidence s.evidence row }
  | .next k now => (s.attempts.get? k).bind fun a => s.attemptNext setup k a now
  | .raised k g => (s.task? k g).bind fun x =>
      match x.2.pc with
      | .raised why => some (s.set k (x.1.failed why))
      | _ => none
  | .task k g => (s.task? k g).bind fun x => s.taskNext setup k x.1 g x.2
  | .answer k g r => (s.task? k g).bind fun x =>
      match x.2.pc with
      | .asking forceFinal =>
        if (match r with | .ok ⟨_, some (.ok answer), _⟩ => answer.fits g | _ => true) then
          some (s.setTask k x.1 g { x.2 with pc := .recording forceFinal r })
        else none
      | _ => none
  | .called k g i o => (s.task? k g).bind fun x =>
      match x.2.pc with
      | .calling calls => s.taskCalled setup k x.1 g x.2 calls i o
      | _ => none
  | .crash k => (s.attempts.get? k).map fun a => s.set k { a with pc := .ended }

end World

end Blackboard.Agents
