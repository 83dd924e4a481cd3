import Blackboard.Spec.Citations
import Blackboard.Spec.Llm
import Blackboard.Spec.Registry

/-! The agent loop with its transcript, and the Messages API's rendering of a transcript. What the
model answers, what the tools return and what the check of an answer finds come from outside; `α`
is the type of final answers. -/

namespace Blackboard.AgentLoop

open Blackboard.Llm (Raised normalizeStep Step)
open Blackboard.Tools (Problem ToolOutcome ToolError)

structure TurnAction where
  id : String
  tool : String
  args : Json

structure TurnResult where
  id : String
  tool : String
  content : String

inductive Turn
  | user (text : String)
  | step (reasoning : String) (actions : List TurnAction) (final : Option Json)
  | results (results : List TurnResult)

def MAX_ACTIONS : ℕ := 3
def LAST_STEP_NOTE : String := "You have no more query steps. Give your final answer now, from the results you have."

inductive Failure
  | budgetExceeded (message : String)
  | agentFailed (message : String)
  | raised (e : Raised)

/-- `validate` is `final_model.model_validate`, `schema` its JSON schema. -/
structure AgentSpec (α : Type) where
  name : String
  promptText : String
  promptVersion : String
  tools : List String
  validate : Json → Except (List Problem) α
  schema : Json
  maxSteps : ℕ := 8
  maxRewrites : ℕ := 1

/-- `shown` is a dict, the tool of every evidence id. -/
structure AgentRun (α : Type) where
  final : Option α := none
  steps : ℕ := 0
  toolCalls : ℕ := 0
  toolErrors : ℕ := 0
  rewrites : ℕ := 0
  dropped : ℕ := 0
  problems : List String := []
  turns : List Turn
  shown : List (String × String) := []

/-- `definition` is the registry's `tools[name].spec()`, `repr` Python's of a list of texts. -/
structure Deps where
  definition : String → Option Json
  repr : List String → String
  model : String
  tokenBudget : ℤ

structure LLMRequest where
  agent : String
  model : String
  promptVersion : String
  system : String
  turns : List Turn
  tools : List Json
  finalSchema : Json
  maxActions : ℕ := 3
  forceFinal : Bool := false

/-- What one round of the loop meets: the incident's tokens, the backend's answer before its shape is
checked, and the results of the calls and of the check of a final answer. Any of them may raise. -/
structure Meets (α : Type) where
  used : Except Raised ℤ
  answer : Except Raised Json
  called : TurnAction → Except Raised ToolOutcome
  checked : Except Raised (Agents.Checked α)

inductive Progress (α : Type)
  | running (run : AgentRun α)
  | ended (run : AgentRun α) (result : Except Failure Unit)

namespace Progress

variable {α : Type}

def run : Progress α → AgentRun α
  | running r => r
  | ended r _ => r

end Progress

variable {α : Type}

/-- `f"{'.'.join(map(str, err['loc']))}: {err['msg']}"` -/
def problemText (p : Problem) : String := ".".intercalate p.loc ++ ": " ++ p.msg

def feedbackText (problems : List String) : String :=
  "Your final answer was not accepted:\n" ++ "\n".intercalate (problems.map fun p => "- " ++ p) ++
    "\nFix these and give the final answer again. Items that still fail will be dropped."

def feedback (run : AgentRun α) (problems : List String) : AgentRun α :=
  { run with rewrites := run.rewrites + 1, turns := run.turns ++ [.user (feedbackText problems)] }

/-- The actions of a step under the loop's own ids. -/
def numbered (steps : ℕ) (actions : List Llm.StepAction) : List TurnAction :=
  ((actions.take MAX_ACTIONS).zipIdx 1).map fun a => ⟨"c" ++ toString steps ++ "_" ++ toString a.2, a.1.tool, a.1.args⟩

/-- A tool outside the agent's role is answered, not run. -/
def call (spec : AgentSpec α) (m : Meets α) (a : TurnAction) : Except Raised ToolOutcome :=
  if a.tool ∈ spec.tools then m.called a
  else .ok
    { tool := a.tool, args := a.args,
      error := some { code := "unknown_tool",
                      message := a.tool ++ " is not one of your data sources: " ++ ", ".intercalate spec.tools } }

/-- `run.tool_calls`, `run.shown` and `run.tool_errors` after one outcome. -/
def counted (run : AgentRun α) (o : ToolOutcome) : AgentRun α :=
  let run := { run with toolCalls := run.toolCalls + 1 }
  match o.error, o.evidenceId.filter (· ≠ "") with
  | none, some id => { run with shown := (id, o.tool) :: run.shown.filter fun x => x.1 ≠ id }
  | _, _ => { run with toolErrors := run.toolErrors + 1 }

def request (spec : AgentSpec α) (deps : Deps) (tools : List Json) (run : AgentRun α) : LLMRequest :=
  { agent := spec.name, model := deps.model, promptVersion := spec.promptVersion, system := spec.promptText,
    turns := run.turns, tools, finalSchema := spec.schema, maxActions := MAX_ACTIONS,
    forceFinal := !tools.isEmpty && decide (spec.maxSteps ≤ run.steps) }

/-- The queries of a step, all at once. -/
def query (spec : AgentSpec α) (m : Meets α) (actions : List TurnAction) (run : AgentRun α) : Progress α :=
  match actions.mapM (call spec m) with
  | .error e => .ended run (.error (.raised e))
  | .ok outcomes =>
    let run := outcomes.foldl counted run
    let results := (actions.zip outcomes).map fun x => ⟨x.1.id, x.1.tool, x.2.forModel⟩
    let run := { run with turns := run.turns ++ [.results results] }
    .running (if spec.maxSteps ≤ run.steps + 1 then { run with turns := run.turns ++ [.user LAST_STEP_NOTE] } else run)

/-- The final answer of a step: taken, sent back to the model, or the end of the agent. -/
def conclude (spec : AgentSpec α) (deps : Deps) (m : Meets α) (final : Json) (run : AgentRun α) : Progress α :=
  match spec.validate final with
  | .error errors =>
    let problems := (errors.take 8).map problemText
    if run.rewrites < spec.maxRewrites then .running (feedback run problems)
    else .ended run (.error
      (.agentFailed (spec.name ++ ": final answer does not match the schema: " ++ deps.repr problems)))
  | .ok _ =>
    match m.checked with
    | .error e => .ended run (.error (.raised e))
    | .ok checked =>
      let run := { run with problems := checked.problems }
      if checked.problems ≠ [] ∧ run.rewrites < spec.maxRewrites then .running (feedback run checked.problems)
      else .ended { run with final := some checked.value, dropped := checked.dropped } (.ok ())

/-- One round of `while True`. -/
def round (spec : AgentSpec α) (deps : Deps) (tools : List Json) (m : Meets α) (run : AgentRun α) : Progress α :=
  let run := { run with steps := run.steps + 1 }
  match m.used with
  | .error e => .ended run (.error (.raised e))
  | .ok used =>
    if deps.tokenBudget ≤ used then
      .ended run (.error (.budgetExceeded (toString used ++ " tokens used, budget " ++ toString deps.tokenBudget)))
    else
      match m.answer.bind fun raw => Llm.raised (normalizeStep raw) with
      | .error e => .ended run (.error (.raised e))
      | .ok step =>
        let forceFinal := (request spec deps tools run).forceFinal
        let actions := numbered run.steps step.actions
        let run := { run with turns := run.turns ++ [.step step.reasoning actions step.final] }
        match step.final with
        | none =>
          if forceFinal then .ended run (.error (.agentFailed (spec.name ++ ": no final answer on the last step")))
          else query spec m actions run
        | some final => conclude spec deps m final run

/-- `run_agent` up to the loop: the definitions of its tools. -/
def toolSpecs (spec : AgentSpec α) (deps : Deps) : Option (List Json) := spec.tools.mapM deps.definition

/-- `run_agent` after at most this many rounds. -/
def runAgent (spec : AgentSpec α) (deps : Deps) (task : String) (env : ℕ → Meets α) : ℕ → Progress α
  | 0 =>
    match toolSpecs spec deps with
    | none => .ended { turns := [.user task] } (.error (.raised (.other "KeyError")))
    | some _ => .running { turns := [.user task] }
  | n + 1 =>
    match runAgent spec deps task env n with
    | .running run => round spec deps ((toolSpecs spec deps).getD []) (env n) run
    | .ended run result => .ended run result

/-! `render_messages`. -/

inductive Role
  | user | assistant
deriving DecidableEq, Repr

inductive Block
  | text (text : String)
  | toolUse (id name : String) (input : Json)
  | toolResult (toolUseId content : String) (isError : Bool)

structure Message where
  role : Role
  content : List Block

/-- `_append` -/
def append (messages : List Message) (role : Role) (block : Block) : List Message :=
  match messages.getLast? with
  | some last =>
    if last.role = role then messages.dropLast ++ [{ last with content := last.content ++ [block] }]
    else messages ++ [⟨role, [block]⟩]
  | none => [⟨role, [block]⟩]

/-- The blocks of a step, the final answer's call last. -/
def stepBlocks (i : ℕ) (reasoning : String) (actions : List TurnAction) (final : Option Json) : List Block :=
  (if reasoning = "" then [] else [.text reasoning]) ++ (actions.map fun a => .toolUse a.id a.tool a.args) ++
    match final with
    | some f => [.toolUse ("final_" ++ toString i) Llm.FINAL_TOOL f]
    | none => []

/-- One turn. `pending` is the id of a `submit_final` call that needs a `tool_result` next. -/
def renderTurn (s : List Message × Option String) (turn : Turn × ℕ) : List Message × Option String :=
  match turn with
  | (.user text, _) =>
    match s.2 with
    | some pending => (append s.1 .user (.toolResult pending text true), none)
    | none => (append s.1 .user (.text text), none)
  | (.step reasoning actions final, i) =>
    ((stepBlocks i reasoning actions final).foldl (fun ms b => append ms .assistant b) s.1,
      match final with
      | some _ => some ("final_" ++ toString i)
      | none => s.2)
  | (.results rs, _) => (rs.foldl (fun ms r => append ms .user (.toolResult r.id r.content false)) s.1, s.2)

def renderMessages (turns : List Turn) : List Message := (turns.zipIdx.foldl renderTurn ([], none)).1

end Blackboard.AgentLoop
