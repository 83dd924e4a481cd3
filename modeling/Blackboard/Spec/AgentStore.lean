import Blackboard.Lib.Json

/-! `PgAgentStore` on the rows of one incident: agent run checkpoints and the blackboard. Each
function is one transaction. `B` is the type of an entry's body. -/

namespace Blackboard.Agents

inductive RunStatus
  | running | done | failed
deriving DecidableEq, Repr

/-- A row of `agent_runs`, of which there is one to an agent. -/
structure RunRow where
  agent : String
  status : RunStatus
  model : String
  promptVersion : String
  steps : ℕ := 0
  result : List (String × Json) := []
  error : Option String := none

inductive EntryKind
  | plan | finding | diagnosis
deriving DecidableEq, Repr

/-- A row of `blackboard`. -/
structure Entry (B : Type) where
  kind : EntryKind
  author : String
  body : B
  evidenceIds : List String := []

structure AgentTables (B : Type) where
  runs : List RunRow := []
  board : List (Entry B) := []

/-- The WHERE of every update. -/
def RunRow.openFor (agent : String) (r : RunRow) : Bool := r.agent = agent && r.status ≠ .done

namespace AgentTables

variable {B : Type}

def isDone (s : AgentTables B) (agent : String) : Bool := s.runs.any fun r => r.agent = agent && r.status = .done

def updateRun (s : AgentTables B) (agent : String) (f : RunRow → RunRow) : AgentTables B :=
  { s with runs := s.runs.map fun r => if r.openFor agent then f r else r }

/-- `INSERT ... ON CONFLICT (incident_id, agent) DO UPDATE ... WHERE agent_runs.status <> 'done'` -/
def startRun (s : AgentTables B) (agent model promptVersion : String) : AgentTables B :=
  if s.runs.any fun r => r.agent = agent then
    s.updateRun agent fun r => { r with status := .running, model, promptVersion, steps := 0, result := [],
                                        error := none }
  else { s with runs := s.runs ++ [{ agent, status := .running, model, promptVersion }] }

def finishRun (s : AgentTables B) (agent : String) (steps : ℕ) (result : List (String × Json))
    (entries : List (Entry B)) :
    AgentTables B :=
  if s.runs.any (RunRow.openFor agent) then
    { s.updateRun agent fun r => { r with status := .done, steps, result } with board := s.board ++ entries }
  else s  -- another attempt finished it first; its entries are already there

def failRun (s : AgentTables B) (agent : String) (steps : ℕ) (error : String) : AgentTables B :=
  s.updateRun agent fun r => { r with status := .failed, steps, error := some (error.take 2000).copy }

def entries (s : AgentTables B) (kind : Option EntryKind) : List (Entry B) :=
  s.board.filter fun e => kind.all fun k => e.kind = k

end AgentTables

end Blackboard.Agents
