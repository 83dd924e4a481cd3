import Blackboard.Spec.AgentStore

/-! The two agent stores behind one protocol, on the agents of one incident: `MemoryAgentStore`, and
`PgAgentStore` with the lease held. A run is a row of `RunRow` in both; in memory the error of a
failed run is its result. -/

namespace Blackboard.Agents

/-- An operation of the protocol `AgentStore`. -/
inductive StoreOp (B : Type)
  | startRun (agent model promptVersion : String)
  | finishRun (agent : String) (steps : ℕ) (result : List (String × Json)) (entries : List (Entry B))
  | failRun (agent : String) (steps : ℕ) (error : String)
  | entries (kind : Option EntryKind)
  | runs

/-- What an operation answers. Of a run its agent, status and steps are compared. -/
inductive Reply (B : Type)
  | done
  | raised
  | entries (es : List (Entry B))
  | runs (rs : List (String × RunStatus × ℕ))

def RunRow.seen (r : RunRow) : String × RunStatus × ℕ := (r.agent, r.status, r.steps)

variable {B : Type}

/-! In memory. -/

structure MemoryStore (B : Type) where
  /-- `run_rows`, in the order of a dict. -/
  runRows : List RunRow := []
  board : List (Entry B) := []

namespace MemoryStore

/-- `self.run_rows.get((incident_id, agent))` -/
def run? (s : MemoryStore B) (agent : String) : Option RunRow := s.runRows.find? fun r => r.agent = agent

/-- `self.run_rows[(incident_id, agent)] = r` -/
def put (s : MemoryStore B) (r : RunRow) : MemoryStore B :=
  { s with runRows := if s.runRows.any fun q => q.agent = r.agent then
      s.runRows.map fun q => if q.agent = r.agent then r else q else s.runRows ++ [r] }

def startRun (s : MemoryStore B) (agent model promptVersion : String) : MemoryStore B :=
  match s.run? agent with
  | none => s.put { agent, status := .running, model, promptVersion }
  | some current =>
    if current.status ≠ .done then s.put { agent, status := .running, model, promptVersion } else s

/-- Nothing is left to do where `run_rows` has no such run: a KeyError. -/
def finishRun (s : MemoryStore B) (agent : String) (steps : ℕ) (result : List (String × Json))
    (entries : List (Entry B)) :
    Option (MemoryStore B) :=
  (s.run? agent).map fun run =>
    { s.put { agent, status := .done, model := run.model, promptVersion := run.promptVersion, steps, result } with
      board := s.board ++ entries }

def failRun (s : MemoryStore B) (agent : String) (steps : ℕ) (error : String) : Option (MemoryStore B) :=
  (s.run? agent).map fun run =>
    s.put { agent, status := .failed, model := run.model, promptVersion := run.promptVersion, steps,
            result := [("error", .str error)] }

def entries (s : MemoryStore B) (kind : Option EntryKind) : List (Entry B) :=
  s.board.filter fun e => kind.all fun k => e.kind = k

def write (s : MemoryStore B) : Option (MemoryStore B) → Reply B × MemoryStore B
  | some s' => (.done, s')
  | none => (.raised, s)

def step (s : MemoryStore B) : StoreOp B → Reply B × MemoryStore B
  | .startRun agent model promptVersion => (.done, s.startRun agent model promptVersion)
  | .finishRun agent steps result entries => s.write (s.finishRun agent steps result entries)
  | .failRun agent steps error => s.write (s.failRun agent steps error)
  | .entries kind => (.entries (s.entries kind), s)
  | .runs => (.runs (s.runRows.map RunRow.seen), s)

end MemoryStore

/-! In Postgres. -/

/-- What the database does with values: whether it takes the parameters of an operation (no U+0000, and
numbers that fit their columns), and what a `jsonb` column gives back of a body. -/
structure Columns (B : Type) where
  takes : StoreOp B → Bool
  body : B → B

namespace AgentTables

variable (pg : Columns B)

def stored (e : Entry B) : Entry B := { e with body := pg.body e.body }

/-- A statement that the database refuses raises, and its transaction is rolled back. -/
def write (s : AgentTables B) (op : StoreOp B) (s' : AgentTables B) : Reply B × AgentTables B :=
  if pg.takes op then (.done, s') else (.raised, s)

def step (s : AgentTables B) (op : StoreOp B) : Reply B × AgentTables B :=
  match op with
  | .startRun agent model promptVersion => s.write pg op (s.startRun agent model promptVersion)
  | .finishRun agent steps result entries => s.write pg op (s.finishRun agent steps result (entries.map (stored pg)))
  | .failRun agent steps error => s.write pg op (s.failRun agent steps error)
  | .entries kind => (.entries (s.entries kind), s)
  | .runs => (.runs (s.runs.map RunRow.seen), s)

end AgentTables

end Blackboard.Agents
