import Mathlib.Logic.Function.Basic
import Blackboard.Lib.Datetime
import Blackboard.Lib.JsonText

/-! `app.tools.sources`: what a backend answered, the source that records it and the one that
answers from a cassette. -/

namespace Blackboard.Tools

/-- A failure the calling model can read and react to. -/
structure ToolError where
  code : String
  message : String
  retryable : Bool := false
  attempts : ℕ := 1

structure Fetched where
  raw : Json
  fetchedAt : Datetime
  attempts : ℕ
  source : String

/-- An entry of a tool cassette: the call, and its raw answer or its error. `incident` is the tag of
an exported one. -/
structure Entry where
  incident : Option String := none
  agent : Option String
  tool : String
  args : Json
  fetchedAt : Datetime
  answer : Except (String × String) Json

/-- As the cassette writes it. -/
def Entry.json (e : Entry) : Json :=
  .obj ((e.incident.map fun i => ("incident", Json.str i)).toList ++ [("tool", .str e.tool), ("args", e.args)] ++
    (e.agent.map fun a => ("agent", Json.str a)).toList ++ [("at", .str e.fetchedAt.isoformat)] ++
    match e.answer with
    | .ok raw => [("raw", raw)]
    | .error (code, message) => [("error", .obj [("code", .str code), ("message", .str message)])])

/-- `canonical_json([...])` -/
def key (parts : List Json) : String := (Json.arr parts).dumps

def cassetteKey (tool : String) (args : Json) : String := key [.str tool, args]

def agentKey (agent tool : String) (args : Json) : String := key [.str agent, .str tool, args]

/-- A validated call. `agent` is who asked. -/
structure Call where
  agent : Option String
  tool : String
  args : Json

/-! Recording. -/

/-- What `RecordingSource.fetch` appends for an answer of the live source; an error has the time at
which it arrived. -/
def recorded (c : Call) (now : Datetime) : Except ToolError Fetched → Entry
  | .ok got => { agent := c.agent, tool := c.tool, args := c.args, fetchedAt := got.fetchedAt, answer := .ok got.raw }
  | .error e => { agent := c.agent, tool := c.tool, args := c.args, fetchedAt := now,
                  answer := .error (e.code, e.message) }

/-! Replay. -/

structure ReplaySource where
  queues : String → List Entry := fun _ => []
  last : String → Option Entry := fun _ => none

namespace ReplaySource

/-- `self._queues.setdefault(key, []).append(e)` -/
def push (s : ReplaySource) (k : String) (e : Entry) : ReplaySource :=
  { s with queues := Function.update s.queues k (s.queues k ++ [e]) }

/-- `__post_init__` of one entry. -/
def add (s : ReplaySource) (e : Entry) : ReplaySource :=
  let s := s.push (cassetteKey e.tool e.args) e
  match e.agent with
  | some a => s.push (agentKey a e.tool e.args) e
  | none => s

def ofEntries (entries : List Entry) : ReplaySource := entries.foldl add {}

/-- `_take` -/
def take (s : ReplaySource) (k : String) : Option Entry × ReplaySource :=
  match s.queues k with
  | e :: rest => (some e, { queues := Function.update s.queues k rest, last := Function.update s.last k (some e) })
  | [] => (s.last k, s)

/-- The entry that answers a call: its agent's, or else anybody's. -/
def find (s : ReplaySource) (c : Call) : Option Entry × ReplaySource :=
  match c.agent with
  | none => s.take (cassetteKey c.tool c.args)
  | some a =>
    match s.take (agentKey a c.tool c.args) with
    | (some e, s) => (some e, s)
    | (none, s) => s.take (cassetteKey c.tool c.args)

end ReplaySource

/-- What an entry, or the lack of one, answers. `repr` is Python's, of the arguments. -/
def replayed (repr : Json → String) (c : Call) : Option Entry → Except ToolError Fetched
  | none => .error { code := "replay_miss", message := "no recorded answer for " ++ c.tool ++ " " ++ repr c.args }
  | some e =>
    match e.answer with
    | .error (code, message) => .error { code, message }
    | .ok raw => .ok { raw, fetchedAt := e.fetchedAt, attempts := 1, source := "replay" }

namespace ReplaySource

def fetch (repr : Json → String) (s : ReplaySource) (c : Call) : Except ToolError Fetched × ReplaySource :=
  (replayed repr c (s.find c).1, (s.find c).2)

/-- The answers to calls in the order in which they are made. -/
def answers (repr : Json → String) : ReplaySource → List Call → List (Except ToolError Fetched)
  | _, [] => []
  | s, c :: cs => (s.fetch repr c).1 :: answers repr (s.fetch repr c).2 cs

end ReplaySource

end Blackboard.Tools
