import Blackboard.Lib.JsonAscii
import Blackboard.Spec.Sse
import Blackboard.Spec.Stream

/-! The change stream as text: what `_frame` and `stream` write, which arrives in pieces of any
length, and the page's client, which parses it and connects again. `load` is the document that
the table gives back for a payload. -/

namespace Blackboard.Stream

open Sse (Text)

def Event.name : Event → String
  | .ready => "ready"
  | .audit _ => "audit"
  | .activity .. => "activity"

/-- The data of an event; those of an audit row are its `_mapping`. -/
def Event.json (load : Json → Json) : Event → Json
  | .ready => .obj []
  | .audit r =>
    .obj [("seq", .num r.seq), ("ts", .str r.entry.ts.isoformat), ("actor", .str r.entry.actor),
      ("event", .str r.entry.event), ("subject", .str r.entry.subject), ("payload", load r.entry.payload)]
  | .activity incidentId agents => .obj [("incident_id", .str incidentId), ("agents", .arr (agents.map .str))]

def Frame.data (load : Json → Json) (f : Frame) : Text := (f.event.json load).printAscii

/-- `_frame` -/
def Frame.text (load : Json → Json) (f : Frame) : Text :=
  "id: ".toList ++ f.id.str ++ "\nevent: ".toList ++ f.event.name.toList ++ "\ndata: ".toList ++ f.data load ++
  "\n\n".toList

def retry : Text := "retry: 2000\n".toList

def ping : Text := ": ping\n\n".toList

/-- The statement that ends a poll. -/
def Changes.last : Changes → Bool
  | .tool .. => true
  | _ => false

/-- A connection of `stream` with the parser that reads it: `wire` is what was sent and has not arrived. -/
structure Pipe where
  cursor : Cursor
  stage : Changes := .audit
  polled : Option (List AuditLog.Row × ℕ) := none
  wire : Text
  parser : Sse.SseParser := {}

structure Net where
  audit : AuditLog.State
  llm : Calls
  tool : Calls
  conn : Option Pipe
  client : Sse.Client

/-- The page opens the stream after the event `lastEventId`. -/
def Net.init (lastEventId : Option Text) : Net := ⟨AuditLog.init, {}, {}, none, Sse.openStream lastEventId⟩

/-- A statement of one of the writers. -/
inductive Write
  | audit (op : AuditLog.Op)
  | insert (k : Kind) (tenantId : String) (incidentId agent : Option String)
  | commit (k : Kind) (id : ℕ)
  | rollback (k : Kind) (id : ℕ)

def Write.op : Write → Op
  | .audit op => .audit op
  | .insert k tenantId incidentId agent => .insert k tenantId incidentId agent
  | .commit k id => .commit k id
  | .rollback k id => .rollback k id

inductive Net.Op
  | write (op : Write)
  | connect
  /-- No answer, or one that is not a stream. -/
  | refused
  /-- The next statement of `changes`. `quiet`: nothing was sent for as long as `_PING_S`. -/
  | poll (quiet : Bool)
  /-- The reader gets the next characters, `size` of them if there are so many. -/
  | arrive (size : ℕ)
  /-- `broken`: the reader raises, rather than ends. -/
  | cut (broken : Bool)

namespace Net

variable (sha256 : String → String) (load : Json → Json) (t : String) (n : ℕ)

/-- What the statements of the writers and of `changes` see. -/
def tables (s : Net) : World := ⟨s.audit, s.llm, s.tool, none, {}⟩

def connect (s : Net) : Net :=
  let start := (Cursor.parse s.client.header).getD (s.tables.now t)
  { s with conn := some { cursor := start, wire := retry ++ Frame.text load { event := .ready, id := start } } }

def poll (s : Net) (quiet : Bool) (k : Pipe) : Pipe :=
  let next := s.tables.poll t n { cursor := k.cursor, stage := k.stage, wire := [], polled := k.polled }
  let sent := next.wire.flatMap (Frame.text load) ++ if k.stage.last && next.wire.isEmpty && quiet then ping else []
  { k with cursor := next.cursor, stage := next.stage, polled := next.polled, wire := k.wire ++ sent }

def arrive (s : Net) (size : ℕ) (k : Pipe) : Net :=
  let value := k.wire.take size
  { s with
    conn := some { k with wire := k.wire.drop size, parser := (k.parser.feed value).1 }
    client := s.client.read k.parser [value] }

def failed (s : Net) : Net := { s with client := { s.client with failures := s.client.failures + 1 } }

def step (s : Net) : Op → Option Net
  | .write op =>
    (Stream.step sha256 t n s.tables op.op).map fun w => { s with audit := w.audit, llm := w.llm, tool := w.tool }
  | .connect => if s.conn.isSome then none else some (s.connect load t)
  | .refused => if s.conn.isSome then none else some s.failed
  | .poll quiet => s.conn.map fun k => { s with conn := some (s.poll load t n quiet k) }
  | .arrive size => s.conn.map (s.arrive size)
  | .cut broken =>
    s.conn.map fun _ =>
      let s := { s with conn := none }
      if broken then s.failed else s

end Net

end Blackboard.Stream
