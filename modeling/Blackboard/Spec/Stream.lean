import Blackboard.Spec.AuditLog
import Blackboard.Spec.Policy

/-! The console's change stream: the server's cursor and its polls, a client that resumes with the
id of the last event it got, and the transactions that write what the stream announces. -/

namespace Blackboard.Stream

structure Cursor where
  audit : ℕ := 0
  llm : ℕ := 0
  tool : ℕ := 0
deriving DecidableEq

def Cursor.str (c : Cursor) : List Char :=
  ['.'].intercalate [Nat.toDigits 10 c.audit, Nat.toDigits 10 c.llm, Nat.toDigits 10 c.tool]

def Cursor.parse (value : Option (List Char)) : Option Cursor :=
  match ((value.getD []).splitOn '.').map Strings.int? with
  | [some a, some m, some t] => if 0 ≤ min (min a m) t then some ⟨a.toNat, m.toNat, t.toNat⟩ else none
  | _ => none

/-! `llm_calls` and `tool_calls`, which the stream reads alike. -/

structure Call where
  id : ℕ
  tenantId : String
  incidentId : Option String
  agent : Option String
deriving DecidableEq

/-- The rows in the order they were committed, and those of transactions that have not ended. -/
structure Calls where
  nextId : ℕ := 1
  opened : List Call := []
  rows : List Call := []

def Calls.insert (c : Calls) (tenantId : String) (incidentId agent : Option String) : Calls :=
  { c with nextId := c.nextId + 1, opened := c.opened ++ [⟨c.nextId, tenantId, incidentId, agent⟩] }

def Calls.commit (c : Calls) (id : ℕ) : Option Calls :=
  (c.opened.find? (·.id = id)).map fun r => { c with opened := c.opened.erase r, rows := c.rows ++ [r] }

def Calls.rollback (c : Calls) (id : ℕ) : Calls := { c with opened := c.opened.filter (·.id ≠ id) }

/-- `WHERE tenant_id = :t AND id > :since ORDER BY id LIMIT :n` -/
def Calls.select (c : Calls) (t : String) (since n : ℕ) : List Call :=
  ((c.rows.filter fun r => r.tenantId = t ∧ since < r.id).insertionSort fun a b => a.id ≤ b.id).take n

/-- `COALESCE(MAX(...), 0)` -/
def maxOr0 (ids : List ℕ) : ℕ := ids.foldr max 0

inductive Event
  | ready
  | audit (row : AuditLog.Row)
  | activity (incidentId : String) (agents : List String)

/-- One event. `read` is what both tables held when the poll read them, and is not sent. -/
structure Frame where
  event : Event
  id : Cursor
  read : List Call × List Call := ([], [])

/-- The incidents of the calls with their agents, both in order. -/
def activity (found : List Call) : List (String × List String) :=
  (Strings.sortedSet (found.filterMap Call.incidentId)).map fun i =>
    (i, Strings.sortedSet (((found.filter fun r => r.incidentId = some i).filterMap Call.agent).filter (· ≠ "")))

def after (since : Cursor) (rows : List AuditLog.Row) (llm tool : List Call) : Cursor :=
  ⟨(rows.getLast?.map AuditLog.Row.seq).getD since.audit, (llm.getLast?.map Call.id).getD since.llm,
    (tool.getLast?.map Call.id).getD since.tool⟩

/-- What `changes` returns of the three results. -/
def frames (since : Cursor) (rows : List AuditLog.Row) (llm tool : List Call) (read : List Call × List Call) :
    List Frame :=
  (rows.map fun r => { event := .audit r, id := ⟨r.seq, since.llm, since.tool⟩ }) ++
    (activity (llm ++ tool)).map fun a => { event := .activity a.1 a.2, id := after since rows llm tool, read }

/-- Before which statement of `changes` a connection stands; each reads what is committed by then. -/
inductive Changes
  | audit
  | llm (rows : List AuditLog.Row)
  | tool (rows : List AuditLog.Row) (llm held : List Call)

/-- A connection: `cursor` is that of the last poll, `wire` what was sent and has not arrived.
`polled` is what the audit table held at the last poll, and how many rows the poll got. -/
structure Connection where
  cursor : Cursor
  stage : Changes := .audit
  wire : List Frame
  polled : Option (List AuditLog.Row × ℕ) := none

/-- `opened` is what both tables held when the stream was opened. -/
structure Client where
  lastId : Option (List Char) := none
  delivered : List Frame := []
  opened : List Call × List Call := ([], [])

structure World where
  audit : AuditLog.State
  llm : Calls
  tool : Calls
  conn : Option Connection
  client : Client

def init : World := ⟨AuditLog.init, {}, {}, none, {}⟩

inductive Kind
  | llm
  | tool
deriving DecidableEq

inductive Op
  | audit (op : AuditLog.Op)
  | insert (k : Kind) (tenantId : String) (incidentId agent : Option String)
  | commit (k : Kind) (id : ℕ)
  | rollback (k : Kind) (id : ℕ)
  /-- `lastEventId` is the id that a new stream is opened with, if any. -/
  | connect (lastEventId : Option (List Char))
  | poll
  | deliver
  | cut

namespace World

def calls (w : World) : Kind → Calls
  | .llm => w.llm
  | .tool => w.tool

def setCalls (w : World) : Kind → Calls → World
  | .llm, c => { w with llm := c }
  | .tool, c => { w with tool := c }

/-- The tenant's audit rows, `ORDER BY seq`. -/
def auditRows (w : World) (t : String) (since : ℕ) : List AuditLog.Row :=
  w.audit.table.filter fun r => r.entry.tenantId = some t ∧ since < r.seq

def now (w : World) (t : String) : Cursor :=
  ⟨maxOr0 ((w.audit.table.filter fun r => r.entry.tenantId = some t).map AuditLog.Row.seq),
    maxOr0 ((w.llm.rows.filter fun r => r.tenantId = t).map Call.id),
    maxOr0 ((w.tool.rows.filter fun r => r.tenantId = t).map Call.id)⟩

def connect (t : String) (w : World) (lastEventId : Option (List Char)) : World :=
  let start := (Cursor.parse (w.client.lastId <|> lastEventId)).getD (w.now t)
  { w with
    conn := some { cursor := start, wire := [{ event := .ready, id := start }] }
    client := if w.client.lastId = none then { w.client with opened := (w.llm.rows, w.tool.rows) } else w.client }

/-- The next statement of `changes`; after the last one its frames are sent. -/
def poll (t : String) (n : ℕ) (w : World) (k : Connection) : Connection :=
  match k.stage with
  | .audit =>
    let rows := (w.auditRows t k.cursor.audit).take n
    { k with stage := .llm rows, polled := some (w.audit.table, rows.length) }
  | .llm rows => { k with stage := .tool rows (w.llm.select t k.cursor.llm n) w.llm.rows }
  | .tool rows llm held =>
    let tool := w.tool.select t k.cursor.tool n
    { k with
      cursor := after k.cursor rows llm tool
      stage := .audit
      wire := k.wire ++ frames k.cursor rows llm tool (held, w.tool.rows) }

def deliver (w : World) (k : Connection) : Option World :=
  match k.wire with
  | [] => none
  | f :: rest =>
    some { w with
      conn := some { k with wire := rest }
      client := { w.client with lastId := some f.id.str, delivered := w.client.delivered ++ [f] } }

end World

/-- The stream of tenant `t`, `n` rows a statement. -/
def step (sha256 : String → String) (t : String) (n : ℕ) (w : World) : Op → Option World
  | .audit op => (AuditLog.step sha256 w.audit op).map fun a => { w with audit := a }
  | .insert k tenantId incidentId agent => some (w.setCalls k ((w.calls k).insert tenantId incidentId agent))
  | .commit k id => ((w.calls k).commit id).map (w.setCalls k)
  | .rollback k id => some (w.setCalls k ((w.calls k).rollback id))
  | .connect lastEventId => if w.conn.isSome then none else some (w.connect t lastEventId)
  | .poll => w.conn.map fun k => { w with conn := some (w.poll t n k) }
  | .deliver => w.conn.bind w.deliver
  | .cut => w.conn.map fun _ => { w with conn := none }

end Blackboard.Stream
