import Blackboard.Lib.Datetime
import Blackboard.Lib.HashChain
import Blackboard.Lib.JsonText
import Blackboard.Lib.Runs
import Blackboard.Lib.Table

/-! `app.db.audit`: the rows as the table holds them, `append` statement by statement in any
number of transactions at once, and `verify`. `sha256` gives the hex digest of a text. -/

namespace Blackboard.AuditLog

def GENESIS : String := String.ofList (List.replicate 64 '0')

/-- What a row says, apart from the hashes. -/
structure Entry where
  ts : Datetime
  tenantId : Option String
  actor : String
  event : String
  subject : String
  payload : Json

structure Row where
  seq : ℕ
  entry : Entry
  prevHash : String
  hash : String

/-- The arguments of `append`. -/
structure Args where
  actor : String
  event : String
  subject : String
  tenantId : Option String := none
  payload : Option Json := none

def canonical (prevHash : String) (e : Entry) : Json :=
  .arr [.str prevHash, .str e.ts.isoformat, (e.tenantId.map Json.str).getD .null, .str e.actor, .str e.event,
    .str e.subject, e.payload]

def digest (sha256 : String → String) (prevHash : String) (e : Entry) : String :=
  sha256 (canonical prevHash e).dumps

/-- `payload or {}` -/
def Args.body (a : Args) : Json :=
  match a.payload with
  | some p => if p.truthy then p else .obj []
  | none => .obj []

def Args.entry (a : Args) (ts : Datetime) : Entry := ⟨ts, a.tenantId, a.actor, a.event, a.subject, a.body⟩

def chain (sha256 : String → String) : HashChain Row String where
  prev := Row.prevHash
  hash := Row.hash
  digest p r := digest sha256 p r.entry
  genesis := GENESIS

/-! `verify` over the rows in `seq` order. -/

structure Verification where
  ok : Bool
  checked : ℕ
  firstBadSeq : Option ℕ := none
  reason : String := ""
deriving DecidableEq, Repr

def verify (sha256 : String → String) (rows : List Row) : Verification :=
  match (chain sha256).scan GENESIS 0 rows with
  | .ok checked => { ok := true, checked }
  | .error (.prev checked r) =>
    { ok := false, checked, firstBadSeq := some r.seq, reason := "prev_hash does not match the previous row" }
  | .error (.content checked r) =>
    { ok := false, checked, firstBadSeq := some r.seq, reason := "row content does not match its hash" }

/-! Transactions. -/

/-- Where a transaction stands: between two calls, or before a statement of `append`. -/
inductive Pc
  | idle
  | locking (a : Args)
  | reading (a : Args)
  | inserting (a : Args) (prevHash : String)
  /-- A statement failed, and the transaction can only be rolled back. -/
  | failed
  | ended

structure Session where
  pc : Pc := .idle
  /-- The rows it inserted, until it ends. -/
  own : List Row := []

structure State where
  committed : List Row
  nextSeq : ℕ
  /-- Who holds the advisory lock. -/
  lock : Option ℕ
  sessions : Table Session

inductive Op
  | begin
  | append (t : ℕ) (a : Args)
  /-- The next statement of `append`, with the clock of the process. -/
  | next (t : ℕ) (now : Datetime)
  | commit (t : ℕ)
  | rollback (t : ℕ)

def init : State := ⟨[], 1, none, .empty⟩

/-- `SELECT hash FROM audit_log ORDER BY seq DESC LIMIT 1` over the rows a transaction sees. -/
def lastHash (rows : List Row) : Option String := (rows.argmax Row.seq).map Row.hash

/-- `prev or GENESIS` -/
def prevHash (prev : Option String) : String :=
  match prev with
  | some h => if h = "" then GENESIS else h
  | none => GENESIS

namespace State

def set (s : State) (t : ℕ) (x : Session) : State := { s with sessions := s.sessions.modify t fun _ => x }

/-- `SELECT pg_advisory_xact_lock(...)` waits while another transaction holds the lock. -/
def lockStmt (s : State) (t : ℕ) (x : Session) (a : Args) : Option State :=
  if s.lock.any (· ≠ t) then none
  else some ({ s with lock := some t }.set t { x with pc := .reading a })

def selectStmt (s : State) (t : ℕ) (x : Session) (a : Args) : State :=
  s.set t { x with pc := .inserting a (prevHash (lastHash (s.committed ++ x.own))) }

/-- The INSERT takes a number of the sequence whatever becomes of it. Hashes are unique, and
a hash that another open transaction inserted has to wait. -/
def insertStmt (sha256 : String → String) (s : State) (t : ℕ) (x : Session) (a : Args) (prev : String)
    (now : Datetime) : Option State :=
  let r : Row := ⟨s.nextSeq, a.entry now, prev, digest sha256 prev (a.entry now)⟩
  if (s.committed ++ x.own).any (·.hash = r.hash) then
    some ({ s with nextSeq := s.nextSeq + 1 }.set t { x with pc := .failed })
  else if s.sessions.rows.any fun y => y.own.any (·.hash = r.hash) then none
  else some ({ s with nextSeq := s.nextSeq + 1 }.set t ⟨.idle, x.own ++ [r]⟩)

def unlock (s : State) (t : ℕ) : Option ℕ := if s.lock = some t then none else s.lock

def commit (s : State) (t : ℕ) (x : Session) : State :=
  { s with committed := s.committed ++ x.own, lock := s.unlock t }.set t ⟨.ended, []⟩

def rollback (s : State) (t : ℕ) : State := { s with lock := s.unlock t }.set t ⟨.ended, []⟩

/-- The committed rows in `seq` order. -/
def table (s : State) : List Row := s.committed.insertionSort fun a b => a.seq ≤ b.seq

end State

def step (sha256 : String → String) (s : State) : Op → Option State
  | .begin => some { s with sessions := s.sessions.insert {} }
  | .append t a => (s.sessions.get? t).bind fun x =>
      match x.pc with
      | .idle => some (s.set t { x with pc := .locking a })
      | _ => none
  | .next t now => (s.sessions.get? t).bind fun x =>
      match x.pc with
      | .locking a => s.lockStmt t x a
      | .reading a => some (s.selectStmt t x a)
      | .inserting a prev => s.insertStmt sha256 t x a prev now
      | _ => none
  | .commit t => (s.sessions.get? t).bind fun x =>
      match x.pc with
      | .idle => some (s.commit t x)
      | _ => none
  | .rollback t => (s.sessions.get? t).bind fun x =>
      match x.pc with
      | .ended => none
      | _ => some (s.rollback t)

end Blackboard.AuditLog
