import Mathlib.Data.List.MinMax
import Blackboard.Spec.Audit
import Blackboard.Lib.Table
import Blackboard.Lib.Runs
import Blackboard.Lib.Journal

/-! `incidents` and `audit_log` statement by statement, under READ COMMITTED. Any number of
transactions are open at once. A statement sees what is committed and what its own
transaction wrote; a row another open transaction wrote is locked until that one ends, and
so are its entries in the unique index and the advisory lock of the audit log. A step that
has to wait is not possible. `H` is the type of hashes. -/

namespace Blackboard

/-- What `audit.append` computes with: the hash of the empty chain, and the hash of a row's
content on top of the hash before it. -/
structure Hashing (H : Type) where
  GENESIS : H
  digest : H → Time → AuditEntry → H

structure AuditRow (H : Type) where
  seq : ℕ
  ts : Time
  entry : AuditEntry
  prevHash : H
  hash : H

/-- A row slot of `incidents`: the committed version, and the version an open transaction
wrote. A row that was inserted and rolled back leaves its slot empty. -/
structure Slot where
  committed : Option Incident := none
  dirty : Option (ℕ × Incident) := none

/-- Where a transaction stands inside the call it makes. -/
inductive Pc
  | idle
  /-- `open_or_merge`, about to INSERT or to UPDATE, with this many rounds of the loop left. -/
  | inserting (o : Opening) (left : ℕ)
  | merging (o : Opening) (left : ℕ)
  | moving (m : Transition)
  /-- About to append to the audit log: for `transition`, or for a caller of its own. -/
  | appending (e : AuditEntry) (move : Option Transition)
  /-- A statement failed: the database takes nothing more from this transaction. -/
  | failed

structure Session (H : Type) where
  now : Time
  pc : Pc := .idle
  appended : List (AuditRow H) := []
  /-- History: the calls of `transition` that returned a version. -/
  moves : List Transition := []

structure Store (H : Type) where
  slots : Table Slot
  audit : List (AuditRow H)
  nextSeq : ℕ
  lock : Option ℕ
  sessions : ℕ → Option (Session H)
  /-- History: the calls of `transition` that committed. -/
  moves : List Transition

inductive Call
  | openOrMerge (o : Opening)
  | transition (m : Transition)
  /-- Another caller of `append`; `incident.transition` is written by `transition` alone. -/
  | append (e : AuditEntry)

inductive StoreOp
  | begin (t : ℕ) (now : Time)
  | call (t : ℕ) (c : Call)
  /-- The next statement of the call; `ts` is the wall clock. -/
  | next (t : ℕ) (ts : Time)
  | commit (t : ℕ)
  | rollback (t : ℕ)

def Event.transition? : Event → Option (Journal.Entry State)
  | .incidentTransition s d v _ => some ⟨s, d, v⟩
  | _ => none

namespace Slot

/-- What transaction `t` sees of the row. -/
def visible (t : ℕ) (x : Slot) : Option Incident :=
  match x.dirty with
  | some (u, i) => if u = t then some i else x.committed
  | none => x.committed

def lockedFor (t : ℕ) (x : Slot) : Bool :=
  match x.dirty with
  | some (u, _) => u ≠ t
  | none => false

def isOpen (t : ℕ) (o : Opening) (x : Slot) : Bool := (x.visible t).any (Incidents.openFor o)

/-- An entry of the unique index that another transaction has yet to decide. -/
def undecided (t : ℕ) (o : Opening) (x : Slot) : Bool :=
  x.lockedFor t &&
    (x.committed.any (Incidents.openFor o) || x.dirty.any fun d => Incidents.openFor o d.2)

def write (t : ℕ) (f : Incident → Incident) (x : Slot) : Slot :=
  match x.visible t with
  | some i => { x with dirty := some (t, f i) }
  | none => x

def merge (t : ℕ) (now : Time) (o : Opening) (x : Slot) : Slot :=
  if x.isOpen t o then x.write t (Incidents.merged now o) else x

def settle (t : ℕ) (x : Slot) : Slot :=
  match x.dirty with
  | some (u, i) => if u = t then { committed := some i } else x
  | none => x

def abandon (t : ℕ) (x : Slot) : Slot :=
  match x.dirty with
  | some (u, _) => if u = t then { x with dirty := none } else x
  | none => x

end Slot

namespace Audit

variable {H : Type}

/-- `SELECT hash ... ORDER BY seq DESC LIMIT 1`, or GENESIS. -/
def prevHash (hashing : Hashing H) (rows : List (AuditRow H)) : H :=
  ((rows.argmax AuditRow.seq).map AuditRow.hash).getD hashing.GENESIS

def row (hashing : Hashing H) (seq : ℕ) (ts : Time) (e : AuditEntry) (rows : List (AuditRow H)) :
    AuditRow H :=
  { seq, ts, entry := e, prevHash := prevHash hashing rows,
    hash := hashing.digest (prevHash hashing rows) ts e }

end Audit

namespace Store

variable {H : Type}

def init : Store H := ⟨.empty, [], 1, none, fun _ => none, []⟩

def setSession (t : ℕ) (x : Option (Session H)) (s : Store H) : Store H :=
  { s with sessions := fun u => if u = t then x else s.sessions u }

def setSlots (slots : Table Slot) (s : Store H) : Store H := { s with slots }

def setPc (t : ℕ) (ses : Session H) (pc : Pc) (s : Store H) : Store H :=
  s.setSession t (some { ses with pc })

def call (t : ℕ) (ses : Session H) (s : Store H) : Call → Option (Store H)
  | .openOrMerge o => some (s.setPc t ses (.inserting o 3))
  | .transition m =>
    match Incidents.checkTransition m.fromState m.toState with
    | .ok _ => some (s.setPc t ses (.moving m))
    | .error _ => some s
  | .append e => if e.event.transition?.isSome then none else some (s.setPc t ses (.appending e none))

/-- `INSERT ... ON CONFLICT (tenant_id, fingerprint) WHERE closed_at IS NULL DO NOTHING`. The
check constraint refuses a priority above 3. -/
def insertStmt (t : ℕ) (ses : Session H) (o : Opening) (left : ℕ) (s : Store H) : Option (Store H) :=
  if 3 < o.priority then some (s.setPc t ses .failed)
  else if s.slots.rows.any (Slot.undecided t o) then none
  else if s.slots.rows.any (Slot.isOpen t o) then some (s.setPc t ses (.merging o left))
  else some ((s.setSlots (s.slots.insert { dirty := some (t, Incidents.opened ses.now o) })).setPc
    t ses .idle)

/-- `UPDATE ... SET alert_count = alert_count + 1, ... WHERE ... closed_at IS NULL`. With no
row to merge into, the loop tries again, three rounds in all. -/
def mergeStmt (t : ℕ) (ses : Session H) (o : Opening) (left : ℕ) (s : Store H) : Option (Store H) :=
  if s.slots.rows.any (fun x => x.isOpen t o && x.lockedFor t) then none
  else if s.slots.rows.any (Slot.isOpen t o) then
    some ((s.setSlots (s.slots.update fun _ => Slot.merge t ses.now o)).setPc t ses .idle)
  else some (s.setPc t ses (if 1 < left then .inserting o (left - 1) else .idle))

/-- The UPDATE of `transition`; without a row it raises StaleVersion. -/
def moveStmt (t : ℕ) (ses : Session H) (m : Transition) (s : Store H) : Option (Store H) :=
  match (s.slots.get? m.incident).bind (Slot.visible t) with
  | none => some (s.setPc t ses .idle)
  | some i =>
    if Incidents.isAt m.fromState m.expectedVersion i then
      if (s.slots.get? m.incident).any (Slot.lockedFor t) then none
      else some ((s.setSlots (s.slots.modify m.incident
          (Slot.write t (Incidents.moved ses.now m.toState)))).setPc t ses
        (.appending (Incidents.transitionEntry m i.tenantId (i.version + 1)) (some m)))
    else some (s.setPc t ses .idle)

/-- `audit.append`: the advisory lock, the last hash, the INSERT. The lock is kept to the end
of the transaction, so between the first append and the commit nobody else gets a `seq`. -/
def appendStmt (hashing : Hashing H) (t : ℕ) (ts : Time) (ses : Session H) (e : AuditEntry)
    (move : Option Transition) (s : Store H) : Option (Store H) :=
  if s.lock.any (· ≠ t) then none
  else some ({ s with lock := some t, nextSeq := s.nextSeq + 1 }.setSession t
    (some { ses with pc := .idle,
                     appended := ses.appended ++
                       [Audit.row hashing s.nextSeq ts e (s.audit ++ ses.appended)],
                     moves := ses.moves ++ move.toList }))

def next (hashing : Hashing H) (t : ℕ) (ts : Time) (ses : Session H) (s : Store H) : Option (Store H) :=
  match ses.pc with
  | .idle | .failed => none
  | .inserting o left => s.insertStmt t ses o left
  | .merging o left => s.mergeStmt t ses o left
  | .moving m => s.moveStmt t ses m
  | .appending e move => s.appendStmt hashing t ts ses e move

def unlock (t : ℕ) (s : Store H) : Option ℕ := if s.lock = some t then none else s.lock

def commit (t : ℕ) (ses : Session H) (s : Store H) : Store H :=
  { s with slots := s.slots.update fun _ => Slot.settle t, audit := s.audit ++ ses.appended,
           lock := s.unlock t, moves := s.moves ++ ses.moves }.setSession t none

def rollback (t : ℕ) (s : Store H) : Store H :=
  { s with slots := s.slots.update fun _ => Slot.abandon t, lock := s.unlock t }.setSession t none

def step (hashing : Hashing H) (s : Store H) : StoreOp → Option (Store H)
  | .begin t now => if (s.sessions t).isSome then none else some (s.setSession t (some { now }))
  | .call t c => (s.sessions t).bind fun ses =>
      match ses.pc with
      | .idle => s.call t ses c
      | _ => none
  | .next t ts => (s.sessions t).bind fun ses => s.next hashing t ts ses
  | .commit t => (s.sessions t).bind fun ses =>
      match ses.pc with
      | .idle => some (s.commit t ses)
      | _ => none
  | .rollback t => (s.sessions t).map fun _ => s.rollback t

/-- The committed row of an incident. -/
def incident? (s : Store H) (id : ℕ) : Option Incident := (s.slots.get? id).bind Slot.committed

end Store

/-- The moves of one incident that the audit rows record, in the order of the rows. -/
def trail {H : Type} (id : ℕ) (rows : List (AuditRow H)) : List (Journal.Entry State) :=
  rows.filterMap fun r => if r.entry.subject = .incident id then r.entry.event.transition? else none

end Blackboard
