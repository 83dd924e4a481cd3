import Blackboard.Spec.Queue

/-! `app.worker.runner`: the loop of one worker, its job tasks and the table `_running` that
knows them. Between two awaits nothing else of the worker runs. The jobs table belongs to
everybody: any operation of the queue may come in between, from a task of this worker (its
heartbeat, its result), from another worker or from a reaper. -/

namespace Blackboard

structure WorkerSettings where
  workerId : String
  concurrency : ℤ := 4
  reservedP0Slots : ℤ := 1
  leaseTtlS : Time := 30
  kinds : List Kind

/-- A task made by `asyncio.create_task(self._execute(job))`. -/
structure JobTask where
  job : Job
  alive : Bool := true
  cancelled : Bool := false
deriving DecidableEq, Repr

/-- Where `run` stands. -/
inductive RunLoop
  | polling
  /-- In `_claim`, with the slots counted and the statement sent. -/
  | claiming (maxPriority : ℕ)
  | claimed (job : Job)
  /-- In `_drain`: waiting for tasks, then for the ones it cancelled. -/
  | waiting (tasks : List ℕ)
  | gathering (pending : List ℕ)
  | stopped
deriving DecidableEq, Repr

structure Worker where
  jobs : JobTable
  /-- `_running`, a job's id and its task, in the order of a dict. -/
  running : List (ℕ × ℕ) := []
  tasks : Table JobTask := .empty
  loop : RunLoop := .polling
  stop : Bool := false

inductive WorkerOp
  /-- The top of the loop. -/
  | poll
  /-- The transaction of the claim; it may fail before or after its commit. -/
  | claim (now : Time) (locked : ℕ → Bool) (failed : Bool)
  | claimFailed
  | start
  /-- The end of `_execute`. -/
  | finish (task : ℕ)
  | heartbeat (task : ℕ) (now : Time)
  /-- Anybody's operation on the queue. -/
  | queue (op : QueueOp)
  | setStop
  /-- `run` itself is cancelled. -/
  | abort
  /-- `asyncio.wait` returns, with everything done or after the grace. -/
  | waited
  | gathered

namespace Worker

def setEntry (k v : ℕ) (d : List (ℕ × ℕ)) : List (ℕ × ℕ) :=
  if d.any (·.1 = k) then d.map fun e => if e.1 = k then (k, v) else e else d ++ [(k, v)]

/-- `pop(k, None)` -/
def popEntry (k : ℕ) (d : List (ℕ × ℕ)) : List (ℕ × ℕ) := d.filter (·.1 ≠ k)

def isAlive (w : Worker) (i : ℕ) : Bool := (w.tasks.get? i).any JobTask.alive

/-- The tasks that have not ended. -/
def alive (w : Worker) : List ℕ := (List.range w.tasks.size).filter w.isAlive

def belowP0 (w : Worker) (i : ℕ) : Bool := (w.tasks.get? i).any fun t => t.job.priority ≠ 0

/-- `_drain` -/
def drain (w : Worker) : Worker :=
  if w.running.isEmpty then { w with loop := .stopped }
  else { w with loop := .waiting (w.running.map Prod.snd) }

/-- The slots that are free, and what may be claimed for them. -/
def poll (s : WorkerSettings) (w : Worker) : Worker :=
  if w.stop then w.drain
  else
    let free := s.concurrency - w.running.length
    if free ≤ 0 then w
    else { w with loop := .claiming (if s.reservedP0Slots < free then 3 else 0) }

def claim (s : WorkerSettings) (now : Time) (locked : ℕ → Bool) (failed : Bool) (maxPriority : ℕ) (w : Worker) :
    Worker :=
  let x := Jobs.claim now s.workerId s.leaseTtlS maxPriority (some s.kinds) locked w.jobs
  { w with jobs := x.1, loop := match x.2 with
      | some job => if failed then .polling else .claimed job
      | none => .polling }

def start (job : Job) (w : Worker) : Worker :=
  { w with tasks := w.tasks.insert { job }, running := setEntry job.id w.tasks.size w.running, loop := .polling }

/-- The `finally` of `_execute`. -/
def finish (i : ℕ) (t : JobTask) (w : Worker) : Worker :=
  { w with running := popEntry t.job.id w.running, tasks := w.tasks.modify i fun t => { t with alive := false } }

/-- `task.cancel()`, of a task that may have ended. -/
def cancel (ids : List ℕ) (w : Worker) : Worker :=
  { w with tasks := w.tasks.update fun i t => if ids.contains i && t.alive then { t with cancelled := true } else t }

def heartbeat (s : WorkerSettings) (i : ℕ) (t : JobTask) (now : Time) (w : Worker) : Worker :=
  let x := Jobs.heartbeat now t.job s.leaseTtlS w.jobs
  if x.2 then { w with jobs := x.1 } else { w with jobs := x.1 }.cancel [i]

def step (s : WorkerSettings) (w : Worker) : WorkerOp → Option Worker
  | .poll => if w.loop = .polling then some (w.poll s) else none
  | .claim now locked failed =>
    match w.loop with
    | .claiming mp => some (w.claim s now locked failed mp)
    | _ => none
  | .claimFailed =>
    match w.loop with
    | .claiming _ => some { w with loop := .polling }
    | _ => none
  | .start =>
    match w.loop with
    | .claimed job => some (w.start job)
    | _ => none
  | .finish i => (w.tasks.get? i).bind fun t => if t.alive then some (w.finish i t) else none
  | .heartbeat i now => (w.tasks.get? i).bind fun t => if t.alive then some (w.heartbeat s i t now) else none
  | .queue op => some { w with jobs := (op.apply w.jobs).1 }
  | .setStop => some { w with stop := true }
  | .abort =>
    match w.loop with
    | .polling | .claiming _ | .claimed _ => some w.drain
    | _ => none
  | .waited =>
    match w.loop with
    | .waiting tasks =>
      let pending := tasks.filter w.isAlive
      some { w.cancel pending with loop := .gathering pending }
    | _ => none
  | .gathered =>
    match w.loop with
    | .gathering pending => if pending.any w.isAlive then none else some { w with loop := .stopped }
    | _ => none

/-- What the worker starts with; the jobs may be any. -/
def init (jobs : JobTable) : Worker := { jobs }

/-- No task of this worker for the job it is about to start is still alive. -/
def NoOverlap (w : Worker) : WorkerOp → Prop
  | .start =>
    match w.loop with
    | .claimed job => ∀ t ∈ w.tasks.rows, t.alive = true → t.job.id ≠ job.id
    | _ => True
  | _ => True

instance (w : Worker) (op : WorkerOp) : Decidable (NoOverlap w op) := by
  unfold NoOverlap
  split
  · split <;> infer_instance
  · infer_instance

/-- How far shutdown has come: the tasks still alive are the ones it waits for, then the ones
it cancelled, and in the end there are none. -/
def Drained (w : Worker) : Prop :=
  match w.loop with
  | .waiting tasks => ∀ i ∈ w.alive, i ∈ tasks
  | .gathering pending => ∀ i ∈ w.alive, i ∈ pending ∧ (w.tasks.get? i).any JobTask.cancelled = true
  | .stopped => w.alive = []
  | _ => True

end Worker

end Blackboard
