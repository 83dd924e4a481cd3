import Blackboard.Spec.Base
import Blackboard.Spec.Sources

/-! `LiveSource.fetch` on one backend: a circuit breaker that all its calls share, a bounded number
of retries, and an await between the breaker's check and the record of the outcome. -/

namespace Blackboard.Tools

/-- Opens after `threshold` retryable failures in a row. -/
structure Breaker where
  threshold : ℕ := 5
  cooldown : Time := 30
  failures : ℕ := 0
  openedAt : Option Time := none
deriving DecidableEq

namespace Breaker

def circuitOpen (b : Breaker) (backend : String) : ToolError :=
  { code := "circuit_open",
    message := backend ++ " failed " ++ toString b.failures ++
      " times in a row; skipped for now. Use another data source.",
    retryable := true }

def check (b : Breaker) (backend : String) (now : Time) : Except ToolError Breaker :=
  match b.openedAt with
  | none => .ok b
  | some openedAt =>
    if now - openedAt < b.cooldown then .error (b.circuitOpen backend)
    else .ok { b with openedAt := none }  -- half open

/-- One more failure would open it. -/
def opens (b : Breaker) : Bool := b.threshold ≤ b.failures + 1

def record (b : Breaker) (ok : Bool) (now : Time) : Breaker :=
  if ok then { b with failures := 0, openedAt := none }
  else { b with failures := b.failures + 1, openedAt := if b.opens then some now else b.openedAt }

end Breaker

/-- What became of an attempt: an answer, the timeout of `wait_for`, an error of the tool, or an
exception that `fetch` does not know. -/
inductive Outcome
  | raw (v : Json)
  | timedOut (tool : String) (seconds : ℕ)
  | error (e : ToolError)
  | raised

def timeoutError (tool : String) (seconds : ℕ) : ToolError :=
  { code := "timeout", message := tool ++ " took longer than " ++ toString seconds ++ "s", retryable := true }

/-- Where a call stands: before its next attempt, in an attempt, or at its end. -/
inductive Stage
  | sleeping (attempts : ℕ)
  | waiting (attempt : ℕ) (fetchedAt : Datetime)
  | ended (result : Option (Except ToolError Fetched))

/-- What is seen of the calls: the attempts that were let through and that were not, and when the
breaker opened or a success was recorded. -/
inductive Mark
  | passed (call : ℕ) (now : Time)
  | refused (call : ℕ) (now : Time)
  | opened (now : Time)
  | succeeded (now : Time)
deriving DecidableEq

/-- `now` is what the clock last read. -/
structure LiveBackend where
  breaker : Breaker := {}
  calls : ℕ → Stage := fun _ => .sleeping 0
  now : Time := 0
  log : List Mark := []

/-- A call goes on, at a time of the clock: it begins its next attempt, or its attempt ends. -/
inductive LiveEvent
  | attempt (call : ℕ) (now : Time) (fetchedAt : Datetime)
  | outcome (call : ℕ) (now : Time) (o : Outcome)

def LiveEvent.time : LiveEvent → Time
  | .attempt _ now _ => now
  | .outcome _ now _ => now

namespace LiveBackend

variable (retries : ℕ) (backend : String)

def attempt (s : LiveBackend) (call attempts : ℕ) (now : Time) (fetchedAt : Datetime) : LiveBackend :=
  match s.breaker.check backend now with
  | .error e =>
    { s with calls := Function.update s.calls call (.ended (some (.error e))), now,
             log := s.log ++ [.refused call now] }
  | .ok breaker =>
    { s with breaker, calls := Function.update s.calls call (.waiting (attempts + 1) fetchedAt), now,
             log := s.log ++ [.passed call now] }

/-- Only trouble of the backend counts against the breaker. -/
def failed (s : LiveBackend) (call attempt : ℕ) (now : Time) (e : ToolError) : LiveBackend :=
  { s with
    breaker := if e.retryable then s.breaker.record false now else s.breaker
    calls := Function.update s.calls call
      (if !e.retryable || retries < attempt then .ended (some (.error { e with attempts := attempt }))
        else .sleeping attempt)
    now
    log := s.log ++ if e.retryable && s.breaker.opens then [.opened now] else [] }

def outcome (s : LiveBackend) (call attempt : ℕ) (now : Time) (fetchedAt : Datetime) : Outcome → LiveBackend
  | .raw v =>
    { s with breaker := s.breaker.record true now,
             calls := Function.update s.calls call (.ended (some (.ok ⟨v, fetchedAt, attempt, "live"⟩))), now,
             log := s.log ++ [.succeeded now] }
  | .timedOut tool seconds => s.failed retries call attempt now (timeoutError tool seconds)
  | .error e => s.failed retries call attempt now e
  | .raised => { s with calls := Function.update s.calls call (.ended none), now }

/-- The clock is monotonic. -/
def step (s : LiveBackend) (e : LiveEvent) : Option LiveBackend :=
  if e.time < s.now then none
  else
    match e with
    | .attempt call now fetchedAt =>
      match s.calls call with
      | .sleeping attempts => some (s.attempt backend call attempts now fetchedAt)
      | _ => none
    | .outcome call now o =>
      match s.calls call with
      | .waiting attempt fetchedAt => some (s.outcome retries call attempt now fetchedAt o)
      | _ => none

end LiveBackend

end Blackboard.Tools
