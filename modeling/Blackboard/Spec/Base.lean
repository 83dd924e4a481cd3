import Mathlib.Algebra.Order.Ring.Rat
import Mathlib.Data.List.MinMax
import Blackboard.Lib.Table

/-! What every part of the program shares: time, the job kinds, idempotency keys and the
exceptions. Rows are addressed by the position at which they were inserted. -/

namespace Blackboard

/-- Seconds. A float is a rational, so every setting of the program is a `Time`. -/
abbrev Time := ℚ

/-- Job kinds. The column is free text: `other` stands for a kind no handler has. -/
inductive Kind
  | triage | investigate | plan | approvalTimeout | execute | verify
  | other (name : String)
deriving DecidableEq, Repr

def Kind.name : Kind → String
  | .triage => "triage"
  | .investigate => "investigate"
  | .plan => "plan"
  | .approvalTimeout => "approval_timeout"
  | .execute => "execute"
  | .verify => "verify"
  | .other n => n

/-- The idempotency keys the program builds, `f"{incident_id}:{kind}"` and
`f"plan:{plan_id}:{kind}"`. -/
inductive Key
  | incident (id : ℕ) (kind : Kind)
  | plan (id : ℕ) (kind : Kind)
deriving DecidableEq, Repr

/-- A job's payload: `{}` or `{"plan_id": n}`. -/
structure Payload where
  planId : Option ℕ := none
deriving DecidableEq, Repr

/-- The exceptions that handlers, transactions and API calls raise. `exception` is any
other one: a database error, a timeout, a value of an unexpected shape. -/
inductive Err
  | leaseLost (job fence : ℕ)
  | permanentJobError (message : String)
  | illegalTransition (message : String)
  | staleVersion (message : String)
  | integrityError (constraint : String)
  | approvalRefused (status : ℕ) (message : String)
  | http (status : ℕ) (detail : String)
  /-- `applied` is `none` when nobody knows whether the cluster took the change. -/
  | execError (message : String) (applied : Option Bool)
  | llmError (message : String) (retryable : Bool)
  /-- The task was cancelled, by its heartbeat when the lease is gone or at shutdown. -/
  | cancelled (leaseLost : Bool)
  | exception (message : String)
deriving DecidableEq, Repr

end Blackboard
