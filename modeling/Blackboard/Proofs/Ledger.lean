import Blackboard.Spec.Llm

/-! The token ledger against what the backend reported: the usage of an answer reaches `llm_calls`
only if the answer became a step. -/

namespace Blackboard.Llm

/-- The tokens of an answer that came with a readable usage. -/
def reportedBy (data : Json) : ℤ :=
  match readUsage data with
  | .ok u => u.total
  | .error _ => 0

/-- The tokens that the backend reported for one attempt, whether or not the attempt failed. -/
def reported : Answer → ℤ
  | .api (.response _ _ (some data) _) => reportedBy data
  | .cli (.exited _ (some out) _) => reportedBy out
  | _ => 0

def readable {ε α : Type} : Except ε α → Bool
  | .ok _ => true
  | .error _ => false

/-- An answer that is a step: complete, not flagged as an error, of the step shape, with a usage
made of numbers. -/
def isStep : Answer → Bool
  | .api (.response status _ (some data) _) =>
    status == 200 && isObj data && (data.get? "stop_reason").bind Json.asStr? != some "max_tokens" &&
      (match parseContent (getOr data "content" (.arr [])) with
        | .ok raw => readable (normalizeStep raw)
        | .error _ => false) && readable (readUsage data)
  | .cli (.exited returncode (some out) _) =>
    returncode == 0 && isObj out && out.truthy && !(getOr out "is_error" .null).truthy &&
      (match getSome out "structured_output" with
        | some structured => readable (normalizeStep structured)
        | none => false) && readable (readUsage out)
  | _ => false

/-- The tokens of the answers that did not become a step. -/
def lost (answers : List Answer) : ℤ := ((answers.filter fun a => !isStep a).map reported).sum

/-- All the answers of an investigation's calls. -/
def answersOf {b : Backend} (calls : List (ModelCall b)) : List Answer := calls.flatMap ModelCall.answers

end Blackboard.Llm
