import Blackboard.Lib.PyJson
import Blackboard.Spec.Registry

/-! `ToolRegistry.call` on all that can reach it: arguments and answers as Python's parser gives them, and
sources and summarizers that raise. A call that raises is none. `A` is the type of validated arguments,
`repr` Python's of a string and `sha256` the hex digest of a text. -/

namespace Blackboard.Tools.Calls

/-- A `ToolError`. Its message may quote what a backend or the model wrote. -/
structure Failure where
  code : String
  message : PyStr
  retryable : Bool := false
  attempts : ℕ := 1

/-- A raise of `source.fetch`. -/
inductive SourceRaises
  | tool (e : Failure)
  | other

structure Fetched where
  raw : PyJson
  fetchedAt : Datetime
  attempts : ℕ
  source : String

/-- An error of pydantic. -/
structure Problem where
  loc : List PyStr
  msg : PyStr

def Problem.text (p : Problem) : PyStr :=
  let loc := (PyStr.ofString ".").intercalate p.loc
  (if loc = [] then PyStr.ofString "(args)" else loc) ++ PyStr.ofString ": " ++ p.msg

/-- A raise of a summarizer: a KeyError, TypeError, ValueError or IndexError, with its `repr`, a ToolError,
or anything else. -/
inductive SummaryRaises
  | shape (repr : PyStr)
  | tool (e : Failure)
  | other

/-- A summary is a dict. One with a NaN or an infinity in it has no canonical JSON. -/
inductive Summary
  | json (ms : List (String × Json))
  | unserializable

structure Tool (A : Type) where
  name : String
  backend : String
  validate : List (PyStr × PyJson) → Except (List Problem) A
  /-- `model_dump(mode="json")` -/
  dump : A → Json
  summarize : Json → A → Except SummaryRaises Summary
  maxResultBytes : ℕ := 4000000

structure Outcome where
  tool : PyStr
  args : PyJson
  evidenceId : Option String := none
  summary : Option Json := none
  error : Option Failure := none
  attempts : ℕ := 1
  fetchedAt : Option Datetime := none

def Outcome.ok (o : Outcome) : Bool := o.error.isNone

/-! U+0000 out of an answer. -/

def replaceNul (s : PyStr) : PyStr := s.map fun c => if c.val = 0 then 0xFFFD else c

/-- `d[k] = v` -/
def assign (d : List (PyStr × PyJson)) (m : PyStr × PyJson) : List (PyStr × PyJson) :=
  if d.any fun n => n.1 = m.1 then d.map fun n => if n.1 = m.1 then m else n else d ++ [m]

mutual

/-- `without_nul` -/
def withoutNul : PyJson → PyJson
  | .null => .null
  | .bool b => .bool b
  | .int n => .int n
  | .float x => .float x
  | .nan => .nan
  | .infinite neg => .infinite neg
  | .str s => .str (replaceNul s)
  | .arr xs => .arr (withoutNulAll xs)
  -- of two pairs that now have one name the last stays
  | .obj ms => .obj ((nulFreePairs ms).foldl assign [])

def withoutNulAll : List PyJson → List PyJson
  | [] => []
  | x :: xs => withoutNul x :: withoutNulAll xs

def nulFreePairs : List (PyStr × PyJson) → List (PyStr × PyJson)
  | [] => []
  | (k, v) :: ms => (replaceNul k, withoutNul v) :: nulFreePairs ms

end

/-! The stores. -/

/-- A row of `tool_calls`. -/
structure CallRow where
  agent : Option String
  tool : PyStr
  args : PyJson
  status : String
  errorCode : Option String
  error : Option PyStr
  attempts : ℕ
  evidenceId : Option String

/-- `PgEvidenceStore` or `MemoryEvidenceStore`. -/
structure Store where
  postgres : Bool
  evidence : List EvidenceRecord := []
  calls : List CallRow := []

/-- What a column of text takes. -/
def takesText (s : PyStr) : Bool := s.nulFree && s.encodes

def takesRow (r : CallRow) : Bool :=
  takesText r.tool && r.args.storable && r.errorCode.all (fun c => takesText (PyStr.ofString c)) &&
  r.error.all takesText

def takesEvidence (r : EvidenceRecord) : Bool :=
  takesText (PyStr.ofString r.tool) && (PyJson.ofJson r.args).storable && (PyJson.ofJson r.result).storable &&
    (PyJson.ofJson r.summary).storable && takesText (PyStr.ofString r.source)

/-- Both rows in one transaction, the evidence unless its id is there. Postgres raises on what it does not take. -/
def Store.save (s : Store) (evidence : Option EvidenceRecord) (row : CallRow) : Option Store :=
  if s.postgres && !(takesRow row && evidence.all takesEvidence) then none
  else some { s with
    evidence := match evidence with
      | some r => if s.evidence.any fun q => q.id = r.id then s.evidence else s.evidence ++ [r]
      | none => s.evidence
    calls := s.calls ++ [row] }

/-! The call. -/

structure ToolRegistry (A : Type) where
  tools : List (Tool A)
  maxSummaryChars : ℕ := MAX_SUMMARY_CHARS

namespace ToolRegistry

variable {A : Type} (reg : ToolRegistry A) (repr : PyStr → String) (sha256 : String → String)

/-- `self.tools.get(name)`; of two tools with one name the last. -/
def tool? (name : PyStr) : Option (Tool A) := reg.tools.reverse.find? fun t => PyStr.ofString t.name = name

def unknownTool (name : PyStr) : Failure where
  code := "unknown_tool"
  message := PyStr.ofString ("no tool named " ++ repr name ++ "; available: " ++
    ", ".intercalate ((reg.tools.map Tool.name).dedup.insertionSort (· ≤ ·)))

/-- `_validate` -/
def invalidArgs (t : Tool A) (problems : List Problem) : Failure where
  code := "invalid_args"
  message := PyStr.ofString (t.name ++ ": ") ++ (PyStr.ofString "; ").intercalate ((problems.take 5).map Problem.text)

def tooLarge (size limit : ℕ) : Failure where
  code := "too_large"
  message := PyStr.ofString
    ("the result is " ++ toString (size / 1024) ++ " KiB, over the " ++ toString (limit / 1024) ++
    " KiB limit; narrow the query (fewer series, a shorter window, a more specific filter)")

def unexpectedShape (backend : String) (repr : PyStr) : Failure where
  code := "backend_error"
  message := PyStr.ofString ("unexpected response shape from " ++ backend ++ ": ") ++ repr

/-- What `_run` makes of an answer. Neither `canonical_json` nor `.encode()` of the answer is in a handler,
and a summarizer's only for four exceptions. -/
def evidence (t : Tool A) (a : A) (ctx : ToolContext) (got : Fetched) : Option (Except Failure EvidenceRecord) :=
  match (withoutNul got.raw).plain? with
  | none => none
  | some raw =>
    let size := raw.dumps.utf8ByteSize
    if t.maxResultBytes < size then some (.error (tooLarge size t.maxResultBytes))
    else
      match t.summarize raw a with
      | .error (.shape e) => some (.error (unexpectedShape t.backend e))
      | .error (.tool e) => some (.error e)
      | .error .other => none
      | .ok .unserializable => none
      | .ok (.json ms) =>
        let (summary, truncated) := bound (.obj ms) reg.maxSummaryChars
        some (.ok {
          id := evidenceId sha256 ctx.evidenceScope t.name (t.dump a) (sha256 raw.dumps)
          tool := t.name, args := t.dump a, result := raw, resultHash := sha256 raw.dumps, resultBytes := size,
          summary, truncated, source := got.source, fetchedAt := got.fetchedAt })

/-- The block with the handler for ToolErrors: the outcome, and the evidence to be stored. -/
def outcome (fetch : Call → Except SourceRaises Fetched) (name : PyStr) (rawArgs : List (PyStr × PyJson))
    (ctx : ToolContext) :
    Option (Outcome × Option EvidenceRecord) :=
  match reg.tool? name with
  | none => some ({ tool := name, args := .obj rawArgs, error := some (reg.unknownTool repr name) }, none)
  | some t =>
    match t.validate rawArgs with
    | .error problems => some ({ tool := name, args := .obj rawArgs, error := some (invalidArgs t problems) }, none)
    | .ok a =>
      match fetch ⟨ctx.agent, t.name, t.dump a⟩ with
      | .error (.tool e) =>
        some ({ tool := name, args := .ofJson (t.dump a), error := some e, attempts := e.attempts }, none)
      | .error .other => none
      | .ok got =>
        match reg.evidence sha256 t a ctx got with
        | none => none
        | some (.error e) =>
          some ({ tool := name, args := .ofJson (t.dump a), error := some e, attempts := e.attempts,
                  fetchedAt := some got.fetchedAt }, none)
        | some (.ok r) =>
          some ({ tool := name, args := .ofJson (t.dump a), evidenceId := some r.id, summary := some r.summary,
                  attempts := got.attempts, fetchedAt := some got.fetchedAt }, some r)

def row (ctx : ToolContext) (o : Outcome) : CallRow where
  agent := ctx.agent
  tool := o.tool
  args := o.args
  status := if o.ok then "ok" else "error"
  errorCode := o.error.map Failure.code
  error := o.error.map Failure.message
  attempts := o.attempts
  evidenceId := o.evidenceId

/-- Of the span, `canonical_json(outcome.args)` can raise, after the rows are stored. -/
def call (s : Store) (fetch : Call → Except SourceRaises Fetched) (name : PyStr) (rawArgs : List (PyStr × PyJson))
    (ctx : ToolContext) : Option (Outcome × Store) :=
  (reg.outcome repr sha256 fetch name rawArgs ctx).bind fun (o, evidence) =>
    (s.save evidence (row ctx o)).bind fun s => if o.args.finite then some (o, s) else none

end ToolRegistry

end Blackboard.Tools.Calls
