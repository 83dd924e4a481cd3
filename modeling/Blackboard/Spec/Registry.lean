import Mathlib.Data.List.Dedup
import Blackboard.Lib.Jsonb
import Blackboard.Spec.Compress
import Blackboard.Spec.Sources

/-! `app.tools.registry`: a call from the model's arguments to the text the model gets, and the call
log that the export reads. `A` is the type of validated arguments, `repr` Python's and `sha256` the
hex digest of a text. -/

namespace Blackboard.Tools

/-- An error of pydantic. -/
structure Problem where
  loc : List String
  msg : String

def Problem.text (p : Problem) : String :=
  let loc := ".".intercalate p.loc
  (if loc = "" then "(args)" else loc) ++ ": " ++ p.msg

/-- What a summarizer raises: a KeyError, TypeError, ValueError or IndexError, a ToolError of its own, which is
always a `not_found`, or anything else. -/
inductive Raised
  | shape (repr : String)
  | notFound (message : String)
  | other

structure Tool (A : Type) where
  name : String
  backend : String
  validate : Json → Except (List Problem) A
  /-- `model_dump(mode="json")` -/
  dump : A → Json
  summarize : Json → A → Except Raised Json
  maxResultBytes : ℕ := 4000000
  distinct : ∀ a, (dump a).Distinct

structure ToolContext where
  tenantId : String
  incidentId : Option String := none
  agent : Option String := none
  scope : Option String := none

def ToolContext.evidenceScope (ctx : ToolContext) : String :=
  match ctx.scope.filter (· ≠ "") with
  | some scope => scope
  | none => ctx.tenantId ++ "/" ++ ctx.incidentId.getD "adhoc"

structure ToolOutcome where
  tool : String
  args : Json
  evidenceId : Option String := none
  summary : Option Json := none
  error : Option ToolError := none
  attempts : ℕ := 1
  fetchedAt : Option Datetime := none

def ToolError.toDict (e : ToolError) : Json :=
  .obj [("code", .str e.code), ("message", .str e.message), ("retryable", .bool e.retryable)]

/-- What goes back into the transcript. -/
def ToolOutcome.forModel (o : ToolOutcome) : String :=
  match o.error with
  | some e => (Json.obj [("tool", .str o.tool), ("error", e.toDict)]).dumps
  | none =>
    (Json.obj [("tool", .str o.tool), ("evidence_id", (o.evidenceId.map Json.str).getD .null),
      ("summary", o.summary.getD .null)]).dumps

/-! U+0000 out of an answer, which Postgres does not hold. -/

def replaceNul (s : String) : String := String.ofList (s.toList.map fun c => if c = '\x00' then '\ufffd' else c)

mutual

def withoutNul : Json → Json
  | .str s => .str (replaceNul s)
  | .arr xs => .arr (withoutNulAll xs)
  -- of two pairs that now have one name the last stays
  | .obj ms => .obj ((nulFreePairs ms).foldl (fun d m => Json.assign d m.1 m.2) [])
  | v => v

def withoutNulAll : List Json → List Json
  | [] => []
  | x :: xs => withoutNul x :: withoutNulAll xs

def nulFreePairs : List (String × Json) → List (String × Json)
  | [] => []
  | (k, v) :: ms => (replaceNul k, withoutNul v) :: nulFreePairs ms

end

structure EvidenceRecord where
  id : String
  tool : String
  args : Json
  result : Json
  resultHash : String
  resultBytes : ℕ
  summary : Json
  truncated : Bool
  source : String
  fetchedAt : Datetime

/-- `evidence_id` -/
def evidenceId (sha256 : String → String) (scope tool : String) (args : Json) (resultHash : String) : String :=
  "ev_" ++ String.ofList ((sha256 (key [.str scope, .str tool, args, .str resultHash])).toList.take 16)

def tooLarge (size limit : ℕ) : ToolError :=
  { code := "too_large",
    message := "the result is " ++ toString (size / 1024) ++ " KiB, over the " ++ toString (limit / 1024) ++
      " KiB limit; narrow the query (fewer series, a shorter window, a more specific filter)" }

def unexpectedShape (backend repr : String) : ToolError :=
  { code := "backend_error", message := "unexpected response shape from " ++ backend ++ ": " ++ repr }

structure ToolRegistry (A : Type) where
  tools : List (Tool A)
  maxSummaryChars : ℕ := MAX_SUMMARY_CHARS

namespace ToolRegistry

variable {A : Type} (reg : ToolRegistry A) (repr : Json → String) (sha256 : String → String)

/-- `self.tools.get(name)`; of two tools with one name the last. -/
def tool? (name : String) : Option (Tool A) := reg.tools.reverse.find? fun t => t.name = name

def unknownTool (name : String) : ToolError :=
  { code := "unknown_tool",
    message := "no tool named " ++ repr (.str name) ++ "; available: " ++
      ", ".intercalate ((reg.tools.map Tool.name).dedup.insertionSort (· ≤ ·)) }

/-- `_validate` -/
def invalidArgs (t : Tool A) (problems : List Problem) : ToolError :=
  { code := "invalid_args", message := t.name ++ ": " ++ "; ".intercalate ((problems.take 5).map Problem.text) }

/-- What `_run` makes of an answer; nothing if the summarizer raises what no one catches. -/
def evidence (t : Tool A) (a : A) (ctx : ToolContext) (got : Fetched) : Option (Except ToolError EvidenceRecord) :=
  let raw := withoutNul got.raw
  let size := raw.dumps.utf8ByteSize
  if t.maxResultBytes < size then some (.error (tooLarge size t.maxResultBytes))
  else
    match t.summarize raw a with
    | .error (.shape e) => some (.error (unexpectedShape t.backend e))
    | .error (.notFound message) => some (.error { code := "not_found", message })
    | .error .other => none
    | .ok summary =>
      let (summary, truncated) := bound summary reg.maxSummaryChars
      some (.ok {
        id := evidenceId sha256 ctx.evidenceScope t.name (t.dump a) (sha256 raw.dumps)
        tool := t.name, args := t.dump a, result := raw, resultHash := sha256 raw.dumps, resultBytes := size,
        summary, truncated, source := got.source, fetchedAt := got.fetchedAt })

/-- What the source is asked. -/
def asks (t : Tool A) (a : A) (ctx : ToolContext) : Call := ⟨ctx.agent, t.name, t.dump a⟩

def run (fetch : Call → Except ToolError Fetched) (t : Tool A) (a : A) (ctx : ToolContext) :
    Option (Except ToolError (Fetched × EvidenceRecord)) :=
  match fetch (asks t a ctx) with
  | .error e => some (.error e)
  | .ok got => (reg.evidence sha256 t a ctx got).map fun r => r.map fun r => (got, r)

/-- The outcome, and the evidence that is stored with it. -/
def call (fetch : Call → Except ToolError Fetched) (name : String) (rawArgs : Json) (ctx : ToolContext) :
    Option (ToolOutcome × Option EvidenceRecord) :=
  match reg.tool? name with
  | none => some ({ tool := name, args := rawArgs, error := some (reg.unknownTool repr name) }, none)
  | some t =>
    match t.validate rawArgs with
    | .error problems => some ({ tool := name, args := rawArgs, error := some (invalidArgs t problems) }, none)
    | .ok a =>
      (reg.run sha256 fetch t a ctx).map fun
        | .error e =>
          ({ tool := name, args := t.dump a, error := some e, attempts := e.attempts,
             fetchedAt := (fetch (asks t a ctx)).toOption.map Fetched.fetchedAt }, none)
        | .ok (got, r) =>
          ({ tool := name, args := t.dump a, evidenceId := some r.id, summary := some r.summary,
             attempts := got.attempts, fetchedAt := some got.fetchedAt }, some r)

/-- The call that reaches the source: none of an unknown tool or with arguments that do not validate. -/
def asked (name : String) (rawArgs : Json) (ctx : ToolContext) : Option Call :=
  match reg.tool? name with
  | none => none
  | some t =>
    match t.validate rawArgs with
    | .error _ => none
    | .ok a => some (asks t a ctx)

/-! Replaying. -/

/-- The entries of one call through the recording source. -/
def recording (live : Call → Except ToolError Fetched) (now : Datetime) (name : String) (rawArgs : Json)
    (ctx : ToolContext) : List Entry :=
  ((reg.asked name rawArgs ctx).map fun c => recorded c now (live c)).toList

/-- What the model reads when the call is answered from these entries. -/
def replayText (entries : List Entry) (name : String) (rawArgs : Json) (ctx : ToolContext) : Option String :=
  (reg.call repr sha256 (fun c => ((ReplaySource.ofEntries entries).fetch repr c).1) name rawArgs ctx).map
    fun o => o.1.forModel

end ToolRegistry

/-! `app.agents.recording`: the log of a live run as a cassette. -/

/-- A row of `tool_calls` with its evidence: when it was made, and the error it ended in or the
stored answer. -/
structure ToolRow where
  incident : String
  agent : Option String
  tool : String
  args : Json
  createdAt : Datetime
  answer : Except (String × String) (Datetime × Json)

/-- Errors that the registry makes before it asks any backend. -/
def LOCAL_ERRORS : List String := ["invalid_args", "unknown_tool"]

def toolEntry (t : ToolRow) : Option Entry :=
  let agent := t.agent.filter (· ≠ "")
  match t.answer with
  | .ok (fetchedAt, raw) =>
    some { incident := some t.incident, agent, tool := t.tool, args := t.args, fetchedAt, answer := .ok raw }
  | .error (code, message) =>
    if code ∈ LOCAL_ERRORS then none
    else
      some { incident := some t.incident, agent, tool := t.tool, args := t.args, fetchedAt := t.createdAt,
             answer := .error (code, message) }

/-- What is under an evidence id, read back: this answer, or the one that got the id first, of the
same canonical JSON. -/
def Stored (r : EvidenceRecord) (w : Json) : Prop :=
  ∃ first, (withoutNul first).Alike r.result ∧ (withoutNul first).ReadBack w

/-- The row that a call leaves, as the export reads it. -/
structure Logged (ctx : ToolContext) (o : ToolOutcome) (e : Option EvidenceRecord) (row : ToolRow) : Prop where
  agent : row.agent = ctx.agent
  tool : row.tool = o.tool
  args : o.args.ReadBack row.args
  failed : ∀ err, o.error = some err → row.answer = .error (err.code, err.message)
  ok : ∀ r, e = some r → ∃ at' w, row.answer = .ok (at', w) ∧ Stored r w

end Blackboard.Tools
