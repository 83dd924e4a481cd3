import Blackboard.Spec.Policy

/-! The model's backends: what one attempt answers, how it becomes a step or an error, the
retries, and the row of `llm_calls` that the agent loop writes of a call. -/

namespace Blackboard.Llm

structure Usage where
  inputTokens : ℤ := 0
  outputTokens : ℤ := 0
  cacheReadTokens : ℤ := 0
  cacheCreationTokens : ℤ := 0
deriving DecidableEq, Repr

def Usage.promptTokens (u : Usage) : ℤ := u.inputTokens + u.cacheReadTokens + u.cacheCreationTokens

def Usage.total (u : Usage) : ℤ := u.promptTokens + u.outputTokens

def Usage.toDict (u : Usage) : Json :=
  .obj [("input_tokens", .num u.inputTokens), ("output_tokens", .num u.outputTokens),
    ("cache_read_tokens", .num u.cacheReadTokens), ("cache_creation_tokens", .num u.cacheCreationTokens)]

/-- A failed step. -/
structure LLMError where
  code : String
  message : String
  retryable : Bool := false
  retryAfterS : Option ℚ := none
  attempts : ℕ := 1

def LLMError.text (e : LLMError) : String := e.code ++ ": " ++ e.message

/-- What a call raises: an `LLMError`, or an exception that nobody catches. -/
inductive Raised
  | llm (e : LLMError)
  | other (what : String)

structure StepAction where
  tool : String
  args : Json

structure Step where
  reasoning : String
  actions : List StepAction
  final : Option Json

structure LLMResult where
  step : Step
  usage : Usage
  model : String
  attempts : ℕ := 1

structure LLMRequest where
  agent : String
  model : String
  promptVersion : String

/-- `s.strip()` -/
def strip (s : String) : String := String.ofList (Strings.strip Lines.isSpace s.toList)

/-- `type(value).__name__` -/
def typeName : Json → String
  | .null => "NoneType"
  | .bool _ => "bool"
  | .num _ => "int"
  | .float _ => "float"
  | .str _ => "str"
  | .arr _ => "list"
  | .obj _ => "dict"

/-- `d.get(k) or default` -/
def getOr (j : Json) (k : String) (default : Json) : Json :=
  match j.get? k with
  | some v => if v.truthy then v else default
  | none => default

/-- `d.get(k)`, where None is null. -/
def getSome (j : Json) (k : String) : Option Json :=
  match j.get? k with
  | some .null | none => none
  | some v => some v

def isObj : Json → Bool
  | .obj _ => true
  | _ => false

def invalidOutput (message : String) : LLMError := { code := "invalid_output", message, retryable := true }

/-- `{tool, args}`, args optional. -/
def stepAction (a : Json) : Option StepAction :=
  match a, a.get? "tool", (a.get? "args").getD (.obj []) with
  | .obj _, some (.str tool), .obj args => some ⟨tool, .obj args⟩
  | _, _, _ => none

/-- Coerce a backend's answer into the step shape, or raise invalid_output. -/
def normalizeStep (raw : Json) : Except LLMError Step :=
  if ¬ isObj raw then .error (invalidOutput ("step is " ++ typeName raw ++ ", not an object"))
  else
    let reasoning := ((raw.get? "reasoning").bind Json.asStr?).getD ""
    match (getOr raw "actions" (.arr [])).asArr?.bind fun as => as.mapM stepAction with
    | none => .error (invalidOutput "actions must be a list of \x7btool, args\x7d")
    | some actions =>
      match getSome raw "final" with
      | none =>
        if actions.isEmpty then .error (invalidOutput "a step needs actions or a final answer")
        else .ok ⟨reasoning, actions, none⟩
      -- the model wants more data first; the final answer can come next step
      | some final => .ok ⟨reasoning, actions, if actions.isEmpty then some final else none⟩

/-- `int(value or 0)` -/
def intOr0 : Option Json → Except Raised ℤ
  | none | some .null => .ok 0
  | some (.bool b) => .ok (if b then 1 else 0)
  | some (.num n) => .ok n
  | some (.float x) => .ok (if x.neg then -⌊x.magnitude⌋ else ⌊x.magnitude⌋)
  | some (.str s) =>
    if s = "" then .ok 0
    else match Strings.int? s.toList with
      | some n => .ok n
      | none => .error (.other "ValueError")
  | some j => if j.truthy then .error (.other "TypeError") else .ok 0

/-- The usage of an answer. -/
def readUsage (data : Json) : Except Raised Usage :=
  let usage := getOr data "usage" (.obj [])
  if ¬ isObj usage then .error (.other "AttributeError")
  else do
    let inputTokens ← intOr0 (usage.get? "input_tokens")
    let outputTokens ← intOr0 (usage.get? "output_tokens")
    let cacheReadTokens ← intOr0 (usage.get? "cache_read_input_tokens")
    let cacheCreationTokens ← intOr0 (usage.get? "cache_creation_input_tokens")
    return { inputTokens, outputTokens, cacheReadTokens, cacheCreationTokens }

/-! The Messages API. -/

/-- The answer to the POST: an exception of the client, or a response, whose body may not be JSON. -/
inductive Http
  | timeout (detail : String)
  | failed (detail : String)
  | response (status : ℕ) (retryAfter : Option ℚ) (body : Option Json) (text : String)

def FINAL_TOOL : String := "submit_final"

/-- One block of the content: its text, or a tool call with the name and the input. -/
inductive Block
  | text (s : String)
  | call (name input : Json)
  | other

def block (b : Json) : Except Raised Block :=
  if ¬ isObj b then .error (.other "AttributeError")
  else match b.get? "type" with
    | some (.str "text") =>
      match (b.get? "text").getD (.str "") with
      | .str s => .ok (.text (strip s))
      | _ => .error (.other "AttributeError")
    | some (.str "tool_use") =>
      match b.get? "name" with
      | some name => .ok (.call name ((b.get? "input").getD .null))
      | none => .error (.other "KeyError")
    | _ => .ok .other

/-- The raw step of the content's blocks. -/
def parseContent (content : Json) : Except Raised Json :=
  match content.asArr? with
  | none => .error (.other "TypeError")
  | some bs => do
    let blocks ← bs.mapM block
    let texts := blocks.filterMap fun b => match b with | .text s => some s | _ => none
    let calls := blocks.filterMap fun b => match b with | .call name input => some (name, input) | _ => none
    let isFinal := fun c : Json × Json => match c.1 with | .str s => s = FINAL_TOOL | _ => false
    let actions := (calls.filter fun c => !isFinal c).map fun c =>
      Json.obj [("tool", c.1), ("args", if c.2.truthy then c.2 else .obj [])]
    let final := if actions.isEmpty then ((calls.filter isFinal).head?.map Prod.snd).getD .null else .null
    return .obj [("reasoning", .str (strip (String.intercalate " " texts))), ("actions", .arr actions),
      ("final", final)]

/-- `str` is Python's, of a JSON value. -/
def classifyStatus (str : Json → String) (status : ℕ) (retryAfter : Option ℚ) (body : Option Json) (text : String) :
    Raised :=
  let detail : Option String := match body with
    | none => some (text.take 300).copy
    | some data =>
      let error := (data.get? "error").getD (.obj [])
      if isObj data && isObj error then some (str ((error.get? "message").getD (.str ""))) else none
  match detail with
  | none => .other "AttributeError"
  | some detail =>
    let message := "HTTP " ++ toString status ++ ": " ++ detail
    if status = 429 then .llm { code := "rate_limited", message, retryable := true, retryAfterS := retryAfter }
    else if status = 529 then .llm { code := "overloaded", message, retryable := true }
    else if 500 ≤ status then .llm { code := "unavailable", message, retryable := true }
    else if status = 401 ∨ status = 403 then .llm { code := "auth", message }
    else .llm { code := "bad_request", message }

/-- `parse`, as an exception of the step. -/
def raised {α : Type} : Except LLMError α → Except Raised α
  | .ok x => .ok x
  | .error e => .error (.llm e)

/-- `AnthropicAPIBackend.step`, after the POST. -/
def apiStep (str : Json → String) (maxTokens : ℕ) (request : LLMRequest) : Http → Except Raised LLMResult
  | .timeout detail => .error (.llm { code := "timeout", message := "Messages API: " ++ detail, retryable := true })
  | .failed detail => .error (.llm { code := "unavailable", message := "Messages API: " ++ detail, retryable := true })
  | .response status retryAfter body text =>
    if status ≠ 200 then .error (classifyStatus str status retryAfter body text)
    else match body with
      | none => .error (.other "JSONDecodeError")
      | some data =>
        if ¬ isObj data then .error (.other "AttributeError")
        else if (data.get? "stop_reason").bind Json.asStr? = some "max_tokens" then
          .error (.llm (invalidOutput ("the step was cut off at " ++ toString maxTokens ++ " tokens")))
        else do
          let usage := getOr data "usage" (.obj [])
          let raw ← parseContent (getOr data "content" (.arr []))
          let step ← raised (normalizeStep raw)
          let usage ← readUsage (.obj [("usage", usage)])
          return { step, usage, model := str (getOr data "model" (.str request.model)) }

/-! `claude -p`. -/

inductive Process
  | notFound
  | timeout
  /-- `stdout` is none when it is not JSON. -/
  | exited (returncode : ℤ) (stdout : Option Json) (stderr : String)

/-- The regular expressions over the CLI's messages. -/
structure Patterns where
  rateLimit : String → Bool
  auth : String → Bool
  secondsUntilReset : String → Option ℚ

def classifyError (str : Json → String) (patterns : Patterns) (returncode : ℤ) (out : Json) (stderr : String) :
    LLMError :=
  let status := getSome out "api_error_status"
  let text := strip (str (getOr out "result" (.str "")) ++ " " ++ stderr)
  let message := "exit " ++ toString returncode ++
    (match status with | some s => if s.truthy then ", HTTP " ++ str s else "" | none => "") ++
    (if text = "" then "" else ": " ++ (text.take 300).copy)
  let isIn (codes : List ℤ) : Bool := match status with | some (.num n) => codes.contains n | _ => false
  if isIn [429] || patterns.rateLimit text then
    { code := "rate_limited", message, retryable := true, retryAfterS := patterns.secondsUntilReset text }
  else if isIn [401, 403] || patterns.auth text then { code := "auth", message }
  else if isIn [400, 404, 413] then { code := "bad_request", message }
  else if status.isNone || isIn [500, 502, 503, 504, 529] then
    { code := if isIn [529] then "overloaded" else "unavailable", message, retryable := true }
  else { code := "bad_request", message }

/-- `parse_output` -/
def parseOutput (str : Json → String) (patterns : Patterns) (request : LLMRequest) (returncode : ℤ)
    (stdout : Option Json) (stderr : String) : Except Raised LLMResult :=
  let out := stdout.getD (.obj [])
  if ¬ isObj out then .error (.other "AttributeError")
  else if returncode ≠ 0 ∨ (getOr out "is_error" .null).truthy ∨ out.truthy = false then
    .error (.llm (classifyError str patterns returncode out stderr))
  else match getSome out "structured_output" with
    | none =>
      .error (.llm (invalidOutput
        ("no structured_output (subtype=" ++ str ((out.get? "subtype").getD .null) ++ ", result=" ++
        str ((out.get? "result").getD .null) ++ ")")))
    | some structured => do
      let usage := getOr out "usage" (.obj [])
      let models := match getOr out "modelUsage" (.obj []) with | .obj ms => ms.map Prod.fst | _ => []
      let step ← raised (normalizeStep structured)
      let usage ← readUsage (.obj [("usage", usage)])
      return { step, usage, model := match models with | [m] => m | _ => request.model }

/-- `ClaudeCLIBackend.step` -/
def cliStep (str : Json → String) (patterns : Patterns) (binary : String) (timeoutS : ℚ) (request : LLMRequest) :
    Process → Except Raised LLMResult
  | .notFound => .error (.llm { code := "unavailable", message := binary ++ " not found; install Claude Code" })
  | .timeout =>
    .error (.llm { code := "timeout", message := "claude -p took longer than " ++ Text.fixed0 timeoutS ++ "s",
                   retryable := true })
  | .exited returncode stdout stderr => parseOutput str patterns request returncode stdout stderr

/-! One attempt, whichever the backend, and the attempts of a call. -/

inductive Answer
  | api (a : Http)
  | cli (p : Process)

structure Backend where
  str : Json → String
  patterns : Patterns
  maxTokens : ℕ := 4096
  binary : String := "claude"
  timeoutS : ℚ := 180
  retries : ℕ := 3
  maxWaitS : ℚ := 120

def Backend.attempt (b : Backend) (request : LLMRequest) : Answer → Except Raised LLMResult
  | .api a => apiStep b.str b.maxTokens request a
  | .cli p => cliStep b.str b.patterns b.binary b.timeoutS request p

/-- The loop of `RetryingBackend.step`, at its `attempt`-th try. None while it waits for an answer;
else what it returns or raises, and the answers it has not taken. -/
def Backend.retrying (b : Backend) (request : LLMRequest) :
    ℕ → List Answer → Option (Except Raised LLMResult × List Answer)
  | _, [] => none
  | attempt, a :: rest =>
    match b.attempt request a with
    | .ok result => some (.ok (if 1 < attempt then { result with attempts := attempt } else result), rest)
    | .error (.other what) => some (.error (.other what), rest)
    | .error (.llm e) =>
      if e.retryable = false ∨ b.retries < attempt ∨ e.retryAfterS.any (fun s => b.maxWaitS < s) = true then
        some (.error (.llm { e with attempts := attempt }), rest)
      else b.retrying request (attempt + 1) rest

def Backend.step (b : Backend) (request : LLMRequest) (answers : List Answer) :
    Option (Except Raised LLMResult × List Answer) :=
  b.retrying request 1 answers

/-- A row of `llm_calls`. -/
structure LLMCallRecord where
  agent : String
  stepNo : ℕ
  model : String
  promptVersion : String
  isOk : Bool := false
  errorCode : Option String := none
  error : Option String := none
  attempts : ℕ := 1
  usage : Usage := {}

/-- What `_step` records of the backend's answer. -/
def record (request : LLMRequest) (stepNo : ℕ) : Except Raised LLMResult → Option LLMCallRecord
  | .ok result =>
    some { agent := request.agent, stepNo, model := result.model, promptVersion := request.promptVersion, isOk := true,
           usage := result.usage, attempts := result.attempts }
  | .error (.llm e) =>
    some { agent := request.agent, stepNo, model := request.model, promptVersion := request.promptVersion,
           errorCode := some e.code, error := some (e.message.take 2000).copy, attempts := e.attempts }
  | .error (.other _) => none

/-- A call of the model in an investigation, with the answers its attempts got. -/
structure ModelCall (b : Backend) where
  request : LLMRequest
  stepNo : ℕ
  answers : List Answer
  outcome : Except Raised LLMResult
  /-- It took them all. -/
  ends : b.step request answers = some (outcome, [])

end Blackboard.Llm
