import Blackboard.Lib.Double

/-! The dashboard's end of the event stream: the incremental parser and the connection that resumes
from the last event id. A cut can fall anywhere, so a connection is the chunks that arrived. -/

namespace Blackboard.Sse

abbrev Text := List Char

structure SseEvent where
  id : Option Text
  event : Text
  data : Text
deriving DecidableEq

/-- A number of milliseconds. -/
inductive Millis
  | finite (ms : ℕ) | infinite
deriving DecidableEq

structure SseParser where
  buffer : Text := []
  data : List Text := []
  event : Text := []
  id : Option Text := none
  lastId : Option Text := none
  retryMs : Option Millis := none
deriving DecidableEq

/-- The buffer cut at its first line end, `/\r\n|\r|\n/`. -/
def nextLine : Text → Option (Text × Text)
  | [] => none
  | c :: rest =>
    if c = '\n' then some ([], rest)
    else if c = '\r' then some ([], if rest.head? = some '\n' then rest.tail else rest)
    else (nextLine rest).map fun l => (c :: l.1, l.2)

/-- The name and the value of a line's field. -/
def field (line : Text) : Text × Text :=
  let value := (line.dropWhile (· ≠ ':')).tail
  (line.takeWhile (· ≠ ':'), if value.head? = some ' ' then value.tail else value)

/-- `Number` of digits: the nearest double, which is whole, or Infinity. -/
def Millis.number (n : ℕ) : Millis :=
  match Double.round false n with
  | some x => .finite ⌊x.magnitude⌋₊
  | none => .infinite

/-- `/^\d+$/`, and the number. -/
def digits? (s : Text) : Option Millis :=
  if s ≠ [] ∧ s.all Char.isDigit = true then some (.number (Nat.ofDigitChars 10 s 0)) else none

def join : List Text → Text
  | [] => []
  | [s] => s
  | s :: rest => s ++ '\n' :: join rest

/-- What a complete line does. -/
def SseParser.line (p : SseParser) (line : Text) : SseParser × Option SseEvent :=
  if line = [] then
    ({ p with data := [], event := [] },
      if p.data ≠ [] ∨ p.event ≠ [] then
        some ⟨p.id, if p.event = [] then "message".toList else p.event, join p.data⟩
      else none)
  -- a comment: the server's keep-alive ping
  else if line.head? = some ':' then (p, none)
  else
    let f := field line
    if f.1 = "data".toList then ({ p with data := p.data ++ [f.2] }, none)
    else if f.1 = "event".toList then ({ p with event := f.2 }, none)
    else if f.1 = "id".toList ∧ '\x00' ∉ f.2 then ({ p with id := some f.2, lastId := some f.2 }, none)
    else if f.1 = "retry".toList then
      match digits? f.2 with
      | some n => ({ p with retryMs := some n }, none)
      | none => (p, none)
    else (p, none)

/-- The loop of `feed`, which takes a character or more of the buffer each time. -/
def SseParser.drain : ℕ → SseParser → SseParser × List SseEvent
  | 0, p => (p, [])
  | n + 1, p =>
    match nextLine p.buffer with
    | none => (p, [])
    | some (line, rest) =>
      let (q, e) := SseParser.line { p with buffer := rest } line
      let (r, es) := drain n q
      (r, e.toList ++ es)

def SseParser.feed (p : SseParser) (chunk : Text) : SseParser × List SseEvent :=
  SseParser.drain (p.buffer ++ chunk).length { p with buffer := p.buffer ++ chunk }

/-- `feed` of the chunks in turn. -/
def SseParser.feedAll (p : SseParser) : List Text → SseParser × List SseEvent
  | [] => (p, [])
  | chunk :: rest =>
    let (q, es) := p.feed chunk
    let (r, es') := q.feedAll rest
    (r, es ++ es')

/-- `if (s)` of a string or null. -/
def truthy : Option Text → Bool
  | some s => s ≠ []
  | none => false

/-- The variables of `openStream`, and the events that went to `onEvent`. -/
structure Client where
  lastId : Option Text
  retryMs : Millis := .finite 2000
  failures : ℕ := 0
  handed : List SseEvent := []

def openStream (lastEventId : Option Text) : Client := { lastId := lastEventId }

/-- `headers["Last-Event-ID"]` of the next request. -/
def Client.header (c : Client) : Option Text := if truthy c.lastId then c.lastId else none

/-- The reader's loop, over the chunks that arrive before the connection ends or breaks. -/
def Client.read (c : Client) (parser : SseParser) : List Text → Client
  | [] => c
  | value :: rest =>
    let (p, es) := parser.feed value
    Client.read
      { c with
        handed := c.handed ++ es
        failures := if es.any (·.event = "ready".toList) = true then 0 else c.failures
        lastId := if truthy p.lastId then p.lastId else c.lastId
        retryMs := p.retryMs.getD c.retryMs }
      p rest

/-- What a request gets, other than the 401 or 403 that ends `run`. -/
inductive Response
  /-- No answer, or one that is not a stream. -/
  | failed
  /-- `broken`: the reader raised, rather than ended. -/
  | body (chunks : List Text) (broken : Bool)

/-- One round of `run`. -/
def Client.connection (c : Client) : Response → Client
  | .failed => { c with failures := c.failures + 1 }
  | .body chunks broken =>
    let c := c.read {} chunks
    if broken then { c with failures := c.failures + 1 } else c

/-- The pause before the next round. -/
def Client.wait (c : Client) : ℕ :=
  match c.retryMs with
  | .finite ms => min (ms * 2 ^ (c.failures - 1)) 30000
  | .infinite => 30000

def Client.run (c : Client) (rs : List Response) : Client := rs.foldl Client.connection c

end Blackboard.Sse
