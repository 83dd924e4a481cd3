import Blackboard.Lib.Json

/-! `app.tools.jaeger`: a trace as Jaeger has it, with times in microseconds, and where the summary of
one trace says the time went, before it rounds and sorts. -/

namespace Blackboard.Tools

structure Reference where
  refType : String
  spanID : String

def Reference.childOf (r : Reference) (id : String) : Bool := r.refType = "CHILD_OF" && r.spanID = id

structure Span where
  spanID : String
  operationName : String
  processID : String
  startTime : ℤ
  duration : ℕ
  references : List Reference := []
  tags : List (String × Json) := []

/-- `processes` is from the id of a process to the name of its service. -/
structure Trace where
  traceID : String
  spans : List Span
  processes : List (String × String)

/-- `_is_error`. In Python `1 in (True, "true")` holds. -/
def isError (tags : List (String × Json)) : Bool :=
  ((Json.member? tags "error").any fun v => v.same (.bool true) || v.same (.str "true")) ||
    (Json.member? tags "otel.status_code").any fun v => v.same (.str "ERROR")

/-- A row of `slowest_spans`. -/
structure SpanRow where
  service : String
  operation : String
  duration : ℕ
  selfTime : ℕ
  error : Bool

namespace Trace

/-- `_service` -/
def service (t : Trace) (s : Span) : String := (t.processes.lookup s.processID).getD "?"

/-- One reference of a span adds its duration to what the referred span's children took. -/
def addChild (s : Span) (children : String → ℕ) (r : Reference) : String → ℕ :=
  if r.refType = "CHILD_OF" then fun id => if id = r.spanID then children id + s.duration else children id else children

/-- `children`, a dict with 0 for what is not in it. -/
def children (t : Trace) : String → ℕ :=
  t.spans.foldl (fun children s => s.references.foldl (addChild s) children) fun _ => 0

/-- `max(0, duration - children)` -/
def selfTime (t : Trace) (s : Span) : ℕ := s.duration - t.children s.spanID

def rows (t : Trace) : List SpanRow :=
  t.spans.map fun s =>
    { service := t.service s, operation := s.operationName, duration := s.duration, selfTime := t.selfTime s,
      error := isError s.tags }

end Trace

end Blackboard.Tools
