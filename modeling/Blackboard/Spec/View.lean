import Blackboard.Spec.Compress
import Blackboard.Spec.Webhooks

/-! `incident_view` on the committed rows, and the text that the agents are given of it. `collate` is
the order that the database has for texts. -/

namespace Blackboard.Ingest

/-- `RELATED_BEFORE` -/
def RELATED_BEFORE : Time := 30 * 60

structure RelatedIncident where
  title : String
  service : String
  priority : String
  createdAt : Time
deriving DecidableEq, Repr

structure IncidentView where
  tenantId : String
  title : String
  service : String
  environment : String
  priority : String
  createdAt : Time
  labels : List (String × String)
  annotations : List (String × String)
  related : List RelatedIncident
deriving DecidableEq, Repr

/-- `json.dumps(d, sort_keys=True)` of a `dict[str, str]`. -/
def dumpText (d : List (String × String)) : String :=
  let member (m : String × String) := Json.quoteAscii m.1 ++ ':' :: ' ' :: Json.quoteAscii m.2
  String.ofList ('\x7b' :: ([',', ' '].intercalate ((d.insertionSort fun a b => a.1 ≤ b.1).map member) ++ ['\x7d']))

def IncidentView.describe (v : IncidentView) : String :=
  let lines :=
    ["Incident: " ++ v.title ++ " on service " ++ v.service ++ " (priority " ++ v.priority ++ ", environment " ++
        v.environment ++ ").",
      "Opened at " ++ Tools.iso v.createdAt ++ ".",
      "Alert labels: " ++ dumpText v.labels] ++
    (if v.annotations.isEmpty then [] else ["Alert annotations: " ++ dumpText v.annotations]) ++
    (if v.related.isEmpty then ["No other open incidents in this environment."]
     else "Other open incidents in this environment:" :: v.related.map fun r =>
       "- " ++ r.title ++ " on " ++ r.service ++ " (" ++ r.priority ++ "), opened " ++ Tools.iso r.createdAt)
  "\n".intercalate lines

/-- `PRIORITY_NAMES[priority]` -/
def priorityName (priority : ℕ) : String := PRIORITY_NAMES.getD priority ""

/-- The WHERE of the related incidents: opened in the half hour up to `i`, and open when `i` was. -/
def related (i j : Incident) : Bool :=
  j.tenantId = i.tenantId && j.environment = i.environment && i.createdAt - RELATED_BEFORE ≤ j.createdAt &&
    j.createdAt ≤ i.createdAt && j.closedAt.all fun c => i.createdAt < c

/-- `ORDER BY created_at, service, title` -/
def before (collate : String → String → Bool) (a b : RelatedIncident) : Bool :=
  a.createdAt < b.createdAt || (a.createdAt = b.createdAt &&
    if a.service = b.service then collate a.title b.title else collate a.service b.service)

namespace Tables

variable (s : Tables)

/-- The row `k` as incident `id` is told of it, if it is. -/
def told (id : ℕ) (i : Incident) (k : ℕ) : Option RelatedIncident :=
  (s.incident? k).bind fun j =>
    if k ≠ id && related i j then some ⟨j.title, j.service, priorityName j.priority, j.createdAt⟩ else none

def relatedTo (id : ℕ) (i : Incident) : List RelatedIncident := (List.range s.slots.size).filterMap (s.told id i)

/-- The annotations of the first notification: later ones may carry newer values. -/
def annotationsOf (id : ℕ) : List (String × String) :=
  ((s.alerts.find? fun r => r.status = .firing && r.incidentId = some id).map AlertRow.annotations).getD []

def incidentView (collate : String → String → Bool) (id : ℕ) : Option IncidentView :=
  (s.incident? id).map fun i =>
    { tenantId := i.tenantId, title := i.title, service := i.service, environment := i.environment,
      priority := priorityName i.priority, createdAt := i.createdAt, labels := i.labels,
      annotations := s.annotationsOf id,
      related := (s.relatedTo id i).insertionSort fun a b => before collate a b }

end Tables

end Blackboard.Ingest
