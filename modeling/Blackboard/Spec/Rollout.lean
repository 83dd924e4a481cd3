import Blackboard.Lib.Dict
import Blackboard.Lib.JsonPaths
import Blackboard.Lib.Repr
import Blackboard.Spec.Args
import Blackboard.Spec.Registry
import Blackboard.Spec.Policy

/-! `app.tools.k8s`: what the Kubernetes tools make of an answer of the API server. The fields that they
read are taken from the answer by name; an answer that has something else there is none of Kubernetes. -/

namespace Blackboard.Tools.Kube

def TOP : ℕ := 15
def REVISION : String := "deployment.kubernetes.io/revision"
def CHANGE_CAUSE : String := "kubernetes.io/change-cause"

/-! Members by name. -/

/-- `j[k]`, an object. -/
def child (j : Json) (k : String) : Option Json :=
  match j.get? k with
  | some (.obj ms) => some (.obj ms)
  | _ => none

/-- `j.get(k, {})` -/
def object (j : Json) (k : String) : Option Json :=
  match j.get? k with
  | none => some (.obj [])
  | some (.obj ms) => some (.obj ms)
  | some _ => none

/-- `j.get(k, [])` -/
def items (j : Json) (k : String) : Option (List Json) :=
  match j.get? k with
  | none => some []
  | some (.arr xs) => some xs
  | some _ => none

/-- `j.get(k)`, a text or null. -/
def nullable (j : Json) (k : String) : Option (Option String) :=
  match j.get? k with
  | none | some .null => some none
  | some (.str s) => some (some s)
  | some _ => none

/-- `j.get(k, "")` -/
def text (j : Json) (k : String) : Option String :=
  match j.get? k with
  | none => some ""
  | some (.str s) => some s
  | some _ => none

/-- `j.get(k) or 1` -/
def count (j : Json) (k : String) : Option ℤ :=
  match j.get? k with
  | none | some .null => some 1
  | some (.num n) => some (if n = 0 then 1 else n)
  | some _ => none

/-! Events. -/

structure Event where
  type : String
  reason : String
  kind : String
  name : String
  count : ℤ
  lastTimestamp : Option String
  eventTime : Option String
  creationTimestamp : Option String
  message : String

def Event.ofJson (e : Json) : Option Event :=
  (object e "involvedObject").bind fun obj =>
  (object e "metadata").bind fun metadata =>
  (text e "type").bind fun type =>
  (text e "reason").bind fun reason =>
  (text obj "kind").bind fun kind =>
  (text obj "name").bind fun name =>
  (Kube.count e "count").bind fun count =>
  (nullable e "lastTimestamp").bind fun lastTimestamp =>
  (nullable e "eventTime").bind fun eventTime =>
  (nullable metadata "creationTimestamp").bind fun creationTimestamp =>
  (text e "message").map fun message =>
  ⟨type, reason, kind, name, count, lastTimestamp, eventTime, creationTimestamp, message⟩

/-- `_event_time` -/
def Event.time (e : Event) : String :=
  (([e.lastTimestamp, e.eventTime, e.creationTimestamp].filterMap id).find? (· ≠ "")).getD ""

structure Group where
  type : String
  reason : String
  object : String
  count : ℤ := 0
  lastSeen : String := ""
  message : String := ""

abbrev Key := String × String × String × String

def addEvent (groups : List (Key × Group)) (e : Event) : List (Key × Group) :=
  let key := (e.type, e.reason, e.kind, e.name)
  let g := (groups.lookup key).getD { type := e.type, reason := e.reason, object := e.kind ++ "/" ++ e.name }
  let g := { g with count := g.count + e.count }
  Dict.set groups key
    (if g.lastSeen ≤ e.time then { g with lastSeen := e.time, message := clip e.message 300 } else g)

def groupsOf (es : List Event) : List (Key × Group) := es.foldl addEvent []

def Group.json (g : Group) : Json :=
  .obj [("type", .str g.type), ("reason", .str g.reason), ("object", .str g.object), ("count", .num g.count),
    ("last_seen", .str g.lastSeen), ("message", .str g.message)]

/-- `Counter(...)` of the groups' reasons. -/
def byReason (gs : List Group) : List (String × ℤ) :=
  gs.foldl (fun d g => Dict.set d g.reason ((d.lookup g.reason).getD 0 + 1)) []

/-- `summarize_events` -/
def summarizeEvents (raw : Json) : Option Json :=
  (raw.get? "namespace").bind fun ns =>
  ((items raw "items").bind fun es => es.mapM Event.ofJson).map fun es =>
  let groups := (groupsOf es).map Prod.snd
  let newestFirst := groups.insertionSort fun a b => b.lastSeen ≤ a.lastSeen
  let ordered := newestFirst.filter (fun g => g.type = "Warning") ++ newestFirst.filter fun g => g.type ≠ "Warning"
  let common := (byReason groups).insertionSort fun a b => b.2 ≤ a.2
  .obj ([("namespace", ns), ("events", .num (groups.map Group.count).sum),
    ("warnings", .num ((groups.filter fun g => g.type = "Warning").map Group.count).sum),
    ("by_reason", .obj ((common.take TOP).map fun r => (r.1, .num r.2))),
    ("groups", .arr ((ordered.take TOP).map Group.json))] ++
    if groups = [] then [("note", .str "no events in this window")] else [])

/-! Deployments and their ReplicaSets. -/

inductive EnvVar
  | plain (name value : String)
  | source (name : String) (keys : List String)

structure Container where
  name : String
  image : Option String
  /-- Those of `command`, `args`, `resources` and `ports` that it has. -/
  printed : List (String × Json)
  env : List EnvVar

structure ReplicaSet where
  revision : ℤ
  created : Json
  changeCause : Json
  replicas : Json
  annotations : List (String × String)
  containers : List Container

structure Condition where
  type : String
  status : String
  reason : String
  message : String

structure Deployment where
  name : Json
  changeCause : Json
  generation : Json
  replicas : List (String × Json)
  conditions : List Condition
  replicasets : List ReplicaSet

def EnvVar.ofJson (e : Json) : Option EnvVar :=
  ((e.get? "name").bind Json.asStr?).bind fun name =>
  match e.get? "value" with
  | some v => v.asStr?.map (.plain name)
  | none => (object e "valueFrom").map fun src => .source name (src.members.map Prod.fst)

def Container.ofJson (c : Json) : Option Container :=
  ((c.get? "name").bind Json.asStr?).bind fun name =>
  (nullable c "image").bind fun image =>
  ((items c "env").bind fun es => es.mapM EnvVar.ofJson).map fun env =>
  ⟨name, image, ["command", "args", "resources", "ports"].filterMap fun field => (c.get? field).map (field, ·), env⟩

/-- `_revision` -/
def revisionOf (annotations : Json) : Option ℤ :=
  match annotations.get? REVISION with
  | none => some 0
  | some v => v.asStr?.bind fun s => Strings.int? s.toList

def ReplicaSet.ofJson (rs : Json) : Option ReplicaSet :=
  (child rs "metadata").bind fun metadata =>
  (object metadata "annotations").bind fun annotations =>
  (revisionOf annotations).bind fun revision =>
  (object rs "status").bind fun status =>
  ((child rs "spec").bind fun spec => child spec "template").bind fun template =>
  (child template "spec").bind fun pod =>
  ((child template "metadata").bind fun m => object m "annotations").bind fun own =>
  (own.members.mapM fun m : String × Json => m.2.asStr?.map fun v => (m.1, v)).bind fun texts =>
  (items pod "initContainers").bind fun inits =>
  (items pod "containers").bind fun mains =>
  ((inits ++ mains).mapM Container.ofJson).map fun containers =>
  { revision, created := (metadata.get? "creationTimestamp").getD .null,
    changeCause := (annotations.get? CHANGE_CAUSE).getD .null,
    replicas := (status.get? "replicas").getD (.num 0), annotations := texts, containers }

def Condition.ofJson (c : Json) : Option Condition :=
  (text c "type").bind fun type =>
  (text c "status").bind fun status =>
  (text c "reason").bind fun reason =>
  (text c "message").map fun message => ⟨type, status, reason, message⟩

def Deployment.ofJson (raw : Json) : Option Deployment :=
  (child raw "deployment").bind fun dep =>
  (child dep "metadata").bind fun metadata =>
  (metadata.get? "name").bind fun name =>
  (object metadata "annotations").bind fun annotations =>
  (object dep "status").bind fun status =>
  ((items status "conditions").bind fun cs => cs.mapM Condition.ofJson).bind fun conditions =>
  ((items raw "replicasets").bind fun rs => rs.mapM ReplicaSet.ofJson).map fun replicasets =>
  { name, changeCause := (annotations.get? CHANGE_CAUSE).getD .null,
    generation := (metadata.get? "generation").getD .null,
    replicas := ["replicas", "readyReplicas", "updatedReplicas", "unavailableReplicas"].map fun k =>
      (k, (status.get? k).getD (.num 0)),
    conditions, replicasets }

def Condition.json (c : Condition) : Json :=
  .obj [("type", .str (clip c.type 200)), ("status", .str (clip c.status 200)), ("reason", .str (clip c.reason 200)),
    ("message", .str (clip c.message 200))]

/-- `sorted({c["image"] for c in _containers(rs)})` -/
def imagesOf (rs : ReplicaSet) : Except Raised (List String) :=
  match rs.containers.mapM Container.image with
  | some images => .ok (images.dedup.insertionSort fun a b => a ≤ b)
  | none => .error (.shape "KeyError('image')")

def revisionJson (current : Option ℤ) (rs : ReplicaSet) : Except Raised Json :=
  (imagesOf rs).map fun images =>
    .obj [("revision", .num rs.revision), ("current", .bool (some rs.revision = current)), ("created", rs.created),
      ("change_cause", rs.changeCause), ("replicas", rs.replicas), ("images", .arr (images.map .str))]

/-- `summarize_history` -/
def Deployment.history (d : Deployment) : Except Raised Json :=
  let revisions := d.replicasets.insertionSort fun a b => b.revision ≤ a.revision
  let current := revisions.head?.map ReplicaSet.revision
  ((revisions.take 10).mapM (revisionJson current)).map fun shown =>
    .obj [("deployment", d.name), ("change_cause", d.changeCause), ("generation", d.generation),
      ("replicas", .obj d.replicas), ("conditions", .arr (d.conditions.map Condition.json)), ("revisions", .arr shown)]

def summarizeHistory (raw : Json) : Option (Except Raised Json) := (Deployment.ofJson raw).map Deployment.history

/-! What a release changed. -/

section Diff

variable (printable : Char → Bool)

def EnvVar.name : EnvVar → String
  | .plain name _ => name
  | .source name _ => name

def EnvVar.text : EnvVar → String
  | .plain _ value => value
  | .source _ keys => "<from " ++ Json.pyStr printable (.arr ((keys.insertionSort fun a b => a ≤ b).map .str)) ++ ">"

def flattenContainer (out : List (String × String)) (c : Container) : List (String × String) :=
  let pre := "containers." ++ c.name
  let out := Dict.set out (pre ++ ".image") (c.image.getD "")
  let out := c.printed.foldl (fun out p => Dict.set out (pre ++ "." ++ p.1) (p.2.pyStr printable)) out
  c.env.foldl (fun out e => Dict.set out (pre ++ ".env." ++ e.name) (e.text printable)) out

/-- `_flatten` -/
def flatten (rs : ReplicaSet) : List (String × String) :=
  rs.containers.foldl (flattenContainer printable)
    ((rs.annotations.insertionSort fun a b => a.1 ≤ b.1).foldl
      (fun out m => Dict.set out ("annotations." ++ m.1) m.2) [])

/-- What `summarize_diff` reads of its arguments, whatever their pattern and bounds. -/
structure DiffArgs where
  deployment : String
  fromRevision : Option ℤ := none
  toRevision : Option ℤ := none

def DiffArgs.ofArgs (a : DeployDiffArgs) : DiffArgs :=
  ⟨a.deployment.1, a.fromRevision.map fun n => n.1, a.toRevision.map fun n => n.1⟩

/-- `{_revision(rs): rs for rs in raw["replicasets"]}` -/
def Deployment.revisions (d : Deployment) : List (ℤ × ReplicaSet) :=
  d.replicasets.foldl (fun out rs => Dict.set out rs.revision rs) []

def pyInts (ns : List ℤ) : String := "[" ++ ", ".intercalate (ns.map toString) ++ "]"

/-- The two revisions that are compared, the older one first. -/
def Deployment.compared (d : Deployment) (args : DiffArgs) : Except Raised (ReplicaSet × ReplicaSet) :=
  let revisions := d.revisions
  let ordered := (revisions.map Prod.fst).insertionSort fun a b => a ≤ b
  match ordered.getLast? with
  | none => .error (.notFound ("deployment " ++ args.deployment ++ " has no revisions"))
  | some newest =>
    let toRev := (args.toRevision.filter (· ≠ 0)).getD newest
    let fromRev := args.fromRevision.filter (· ≠ 0) <|> (ordered.filter fun r => r < toRev).getLast?
    match fromRev.bind (revisions.lookup ·), revisions.lookup toRev with
    | some a, some b => .ok (a, b)
    | _, _ => .error (.notFound ("revisions available: " ++ pyInts ordered ++ "; asked for " ++
        (fromRev.map toString).getD "None" ++ " -> " ++ toString toRev))

def changesOf (a b : List (String × String)) : List Json :=
  let paths := ((a.map Prod.fst ++ b.map Prod.fst).dedup.insertionSort fun p q => p ≤ q).filter fun p =>
  a.lookup p ≠ b.lookup p
  paths.map fun p =>
    .obj [("path", .str p), ("from", .str (clip ((a.lookup p).getD "<absent>") 200)),
      ("to", .str (clip ((b.lookup p).getD "<absent>") 200))]

def ReplicaSet.side (rs : ReplicaSet) : Json :=
  .obj [("revision", .num rs.revision), ("created", rs.created), ("change_cause", rs.changeCause)]

/-- `summarize_diff` -/
def Deployment.diff (d : Deployment) (args : DiffArgs) : Except Raised Json :=
  (d.compared args).map fun (a, b) =>
    let changes := changesOf (flatten printable a) (flatten printable b)
    .obj ([("deployment", .str args.deployment), ("from", a.side), ("to", b.side),
      ("changes", .arr (changes.take 30))] ++
      if changes = [] then [("note", .str "no differences in the pod template")] else [])

def summarizeDiff (raw : Json) (args : DiffArgs) : Option (Except Raised Json) :=
  (Deployment.ofJson raw).map fun d => d.diff printable args

end Diff

end Blackboard.Tools.Kube
