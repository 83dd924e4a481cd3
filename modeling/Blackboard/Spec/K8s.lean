import Blackboard.Spec.Core

/-! The executor's Kubernetes client: a change is worked out against the Deployment as the API
returns it, as a JSON patch that starts with a test of the resourceVersion that was read. -/

namespace Blackboard

open Threads

namespace K8s

def REVISION : String := "deployment.kubernetes.io/revision"
def CHANGE_CAUSE : String := "kubernetes.io/change-cause"
def RESTARTED_AT : String := "kubectl.kubernetes.io/restartedAt"

/-- `s.replace(c, text)` -/
def replaced (c : Char) (text : String) (s : String) : String :=
  String.ofList (s.toList.flatMap fun d => if d = c then text.toList else [d])

def escape (key : String) : String := replaced '/' "~1" (replaced '~' "~0" key)

/-- `d[k1][k2]...`: a missing member is an exception, not an ExecError. -/
def need (j : Json) (ks : List String) : Except Err Json :=
  match j.path? ks with
  | some v => .ok v
  | none => .error (.exception "KeyError")

/-- `d.get(k)`; what is no object has no `get`. -/
def getOpt (j : Json) (k : String) : Except Err (Option Json) :=
  match j with
  | .obj ms => .ok (Json.member? ms k)
  | _ => .error (.exception "AttributeError")

/-- `int(meta.get("annotations", {}).get(REVISION, 0))` -/
def revision (m : Json) : Except Err ℤ :=
  match m.get? "annotations" with
  | none => .ok 0
  | some (.obj ms) =>
    match Json.member? ms REVISION with
    | none => .ok 0
    | some (.num n) => .ok n
    | some (.float x) => .ok (x.value.num.tdiv x.value.den)
    | some (.bool b) => .ok b.toNat
    | some (.str s) =>
      match Strings.int? s.toList with
      | some n => .ok n
      | none => .error (.exception "ValueError")
    | some _ => .error (.exception "TypeError")
  | some _ => .error (.exception "AttributeError")

/-- The metadata of the Deployment that is kept with the execution. -/
def before (dep : Json) : Except Err Json := do
  let rev ← revision (← need dep ["metadata"])
  let containers := (← getOpt (← need dep ["spec", "template", "spec"]) "containers").bind Json.asArr?
  return .obj [("resourceVersion", ← need dep ["metadata", "resourceVersion"]), ("revision", .num rev),
    ("replicas", (← getOpt (← need dep ["spec"]) "replicas").getD .null),
    ("image", .arr ((containers.getD []).map fun c => (c.get? "image").getD .null))]

def op (name path : String) (value : Json) : Json :=
  .obj [("op", .str name), ("path", .str path), ("value", value)]

def POD_TEMPLATE_HASH : String := "pod-template-hash"

/-- `t.get("metadata", {}).get(field, {}).pop(key, None)`, on a copy of `t`. -/
def popped (field key : String) (t : Json) : Except Err Json := do
  match ← getOpt t "metadata" with
  | none => return t
  | some metadata =>
    match ← getOpt metadata field with
    | none => return t
    | some (.obj _) => return t.modify ["metadata", field] fun m => m.erase key
    | some _ => .error (.exception "AttributeError")

/-- `template` without the label the ReplicaSet controller adds. -/
def withoutHash (template : Json) : Except Err Json := popped "labels" POD_TEMPLATE_HASH template

/-- `clean` -/
def cleanTemplate (t : Json) : Except Err Json := do
  popped "annotations" RESTARTED_AT (← withoutHash t)

def sameTemplate (a b : Json) : Except Err Bool := do
  return (← cleanTemplate a).same (← cleanTemplate b)

/-- The ReplicaSets by revision; of two with one revision the last counts. -/
def byRevision (rss : List Json) : Except Err (List (ℤ × Json)) :=
  rss.mapM fun r => do return (← revision (← need r ["metadata"]), r)

def lookup (rss : List (ℤ × Json)) (rev : ℤ) : Option Json :=
  (rss.filter fun r => r.1 = rev).getLast?.map (·.2)

/-- The revision to return to: the named one, or else the one before the current. -/
def target (deployment : String) (toRevision : Option ℕ) (current : ℤ) (rss : List (ℤ × Json)) :
    Except Err ℤ :=
  match toRevision with
  | some n => .ok n
  | none =>
    match (rss.map (·.1)).filter fun r => 0 < r ∧ r < current with
    | [] => .error (.execError (deployment ++ " has no revision before " ++ toString current ++ " to roll back to")
        (some false))
    | r :: rs => .ok (rs.foldl max r)

/-- What `kubectl rollout undo` does: copy an earlier ReplicaSet's pod template back. -/
def undo (deployment : String) (toRevision : Option ℕ) (dep : Json) (rss : List Json) (note : String) :
    Except Err Prepared := do
  let current ← revision (← need dep ["metadata"])
  let before ← before dep
  let rss ← byRevision rss
  let target ← target deployment toRevision current rss
  match lookup rss target with
  | none => .error (.execError (deployment ++ " has no revision " ++ toString target ++ " (known: [" ++
      String.intercalate ", " (((rss.map (·.1)).dedup.insertionSort (· ≤ ·)).map toString) ++ "])") (some false))
  | some rs =>
    if target = current then
      .error (.execError (deployment ++ " is already at revision " ++ toString target) (some false))
    else
      let template ← withoutHash (← need rs ["spec", "template"])
      if ← sameTemplate template (← need dep ["spec", "template"]) then
        return { deployment, ops := [], before, noop := true,
                 summary := deployment ++ " already runs the template of revision " ++ toString target }
      else
        return { deployment,
                 ops := [op "test" "/metadata/resourceVersion" (← need dep ["metadata", "resourceVersion"]),
                   op "replace" "/spec/template" template,
                   op "add" ("/metadata/annotations/" ++ escape CHANGE_CAUSE) (.str note)],
                 before := match before with
                   | .obj ms => .obj (ms ++ [("target_revision", .num target)])
                   | j => j,
                 summary := "roll " ++ deployment ++ " back from revision " ++ toString current ++
                   " to the template of revision " ++ toString target }

/-- The other two actions. `now` is `datetime.now(UTC).isoformat(timespec="seconds")`. -/
def prepared (a : Action) (dep : Json) (now : String) : Except Err Prepared := do
  let before ← before dep
  let guard := op "test" "/metadata/resourceVersion" (← need dep ["metadata", "resourceVersion"])
  match a.change with
  | .rolloutUndo _ => .error (.execError ("no implementation for " ++ a.kind.name) (some false))
  | .restartDeployment =>
    let annotations ← getOpt (← need dep ["spec", "template", "metadata"]) "annotations"
    let restart := match annotations with
      | none | some .null => op "add" "/spec/template/metadata/annotations" (.obj [(RESTARTED_AT, .str now)])
      | some _ => op "add" ("/spec/template/metadata/annotations/" ++ escape RESTARTED_AT) (.str now)
    return { deployment := a.deployment, ops := [guard, restart], before,
             summary := "rolling restart of " ++ a.deployment }
  | .scaleDeployment replicas =>
    let now := (← getOpt (← need dep ["spec"]) "replicas").getD .null
    if now.same (.num replicas) then
      return { deployment := a.deployment, ops := [], before, noop := true,
               summary := a.deployment ++ " already has " ++ toString replicas }
    else
      return { deployment := a.deployment, ops := [guard, op "replace" "/spec/replicas" (.num replicas)], before,
               summary := "scale " ++ a.deployment ++ " from " ++ now.pyStr Text.isPrintable ++ " to " ++
               toString replicas ++
                 " replicas" }

inductive Method
  | get | patch
deriving DecidableEq

def Method.name : Method → String
  | get => "GET"
  | patch => "PATCH"

/-- `_path` -/
def path (ns name : String) : String := "/apis/apps/v1/namespaces/" ++ ns ++ "/deployments/" ++ name

/-- `_send`: a write that nobody answered may have taken effect. -/
def answer (method : Method) (path : String) : Reply → Except Err Json
  | .ok body => .ok body
  | .http status detail => .error (.execError
      ("HTTP " ++ toString status ++ " from " ++ method.name ++ " " ++ path ++ ": " ++ cut 400 detail) (some false))
  | .noAnswer e => .error (.execError ("no answer from the Kubernetes API: " ++ e)
      (if method = .patch then none else some false))

/-- What the API says of a Deployment that is not there. -/
def noDeployment (ns name : String) : Err := .execError
  ("HTTP 404 from GET " ++ path ns name ++ ": deployments.apps \"" ++ name ++ "\" not found") (some false)

/-- GET of a Deployment, and which contents of the cluster it was read in. -/
def deployment (ns name : String) : Handler (Json × ℕ) := look fun i c => do
  let _ ← answer .get (path ns name) i.reply
  match c.cluster.deployments.lookup name with
  | some d => .ok (d, c.past.length)
  | none => .error (noDeployment ns name)

/-- Whether a ReplicaSet carries the labels. -/
def carries (labels : List (String × Json)) (rs : Json) : Bool :=
  labels.all fun l => ((rs.path? ["metadata", "labels", l.1]).getD .null).same l.2

def owned (uid : Json) (rs : Json) : Bool :=
  (((rs.path? ["metadata", "ownerReferences"]).bind Json.asArr?).getD []).any fun o =>
    ((o.get? "uid").getD .null).same uid

/-- The ReplicaSets the selector finds that belong to the Deployment. -/
def ofDeployment (dep : Json) (rss : List Json) : Except Err (List Json) := do
  let labels ← match ← getOpt (← need dep ["spec", "selector"]) "matchLabels" with
    | some (.obj ms) => .ok ms
    | none => .ok []
    | some _ => .error (.exception "AttributeError")
  let uid ← need dep ["metadata", "uid"]
  return (rss.filter (carries labels)).filter (owned uid)

def replicasets (ns : String) (dep : Json) : Handler (List Json × ℕ) := look fun i c => do
  let _ ← answer .get ("/apis/apps/v1/namespaces/" ++ ns ++ "/replicasets") i.reply
  return (← ofDeployment dep c.cluster.replicasets, c.past.length)

/-- A step that awaits nothing. -/
def ofExcept {α : Type} (x : Except Err α) : Handler α := ExceptT.mk (Prog.ret x)

/-- Work out the change against the Deployment as it is now. -/
def prepare (ns : String) (a : Action) (note : String) : Handler Prepared := do
  let (dep, readAt) ← deployment ns a.deployment
  let _ ← ofExcept (before dep)
  match a.change with
  | .rolloutUndo toRevision =>
    let (rss, listedAt) ← replicasets ns dep
    let p ← ofExcept (undo a.deployment toRevision dep rss note)
    return { p with readAt, listedAt }
  | _ =>
    let now ← clock
    let p ← ofExcept (prepared a dep (Text.isoSeconds now))
    return { p with readAt, listedAt := readAt }

end K8s

end Blackboard
