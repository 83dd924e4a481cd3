import Mathlib.Algebra.Order.Floor.Ring
import Mathlib.Data.Nat.Log
import Mathlib.Data.Rat.Floor
import Blackboard.Lib.Repr
import Blackboard.Lib.Strings
import Blackboard.Spec.Plans

/-! The policy engine: a pure function of the plan's structured fields, the diagnosis's ranked
services, the cited evidence and the configuration. Confidences are exact. -/

namespace Blackboard

namespace Text

/-- Round half to even, as Python's formats do. -/
def round (q : ℚ) : ℤ :=
  let f := ⌊q⌋
  if q - f < 1 / 2 then f
  else if 1 / 2 < q - f then f + 1
  else if f % 2 = 0 then f else f + 1

/-- `f"{q:.2f}"` -/
def fixed2 (q : ℚ) : String :=
  let n := (round (|q| * 100)).toNat
  (if q < 0 then "-" else "") ++ toString (n / 100) ++ "." ++ toString (n / 10 % 10) ++ toString (n % 10)

/-- `f"{q:.0%}"` -/
def percent (q : ℚ) : String := toString (round (q * 100)) ++ "%"

/-- A decimal point before the last `k` digits of `n`, and no zeros at the end. -/
def decimal (n k : ℕ) : String :=
  let frac := ((List.range k).map fun j => n / 10 ^ (k - 1 - j) % 10).reverse.dropWhile (· = 0)
  toString (n / 10 ^ k) ++
    (if frac.isEmpty then "" else "." ++ String.join (frac.reverse.map fun d => toString d))

/-- `f"{q:.<p>g}"` -/
def general (p : ℕ) (q : ℚ) : String :=
  if q = 0 then "0"
  else
    let a := |q|
    let e : ℤ := if 1 ≤ a then Nat.log 10 ⌊a⌋.toNat else -(Nat.clog 10 ⌈1 / a⌉.toNat : ℤ)
    let n := (round (a * 10 ^ (p - 1 - e))).toNat
    let (n, e) := if n = 10 ^ p then (10 ^ (p - 1), e + 1) else (n, e)
    (if q < 0 then "-" else "") ++
      if e < -4 ∨ p ≤ e then
        decimal n (p - 1) ++ "e" ++ (if e < 0 then "-" else "+") ++ (if e.natAbs < 10 then "0" else "") ++
          toString e.natAbs
      else decimal n (p - 1 - e).toNat

/-- `f"{q:.0f}"` -/
def fixed0 (q : ℚ) : String := toString (round q)

/-- Seconds since midnight, UTC. -/
def timeOfDay (t : Time) : ℚ := t - 86400 * ⌊t / 86400⌋

/-- `f"{t:%H:%M}"` -/
def clock (t : Time) : String :=
  let m := ⌊timeOfDay t / 60⌋.toNat
  toString (m / 600) ++ toString (m / 60 % 10) ++ ":" ++ toString (m % 60 / 10) ++ toString (m % 10)

def pad2 (n : ℕ) : String := (if n < 10 then "0" else "") ++ toString n

/-- The date of a day counted from 1970-01-01, in the years the count of days is positive. -/
def date (days : ℕ) : String :=
  let z := days + 719468
  let era := z / 146097
  let doe := z % 146097
  let yoe := (doe - doe / 1460 + doe / 36524 - doe / 146096) / 365
  let doy := doe - (365 * yoe + yoe / 4 - yoe / 100)
  let mp := (5 * doy + 2) / 153
  let month := if mp < 10 then mp + 3 else mp - 9
  let year := yoe + era * 400 + (if month ≤ 2 then 1 else 0)
  toString year ++ "-" ++ pad2 month ++ "-" ++ pad2 (doy - (153 * mp + 2) / 5 + 1)

/-- `t.isoformat(timespec="seconds")`, UTC -/
def isoSeconds (t : Time) : String :=
  date (⌊t / 86400⌋).toNat ++ "T" ++ clock t ++ ":" ++ pad2 (⌊timeOfDay t⌋.toNat % 60) ++ "+00:00"

/-- `s.partition(c)`, without the separator. -/
def partition (c : Char) (s : List Char) : List Char × List Char :=
  (s.takeWhile (· ≠ c), (s.dropWhile (· ≠ c)).drop 1)

/-- `str.isprintable`; outside ASCII whatever is not blank is taken for printable. -/
def isPrintable (c : Char) : Bool :=
  if c.toNat < 128 then 32 ≤ c.toNat && c.toNat < 127 else 160 < c.toNat && !Lines.isSpace c

/-- `repr` of an exception with one text. -/
def raised (name message : String) : String := name ++ "(" ++ String.ofList (Json.reprStr isPrintable message) ++ ")"

end Text

structure EvidenceRef where
  tool : String
  args : Json

structure PolicyContext where
  incidentService : String
  /-- The diagnosis's candidates, most likely first: service and confidence. -/
  rootCauses : List (String × ℚ)
  evidence : String → Option EvidenceRef
  namespace_ : String
  allowedTargets : List String
  minConfidence : ℚ
  autoMaxRisk : Risk
  changeWindow : String
  now : Time

structure Decision where
  verdict : Verdict
  risk : Option Risk
  checks : List Check
deriving DecidableEq, Repr

namespace Decision

def failed (d : Decision) : List Check := d.checks.filter fun c => !c.ok

def reasons (d : Decision) : String :=
  let bad := if (d.failed.filter (·.blocking)).isEmpty then d.failed else d.failed.filter (·.blocking)
  if bad.isEmpty then "all checks passed" else String.intercalate "; " (bad.map (·.detail))

end Decision

namespace Policy

def scope (deployment : String) (ctx : PolicyContext) (i : ℕ) : Check :=
  if ctx.allowedTargets.contains deployment then
    { name := "scope", ok := true, detail := ctx.namespace_ ++ "/" ++ deployment ++ " may be remediated",
      action := some i }
  else
    { name := "scope", ok := false, action := some i,
      detail := deployment ++ " is not on the list of Deployments remediation may touch" }

/-- Act where the problem is, not where it shows. -/
def problemHost (deployment : String) (ctx : PolicyContext) (i : ℕ) : Check :=
  match ctx.rootCauses with
  | [] => { name := "problem_host", ok := false, detail := "the diagnosis has no root cause", action := some i }
  | (top, confidence) :: _ =>
    if deployment ≠ top then
      { name := "problem_host", ok := false, action := some i,
        detail := deployment ++
          (if deployment = ctx.incidentService then " (the alerting service, which shows the symptoms)" else "") ++
          " is not the top root cause (" ++ top ++ ")" }
    else if confidence < ctx.minConfidence then
      { name := "problem_host", ok := false, action := some i,
        detail := "the top root cause " ++ top ++ " has confidence " ++ Text.fixed2 confidence ++
          ", below " ++ Text.fixed2 ctx.minConfidence }
    else
      { name := "problem_host", ok := true, action := some i,
        detail := deployment ++ " is the top root cause (" ++ Text.percent confidence ++ ")" }

def about (deployment : String) (tools : List String) (ctx : PolicyContext) (ev : String) : Bool :=
  match ctx.evidence ev with
  | none => false
  | some r => tools.contains r.tool &&
      match r.args.get? "deployment" with
      | some (.str d) => d = deployment
      | _ => false

def evidence (kind : ActionKind) (deployment : String) (ids tools : List String) (ctx : PolicyContext)
    (i : ℕ) : Check :=
  let unknown := ids.filter fun ev => (ctx.evidence ev).isNone
  if !unknown.isEmpty then
    { name := "evidence", ok := false, action := some i,
      detail := "cited evidence not found for this incident: " ++ String.intercalate ", " unknown }
  else if !tools.isEmpty && !ids.any (about deployment tools ctx) then
    { name := "evidence", ok := false, action := some i,
      detail := kind.name ++ " needs a cited " ++ String.intercalate " or " tools ++ " result for " ++
        deployment ++ ", showing what would be undone" }
  else
    { name := "evidence", ok := true, action := some i,
      detail := toString ids.length ++ " cited result(s) of this incident" }

def alternative (catalogue : ActionKind → Option ActionInfo) (plan : RemediationPlan) (risk : Risk) (i : ℕ) :
    Check :=
  let lower := plan.alternatives.filterMap fun a =>
    a.action.bind fun k => (catalogue k).bind fun info =>
      if info.risk.rank < risk.rank then some k.name else none
  if lower.isEmpty then
    { name := "alternative", ok := false, blocking := false, action := some i,
      detail := "a " ++ risk.name ++ " action without any lower-risk option considered" }
  else
    { name := "alternative", ok := true, blocking := false, action := some i,
      detail := "lower-risk options considered: " ++ String.intercalate ", " (Strings.sortedSet lower) }

/-- `int(s)`, or the ValueError it raises. -/
def number (s : List Char) : Except String ℤ :=
  match Strings.int? s with
  | some n => .ok n
  | none => .error (Text.raised "ValueError" ("invalid literal for int() with base 10: " ++
      String.ofList ((Json.reprStr Text.isPrintable (String.ofList s)).take 200)))

/-- A number as the C int that `time` takes. -/
def cInt (n : ℤ) : Except String ℤ :=
  if n < -2 ^ 63 ∨ 2 ^ 63 ≤ n then .error (Text.raised "OverflowError" "Python int too large to convert to C long")
  else if n < -2 ^ 31 then .error (Text.raised "OverflowError" "signed integer is less than minimum")
  else if 2 ^ 31 ≤ n then .error (Text.raised "OverflowError" "signed integer is greater than maximum")
  else .ok n

/-- Seconds since midnight; `time.max` for 24:00. The error is the `repr` of what Python raises. -/
def clock (value : List Char) : Except String ℚ := do
  let p := Text.partition ':' (Strings.strip Lines.isSpace value)
  let h ← number p.1
  let m ← if p.2.isEmpty then .ok 0 else number p.2
  if h = 24 ∧ m = 0 then .ok (86400 - 1 / 1000000)
  else do
    let h ← cInt h
    let m ← cInt m
    if h < 0 ∨ 23 < h then .error (Text.raised "ValueError" "hour must be in 0..23")
    else if m < 0 ∨ 59 < m then .error (Text.raised "ValueError" "minute must be in 0..59")
    else .ok (3600 * h + 60 * m)

def window (ctx : PolicyContext) : Except String Check := do
  let p := Text.partition '-' ctx.changeWindow.toList
  let start ← clock p.1
  let stop ← clock p.2
  let now := Text.timeOfDay ctx.now
  let inside := if start ≤ stop then start ≤ now ∧ now < stop else start ≤ now ∨ now < stop
  return { name := "change_window", ok := inside,
           detail := Text.clock ctx.now ++ " UTC is " ++ (if inside then "inside" else "outside") ++
             " the change window " ++ ctx.changeWindow ++ " UTC" }

/-- The checks of one action, and its risk when it is in the catalogue. -/
def checkAction (catalogue : ActionKind → Option ActionInfo) (plan : RemediationPlan) (ctx : PolicyContext)
    (i : ℕ) (action : Action) : List Check × Option Risk :=
  match catalogue action.kind with
  | none =>
    ([{ name := "catalogue", ok := false, action := some i,
        detail := action.kind.name ++ " is not in the action catalogue" }], none)
  | some info =>
    ([{ name := "catalogue", ok := info.risk ≠ .R4, detail := action.kind.name ++ " is " ++ info.risk.name,
        action := some i },
      scope action.deployment ctx i, problemHost action.deployment ctx i,
      evidence action.kind action.deployment action.evidenceIds info.evidenceTools ctx i,
      { name := "rollback_plan", ok := info.inverse ≠ "", action := some i,
        detail := "undo: " ++ (if info.inverse = "" then "none defined" else info.inverse) }] ++
      (if info.risk = .R3 then [alternative catalogue plan info.risk i] else []), some info.risk)

/-- The highest risk; of equal ones the first. -/
def highest (risks : List Risk) : Option Risk :=
  risks.foldl (fun risk r =>
    match risk with
    | none => some r
    | some s => if s.rank < r.rank then some r else some s) none

def evaluate' (catalogue : ActionKind → Option ActionInfo) (plan : RemediationPlan) (ctx : PolicyContext) :
    Except String Decision := do
  if plan.actions.isEmpty then
    return ⟨.deny, none, [{ name := "actions", ok := false, detail := "the plan has no actions" }]⟩
  let checked := plan.actions.zipIdx.map fun (a, i) => checkAction catalogue plan ctx i a
  let checks := (checked.map (·.1)).flatten ++ [← window ctx]
  match highest (checked.filterMap (·.2)) with
  | none => return ⟨.deny, none, checks⟩
  | some risk =>
    if checks.any fun c => !c.ok && c.blocking then return ⟨.deny, some risk, checks⟩
    return ⟨if risk.rank ≤ ctx.autoMaxRisk.rank then .allow else .requireApproval, some risk, checks⟩

/-- Fail closed, whatever went wrong. -/
def evaluate (catalogue : ActionKind → Option ActionInfo) (plan : RemediationPlan) (ctx : PolicyContext) :
    Decision :=
  match evaluate' catalogue plan ctx with
  | .ok d => d
  | .error e => ⟨.deny, none, [{ name := "policy_error", ok := false,
                                 detail := "the policy could not evaluate the plan: " ++ e }]⟩

end Policy

end Blackboard
