import Blackboard.Spec.Audit

/-! The action catalogue, a remediation plan, and the hash approvals bind to. -/

namespace Blackboard

namespace Risk

def RISKS : List Risk := [.R0, .R1, .R2, .R3, .R4]

def rank (r : Risk) : ℕ := RISKS.idxOf r

def name : Risk → String
  | .R0 => "R0"
  | .R1 => "R1"
  | .R2 => "R2"
  | .R3 => "R3"
  | .R4 => "R4"

end Risk

def Verdict.name : Verdict → String
  | .allow => "allow"
  | .requireApproval => "require_approval"
  | .deny => "deny"

inductive ActionKind
  | rolloutUndo | restartDeployment | scaleDeployment
deriving DecidableEq, Repr

def ActionKind.name : ActionKind → String
  | .rolloutUndo => "rollout_undo"
  | .restartDeployment => "restart_deployment"
  | .scaleDeployment => "scale_deployment"

/-- What an action asks for, over and above the Deployment. -/
inductive Change
  | rolloutUndo (toRevision : Option ℕ)
  | restartDeployment
  | scaleDeployment (replicas : ℕ)
deriving DecidableEq, Repr

structure Action where
  deployment : String
  evidenceIds : List String
  reason : String
  change : Change
deriving DecidableEq, Repr

def Action.kind (a : Action) : ActionKind :=
  match a.change with
  | .rolloutUndo _ => .rolloutUndo
  | .restartDeployment => .restartDeployment
  | .scaleDeployment _ => .scaleDeployment

/-- `f"{action.action} {action.deployment}"` -/
def Action.line (a : Action) : String := a.kind.name ++ " " ++ a.deployment

structure ActionInfo where
  risk : Risk
  inverse : String
  evidenceTools : List String := []
deriving Repr

def CATALOGUE : ActionKind → Option ActionInfo
  | .rolloutUndo => some
      ⟨.R3, "roll the Deployment back to the revision it was on before", ["rollout_history", "deploy_diff"]⟩
  | .restartDeployment => some ⟨.R2, "none needed: a rolling restart of a stateless service", []⟩
  | .scaleDeployment => some ⟨.R2, "scale back to the replica count it had before", []⟩

/-- `action` is none for "none". -/
structure Alternative where
  action : Option ActionKind
  whyNot : String
deriving DecidableEq, Repr

structure RemediationPlan where
  summary : String
  actions : List Action
  alternatives : List Alternative
  noActionReason : Option String := none
deriving DecidableEq, Repr

namespace Plans

def actionJson (a : Action) : Json :=
  .obj ([("deployment", .str a.deployment), ("evidence_ids", .arr (a.evidenceIds.map .str)),
      ("reason", .str a.reason), ("action", .str a.kind.name)] ++
    match a.change with
    | .rolloutUndo r => [("to_revision", match r with | some n => .num n | none => .null)]
    | .restartDeployment => []
    | .scaleDeployment n => [("replicas", .num n)])

def alternativeJson (a : Alternative) : Json :=
  .obj [("action", .str (match a.action with | some k => k.name | none => "none")),
    ("why_not", .str a.whyNot)]

def planJson (p : RemediationPlan) : Json :=
  .obj [("summary", .str p.summary), ("actions", .arr (p.actions.map actionJson)),
    ("alternatives", .arr (p.alternatives.map alternativeJson)),
    ("no_action_reason", match p.noActionReason with | some r => .str r | none => .null)]

/-- sha256 over everything an approval is an approval of. -/
def planHash (sha256 : String → String) (incident seq : ℕ) (p : RemediationPlan) : String :=
  sha256 (Json.dumps (.arr [.str (toString incident), .num seq, planJson p]))

def describe (p : RemediationPlan) : List Json := p.actions.map actionJson

end Plans

end Blackboard
