import Mathlib.Data.List.Sort
import Mathlib.Data.List.Dedup
import Mathlib.Algebra.Order.Ring.Rat
import Blackboard.Spec.Plans

/-! What each agent must hand back (`app.agents.schemas`), and the citation check. A value of
these types is an answer that pydantic has validated; it keeps the bounds of its fields. -/

namespace Blackboard.Agents

/-- `Field(max_length=n)` -/
abbrev Str (n : ℕ) := { s : String // s.length ≤ n }

/-- `list[str]` with `min_length` and `max_length`. -/
abbrev EvidenceIds (lo hi : ℕ) := { ids : List String // lo ≤ ids.length ∧ ids.length ≤ hi }

/-- `Field(ge=0, le=1)` -/
abbrev Confidence := { q : ℚ // 0 ≤ q ∧ q ≤ 1 }

inductive Focus
  | metrics | logsTraces | changes
deriving DecidableEq, Repr

def INVESTIGATORS : List Focus := [.metrics, .logsTraces, .changes]

def Focus.name : Focus → String
  | .metrics => "metrics"
  | .logsTraces => "logs_traces"
  | .changes => "changes"

inductive FindingKind
  | fact | inference | hypothesis
deriving DecidableEq, Repr

def FindingKind.name : FindingKind → String
  | .fact => "fact"
  | .inference => "inference"
  | .hypothesis => "hypothesis"

inductive Signal
  | metrics | logs | traces | changes | flags
deriving DecidableEq, Repr

def Signal.name : Signal → String
  | .metrics => "metrics"
  | .logs => "logs"
  | .traces => "traces"
  | .changes => "changes"
  | .flags => "flags"

/-- The coordinator's answer. -/
structure Plan where
  summary : Str 600
  hypotheses : { hs : List String // hs.length ≤ 5 }
  briefs : Focus → Str 600

structure Finding where
  statement : Str 500
  kind : FindingKind
  signal : Signal
  service : Option (Str 64) := none
  evidenceIds : EvidenceIds 0 6
  confidence : Confidence

/-- An investigator's answer. -/
structure InvestigatorReport where
  summary : Str 600
  findings : List Finding
  bounded : findings.length ≤ 8

structure RootCause where
  service : Str 64
  cause : Str 500
  confidence : Confidence
  evidenceIds : EvidenceIds 1 8

structure Claim where
  statement : Str 500
  evidenceIds : EvidenceIds 1 8

structure OpenQuestion where
  statement : Str 500
  howToVerify : Str 300

/-- The synthesizer's answer. -/
structure Diagnosis where
  summary : Str 800
  rootCauses : List RootCause
  facts : List Claim
  inferences : List Claim
  hypotheses : List OpenQuestion
  bounded : rootCauses.length ≤ 3 ∧ facts.length ≤ 10 ∧ inferences.length ≤ 6 ∧ hypotheses.length ≤ 5

/-- `Diagnosis.cited`, a set. -/
def Diagnosis.cited (d : Diagnosis) : List String :=
  (d.rootCauses.flatMap fun r => r.evidenceIds.1) ++ (d.facts.flatMap fun c => c.evidenceIds.1) ++
    d.inferences.flatMap fun c => c.evidenceIds.1

/-! The citation check. `known` is a dict from evidence id to tool, `shown` a collection of ids. -/

def SIGNAL_TOOLS : Signal → List String
  | .metrics => ["prom_query", "prom_range"]
  | .logs => ["logs_search"]
  | .traces => ["traces_search", "trace_get"]
  | .changes => ["rollout_history", "deploy_diff", "k8s_events"]
  | .flags => ["flag_state"]

def KNOWLEDGE_TOOLS : List String := ["kb_search"]

def KNOWLEDGE_ONLY : String :=
  "cites only knowledge base results; a runbook says what usually happens, not what happened now. " ++
    "Cite a live result too, or call it a hypothesis"

structure Checked (α : Type) where
  value : α
  problems : List String
  dropped : ℕ

def idProblems (ids : List String) (known : List (String × String)) (shown : List String) (place : String) :
    List String :=
  ids.filterMap fun ev =>
    if (known.lookup ev).isNone then some (place ++ ": " ++ ev ++ " is not an evidence id of this incident")
    else if ev ∉ shown then some (place ++ ": " ++ ev ++ " was not in the results you were given")
    else none

/-- `{known[ev] for ev in ids if ev in known}` -/
def toolsOf (ids : List String) (known : List (String × String)) : List String :=
  (ids.filterMap fun ev => known.lookup ev).dedup

/-- `', '.join(sorted(names))` -/
def joinSorted (sep : String) (names : List String) : String :=
  String.intercalate sep (names.insertionSort fun a b => a ≤ b)

def findingProblems (f : Finding) (place : String) (known : List (String × String)) (shown : List String) :
    List String :=
  let tools := toolsOf f.evidenceIds.1 known
  let live := tools.filter fun t => !KNOWLEDGE_TOOLS.contains t
  idProblems f.evidenceIds.1 known shown place ++
    (if f.kind ≠ .hypothesis ∧ f.evidenceIds.1 = [] then
      [place ++ ": a " ++ f.kind.name ++ " needs at least one evidence id (or call it a hypothesis)"] else []) ++
    (if f.kind ≠ .hypothesis ∧ tools ≠ [] ∧ live = [] then [place ++ ": a " ++ f.kind.name ++ " " ++ KNOWLEDGE_ONLY]
    else if live ≠ [] ∧ ¬ live.any (SIGNAL_TOOLS f.signal).contains then
      [place ++ ": signal is " ++ f.signal.name ++ " but it cites only " ++ joinSorted ", " tools ++
        " results; cite a " ++
        joinSorted "/" (SIGNAL_TOOLS f.signal) ++ " result or fix the signal"]
    else [])

/-- `f"{name}[{i}]"` -/
def placeOf (name : String) (i : ℕ) : String := name ++ "[" ++ toString i ++ "]"

/-- The items that pass, in order, and what is wrong with the others. -/
def keepGood {α : Type} (items : List α) (problems : ℕ → α → List String) : List α × List String :=
  ((items.zipIdx.filter fun x => (problems x.2 x.1).isEmpty).map Prod.fst,
    items.zipIdx.flatMap fun x => problems x.2 x.1)

theorem length_keepGood {α : Type} (items : List α) (problems : ℕ → α → List String) :
    (keepGood items problems).1.length ≤ items.length := by
  rw [keepGood, List.length_map]
  exact (List.length_filter_le ..).trans (by rw [List.length_zipIdx])

def checkReport (report : InvestigatorReport) (known : List (String × String)) (shown : List String) :
    Checked InvestigatorReport :=
  let kept := keepGood report.findings fun i f => findingProblems f (placeOf "findings" i) known shown
  ⟨{ report with findings := kept.1, bounded := (length_keepGood ..).trans report.bounded }, kept.2,
    report.findings.length - kept.1.length⟩

/-- The body of the loop in `_keep`. `live`: at least one cited result is not from the knowledge base. -/
def itemProblems (ids : List String) (name : String) (i : ℕ) (known : List (String × String)) (shown : List String)
    (live : Bool) : List String :=
  let tools := toolsOf ids known
  idProblems ids known shown (placeOf name i) ++
    if live ∧ tools ≠ [] ∧ tools.all KNOWLEDGE_TOOLS.contains then [placeOf name i ++ ": " ++ KNOWLEDGE_ONLY] else []

/-- `_keep` -/
def keep {α : Type} (items : List α) (ids : α → List String) (name : String) (known : List (String × String))
    (shown : List String) (live : Bool) : List α × List String :=
  keepGood items fun i item => itemProblems (ids item) name i known shown live

/-- `shown`: the evidence ids cited by the accepted findings. -/
def checkDiagnosis (d : Diagnosis) (known : List (String × String)) (shown : List String) : Checked Diagnosis :=
  let rootCauses := keep d.rootCauses (fun r => r.evidenceIds.1) "root_causes" known shown true
  let facts := keep d.facts (fun c => c.evidenceIds.1) "facts" known shown true
  let inferences := keep d.inferences (fun c => c.evidenceIds.1) "inferences" known shown true
  ⟨{ d with rootCauses := rootCauses.1, facts := facts.1, inferences := inferences.1,
            bounded := ⟨(length_keepGood ..).trans d.bounded.1, (length_keepGood ..).trans d.bounded.2.1,
              (length_keepGood ..).trans d.bounded.2.2.1, d.bounded.2.2.2⟩ },
    rootCauses.2 ++ facts.2 ++ inferences.2,
    (d.rootCauses.length - rootCauses.1.length) + (d.facts.length - facts.1.length) +
      (d.inferences.length - inferences.1.length)⟩

/-- `shown`: the planner's own results and the evidence that the diagnosis cites. -/
def checkPlan (plan : RemediationPlan) (known : List (String × String)) (shown : List String) :
    Checked RemediationPlan :=
  let actions := keep plan.actions Action.evidenceIds "actions" known shown false
  ⟨{ plan with actions := actions.1 }, actions.2, plan.actions.length - actions.1.length⟩

end Blackboard.Agents
