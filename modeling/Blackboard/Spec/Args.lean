import Blackboard.Lib.Jsonb

/-! The arguments of every tool, as pydantic has validated them, and their `model_dump(mode="json")`.
A value of these types keeps the bounds and the pattern of its fields. A datetime is the text that
is dumped of it. -/

namespace Blackboard.Tools

/-- `Field(ge=lo, le=hi)` -/
abbrev Within (lo hi : ℕ) := { n : ℕ // lo ≤ n ∧ n ≤ hi }

/-- `Field(min_length=lo, max_length=hi)` -/
abbrev Sized (lo hi : ℕ) := { s : String // lo ≤ s.length ∧ s.length ≤ hi }

/-- `[A-Za-z0-9_.-]` -/
def nameChar (c : Char) : Bool := c.isAlphanum || c = '_' || c = '.' || c = '-'

/-- `^[A-Za-z0-9_.-]{1,n}$` -/
abbrev ServiceName (n : ℕ) := { s : String // (1 ≤ s.length ∧ s.length ≤ n) ∧ ∀ c ∈ s.toList, nameChar c = true }

def labelEdge (c : Char) : Bool := c.isLower || c.isDigit

/-- `^[a-z0-9]([-a-z0-9]*[a-z0-9])?$` -/
def objectName (s : String) : Prop :=
  s.toList.head?.any labelEdge = true ∧ s.toList.getLast?.any labelEdge = true ∧
    ∀ c ∈ s.toList, labelEdge c = true ∨ c = '-'

abbrev ObjectName := { s : String // objectName s ∧ s.length ≤ 253 }

structure PromQueryArgs where
  query : Sized 1 2000
  at' : Option String := none

structure PromRangeArgs where
  query : Sized 1 2000
  minutes : Within 1 360 := ⟨30, by decide⟩
  stepS : Option (Within 5 3600) := none
  endAt : Option String := none

inductive Level
  | error | warn
deriving DecidableEq

def Level.name : Level → String
  | .error => "error"
  | .warn => "warn"

structure LogsSearchArgs where
  service : ServiceName 64
  /-- `max_length=200`, and no back quote. -/
  contains : Option { s : String // s.length ≤ 200 ∧ '\x60' ∉ s.toList } := none
  level : Option Level := none
  minutes : Within 1 360 := ⟨15, by decide⟩
  limit : Within 1 1000 := ⟨200, by decide⟩
  endAt : Option String := none

structure TracesSearchArgs where
  service : ServiceName 64
  operation : Option (Sized 0 200) := none
  errorsOnly : Bool := false
  minDurationMs : Option (Within 1 600000) := none
  minutes : Within 1 360 := ⟨15, by decide⟩
  limit : Within 1 50 := ⟨20, by decide⟩
  endAt : Option String := none

/-- `^[0-9a-fA-F]{16,32}$` -/
def hexChar (c : Char) : Bool := c.isDigit || 'a' ≤ c && c ≤ 'f' || 'A' ≤ c && c ≤ 'F'

structure TraceGetArgs where
  traceId : { s : String // (16 ≤ s.length ∧ s.length ≤ 32) ∧ ∀ c ∈ s.toList, hexChar c = true }

structure KbSearchArgs where
  query : Sized 3 300
  k : Within 1 5 := ⟨3, by decide⟩

structure EventsArgs where
  objectName : Option ObjectName := none
  warningsOnly : Bool := false
  minutes : Within 1 1440 := ⟨60, by decide⟩

structure DeploymentArgs where
  deployment : ObjectName

structure DeployDiffArgs where
  deployment : ObjectName
  fromRevision : Option { n : ℕ // 1 ≤ n } := none
  toRevision : Option { n : ℕ // 1 ≤ n } := none

structure FlagStateArgs where
  flag : Option (ServiceName 100) := none

inductive ToolArgs
  | promQuery (a : PromQueryArgs)
  | promRange (a : PromRangeArgs)
  | logsSearch (a : LogsSearchArgs)
  | tracesSearch (a : TracesSearchArgs)
  | traceGet (a : TraceGetArgs)
  | kbSearch (a : KbSearchArgs)
  | events (a : EventsArgs)
  | deployment (a : DeploymentArgs)
  | deployDiff (a : DeployDiffArgs)
  | flagState (a : FlagStateArgs)

def dumpText : Option String → Json
  | some s => .str s
  | none => .null

def dumpNumber : Option ℕ → Json
  | some n => .num n
  | none => .null

namespace ToolArgs

def members : ToolArgs → List (String × Json)
  | promQuery a => [("query", .str a.query), ("at", dumpText a.at')]
  | promRange a =>
    [("query", .str a.query), ("minutes", .num a.minutes), ("step_s", dumpNumber (a.stepS.map (·.1))),
      ("end", dumpText a.endAt)]
  | logsSearch a =>
    [("service", .str a.service), ("contains", dumpText (a.contains.map (·.1))),
      ("level", dumpText (a.level.map Level.name)), ("minutes", .num a.minutes), ("limit", .num a.limit),
      ("end", dumpText a.endAt)]
  | tracesSearch a =>
    [("service", .str a.service), ("operation", dumpText (a.operation.map (·.1))), ("errors_only", .bool a.errorsOnly),
      ("min_duration_ms", dumpNumber (a.minDurationMs.map (·.1))), ("minutes", .num a.minutes), ("limit", .num a.limit),
      ("end", dumpText a.endAt)]
  | traceGet a => [("trace_id", .str a.traceId)]
  | kbSearch a => [("query", .str a.query), ("k", .num a.k)]
  | events a =>
    [("object_name", dumpText (a.objectName.map (·.1))), ("warnings_only", .bool a.warningsOnly),
      ("minutes", .num a.minutes)]
  | deployment a => [("deployment", .str a.deployment)]
  | deployDiff a =>
    [("deployment", .str a.deployment), ("from_revision", dumpNumber (a.fromRevision.map (·.1))),
      ("to_revision", dumpNumber (a.toRevision.map (·.1)))]
  | flagState a => [("flag", dumpText (a.flag.map (·.1)))]

def dump (a : ToolArgs) : Json := .obj a.members

end ToolArgs

/-- No argument of a tool is a nested value or a float. -/
def Scalar : Json → Prop
  | .float _ => False
  | .arr _ => False
  | .obj _ => False
  | _ => True

theorem scalar_dumpText (s : Option String) : Scalar (dumpText s) := by
  cases s <;> trivial

theorem scalar_dumpNumber (n : Option ℕ) : Scalar (dumpNumber n) := by
  cases n <;> trivial

theorem Scalar.distinct {v : Json} (h : Scalar v) : v.Distinct := by
  cases v with
  | arr _ => cases h
  | obj _ => cases h
  | _ => trivial

theorem Scalar.keepsNumbers {v : Json} (h : Scalar v) : v.keepsNumbers = true := by
  cases v with
  | float _ => cases h
  | arr _ => cases h
  | obj _ => cases h
  | _ => rfl

namespace ToolArgs

theorem scalar_members (a : ToolArgs) : ∀ m ∈ a.members, Scalar m.2 := by
  cases a <;> simp only [members, List.forall_mem_cons, scalar_dumpText, scalar_dumpNumber, List.not_mem_nil,
    false_implies, implies_true, and_true, true_and] <;> simp [Scalar]

theorem distinct_dump (a : ToolArgs) : a.dump.Distinct := by
  have hmembers : ∀ ms : List (String × Json), (∀ m ∈ ms, Scalar m.2) → Json.DistinctMembers ms := by
    intro ms h
    induction ms with
    | nil => trivial
    | cons m ms ih => exact ⟨(h m List.mem_cons_self).distinct, ih fun x hx => h x (List.mem_cons_of_mem _ hx)⟩
  refine ⟨?_, hmembers _ a.scalar_members⟩
  cases a <;> simp [members]

theorem keepsNumbers_dump (a : ToolArgs) : a.dump.keepsNumbers = true := by
  rw [dump, Json.keepsNumbers, Json.keepsNumbersMembers_eq, List.all_eq_true]
  exact fun m hm => (a.scalar_members m hm).keepsNumbers

end ToolArgs

end Blackboard.Tools
