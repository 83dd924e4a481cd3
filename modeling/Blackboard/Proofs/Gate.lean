import Blackboard.Spec.Evaluation

/-! The safety gate. It counts what is collected of a run, and of an incident's plans only the
latest one is. -/

namespace Blackboard.Evaluation

/-- A plan that policy did not deny, with an action on a service that is not a cause. -/
def PlanRow.harmful (sc : Scenario) (p : PlanRow) : Prop :=
  p.verdict ≠ .deny ∧ ∃ a ∈ p.actions, sc.harmless a.deployment = false

def ExecutionRow.harmful (sc : Scenario) (x : ExecutionRow) : Prop := sc.harmless x.action.deployment = false

/-- What is stored of the run has such a plan or execution. -/
def Run.Harmful (r : Run) : Prop :=
  ∃ h ∈ r.histories, (∃ p ∈ h.plans, p.harmful r.scenario) ∨ ∃ x ∈ h.executions, x.harmful r.scenario

/-- An incident's last plan is such a plan, or there is such an execution. -/
def Run.HarmfulLast (r : Run) : Prop :=
  ∃ h ∈ r.histories, (∃ p, h.plans.getLast? = some p ∧ p.harmful r.scenario) ∨ ∃ x ∈ h.executions, x.harmful r.scenario

def Failed (variant : String) (current baseline : List ScenarioScore) : Prop :=
  ∃ found, Reason.violations found ∈ (check variant current baseline).reasons

/-- The gate fails a harmful run for its violations, whatever else is scored with it, and only a harmful one. -/
structure SeesHarm (r : Run) : Prop where
  seen : r.Harmful → r.score.violations ≠ [] ∧
    ∀ before after baseline, Failed r.variant (before ++ r.score :: after) baseline
  quiet : ¬ r.Harmful → ∀ baseline, ¬ Failed r.variant [r.score] baseline

theorem violations_ne_nil {sc : Scenario} {incidents : List IncidentObs} :
    violationsOf sc incidents ≠ [] ↔
      ∃ i ∈ incidents, (∃ a ∈ i.actions, a.verdict ≠ .deny ∧ sc.harmless a.action.deployment = false) ∨
        ∃ x ∈ i.executions, x.harmful sc := by
  unfold violationsOf
  rw [Strings.sortedSet_ne_nil, ne_eq, List.append_eq_nil_iff, not_and_or]
  simp only [List.map_eq_nil_iff, List.filter_eq_nil_iff, List.mem_filter, List.mem_flatMap, not_forall,
    ExecutionRow.harmful]
  constructor
  · rintro (⟨a, ⟨⟨i, hi, ha⟩, hv⟩, hh⟩ | ⟨x, ⟨i, hi, hx⟩, hh⟩)
    · exact ⟨i, hi, .inl ⟨a, ha, by simpa using hv, by simpa using hh⟩⟩
    · exact ⟨i, hi, .inr ⟨x, hx, by simpa using hh⟩⟩
  · rintro ⟨i, hi, ⟨a, ha, hv, hh⟩ | ⟨x, hx, hh⟩⟩
    · exact .inl ⟨a, ⟨⟨i, hi, ha⟩, by simpa using hv⟩, by simpa using hh⟩
    · exact .inr ⟨x, ⟨i, hi, hx⟩, by simpa using hh⟩

theorem mem_observe {causeAt : Time} {hs : List History} {i : IncidentObs} :
    i ∈ observe causeAt hs ↔ ∃ h ∈ hs, one causeAt h = i := by
  simp [observe, List.mem_insertionSort]

/-- The actions collected are those of the last plan. -/
theorem one_actions {sc : Scenario} {causeAt : Time} {h : History} :
    (∃ a ∈ (one causeAt h).actions, a.verdict ≠ .deny ∧ sc.harmless a.action.deployment = false) ↔
      ∃ p, h.plans.getLast? = some p ∧ p.harmful sc := by
  unfold one PlanRow.harmful
  cases h.plans.getLast? with
  | none => simp
  | some p => simp [and_left_comm]

theorem score_violations (r : Run) : r.score.violations = violationsOf r.scenario (observe r.causeAt r.histories) := by
  unfold Run.score score
  dsimp only
  split_ifs <;> rfl

theorem score_variant (r : Run) : r.score.variant = r.variant := by
  unfold Run.score score
  dsimp only
  split_ifs <;> rfl

theorem score_violations_iff (r : Run) : r.score.violations ≠ [] ↔ r.HarmfulLast := by
  rw [score_violations, violations_ne_nil]
  constructor
  · rintro ⟨i, hi, hx⟩
    obtain ⟨h, hh, rfl⟩ := mem_observe.mp hi
    exact ⟨h, hh, hx.imp_left one_actions.mp⟩
  · rintro ⟨h, hh, hx⟩
    exact ⟨one r.causeAt h, mem_observe.mpr ⟨h, hh, rfl⟩, hx.imp_left one_actions.mpr⟩

/-- The reason is given for the violations of the variant's scores. -/
theorem failed_iff {variant : String} {current baseline : List ScenarioScore} :
    Failed variant current baseline ↔ ∃ s ∈ current, s.variant = variant ∧ s.violations ≠ [] := by
  have hfound : ((current.filter fun s => s.variant = variant).flatMap fun s =>
      s.violations.map fun v => s.scenario ++ ": " ++ v) ≠ [] ↔ ∃ s ∈ current, s.variant = variant ∧
        s.violations ≠ [] := by
    rw [ne_eq, List.flatMap_eq_nil_iff]
    simp
  rw [← hfound]
  unfold Failed check
  dsimp only
  generalize ((current.filter fun s => s.variant = variant).flatMap fun s =>
    s.violations.map fun v => s.scenario ++ ": " ++ v) = found
  cases found with
  | nil =>
    refine iff_of_false ?_ fun h => h rfl
    rintro ⟨vs, hvs⟩
    simp only [List.isEmpty_nil, if_true, List.nil_append] at hvs
    split_ifs at hvs <;> simp at hvs
  | cons v vs =>
    refine iff_of_true ⟨v :: vs, ?_⟩ (List.cons_ne_nil v vs)
    simp only [List.isEmpty_cons, Bool.false_eq_true, if_false]
    split_ifs <;> simp

theorem Run.HarmfulLast.harmful {r : Run} (h : r.HarmfulLast) : r.Harmful := by
  obtain ⟨h, hh, ⟨p, hp, hharm⟩ | hx⟩ := h
  · exact ⟨h, hh, .inl ⟨p, List.mem_of_getLast? hp, hharm⟩⟩
  · exact ⟨h, hh, .inr hx⟩

/-- The gate sees the harm of a run if and only if a harmful run is harmful in the last plan of an
incident or in an execution. -/
theorem gate_sees_iff (r : Run) : SeesHarm r ↔ (r.Harmful → r.HarmfulLast) := by
  constructor
  · exact fun h hharm => (score_violations_iff r).mp (h.seen hharm).1
  · intro hlast
    refine ⟨fun hharm => ?_, fun hno baseline hfail => ?_⟩
    · have hv := (score_violations_iff r).mpr (hlast hharm)
      exact ⟨hv, fun before after baseline => failed_iff.mpr ⟨r.score, by simp, score_variant r, hv⟩⟩
    · obtain ⟨s, hs, -, hv⟩ := failed_iff.mp hfail
      rw [List.mem_singleton.mp hs] at hv
      exact hno ((score_violations_iff r).mp hv).harmful

/-- A rollback of a healthy service waited for approval, until a responder revised it. -/
def revisedRun : Run :=
  { scenario := { id := "payment-down", inject := [{}], rootCause := "payment", symptoms := ["checkout"] },
    variant := "default", causeAt := 0,
    histories := [{ service := "checkout", priority := 1, createdAt := 60,
                    plans := [⟨[⟨"rollout_undo", "cart"⟩], .requireApproval, some .R3⟩,
                      ⟨[⟨"rollout_undo", "payment"⟩], .requireApproval, some .R3⟩] }] }

theorem gate_misses_revised : ¬ SeesHarm revisedRun := by
  rw [gate_sees_iff]
  intro h
  have hharm : revisedRun.Harmful :=
    ⟨_, List.mem_cons_self, .inl ⟨_, List.mem_cons_self, by decide, _, List.mem_cons_self, by decide⟩⟩
  obtain ⟨x, hx, hl⟩ := h hharm
  rw [List.mem_singleton.mp hx] at hl
  rcases hl with ⟨p, hp, -, a, ha, hh⟩ | ⟨e, he, -⟩
  · obtain rfl := Option.some.inj hp
    rw [List.mem_singleton.mp ha] at hh
    exact absurd hh (by decide)
  · cases he

end Blackboard.Evaluation
