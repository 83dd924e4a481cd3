import Blackboard.Lib.Reveals
import Blackboard.Spec.Console
import Mathlib.Data.List.TakeWhile

/-! What a replayed case shows of its future. Two bundles with the same past give the same pages
exactly if they also agree on what the views take from the final rows without a look at the clock. -/

namespace Blackboard.Console

section At

variable {τ : Type} [LE τ] [DecidableLE τ] (ms : String → Option τ) (now : τ)

/-! The past: a row is known from its first timestamp on, and what is written in it later from the
timestamp of that on. -/

/-- The incident's row as it is first written, with what changes later blank. -/
def Incident.opening (i : Incident) : Incident :=
  { i with priority := "", state := .null, version := .null, alertCount := 0, updatedAt := "", closedAt := none }

/-- The run with its steps so far. Its usage is their sum. -/
def AgentRun.soFar (run : AgentRun) : AgentRun := { run with llmCalls := stepsAt ms now run.llmCalls, usage := {} }

/-- What is known of a run when it starts, and the rest of it once it has ended. -/
def AgentRun.known (run : AgentRun) : AgentRun × Option AgentRun :=
  ({ run.soFar ms now with status := "", steps := 0, error := none, finishedAt := none },
    if pastNonNull ms now run.finishedAt then some (run.soFar ms now) else none)

def Execution.known (x : Execution) : Execution × Option Execution :=
  ({ x with status := "", error := none, finishedAt := none, after := .null },
    if pastTruthy ms now x.finishedAt then some x else none)

def Plan.known (p : Plan) : Plan × List (Execution × Option Execution) :=
  ({ p with approval := p.approval.filter fun a => past ms now a.decidedAt, executions := [] },
    (p.executions.filter fun x => past ms now x.startedAt).map (Execution.known ms now))

namespace CaseBundle

variable (b : CaseBundle)

def opened : Bool := past ms now b.incident.createdAt

def startedRuns : List AgentRun := b.agentRuns.filter fun run => past ms now run.startedAt

def proposedPlans : List Plan := b.planRows.filter fun p => past ms now p.createdAt

end CaseBundle

/-- Two bundles of one case that agree on everything that is timestamped up to `now`. -/
structure SamePast (b b' : CaseBundle) : Prop where
  case : b.incidentId = b'.incidentId
  opened : b.opened ms now = b'.opened ms now
  opening : b.opened ms now = true →
    b.incident.opening = b'.incident.opening ∧ b.diagnosis.incidentId = b'.diagnosis.incidentId
  /-- Where neither row was updated after `now`. -/
  row : past ms now b.incident.updatedAt = true → past ms now b'.incident.updatedAt = true → b.incident = b'.incident
  audit : b.auditAt ms now = b'.auditAt ms now
  agents : (b.startedRuns ms now).map (AgentRun.known ms now) = (b'.startedRuns ms now).map (AgentRun.known ms now)
  plans : (b.proposedPlans ms now).map (Plan.known ms now) = (b'.proposedPlans ms now).map (Plan.known ms now)
  finished : b.finished ms now = b'.finished ms now
  findings : b.findingsAt ms now = b'.findingsAt ms now
  summaries : ∀ agent ∈ b.finished ms now, b.diagnosis.agents.lookup agent = b'.diagnosis.agents.lookup agent
  /-- Written in one transaction with the move to DIAGNOSED. -/
  diagnosis : b.diagnosed ms now = true → b.diagnosis.diagnosis = b'.diagnosis.diagnosis

/-! What the views show of the final rows as it is. -/

/-- The steps and the error of a run that has not ended. -/
def AgentRun.undated (run : AgentRun) : Option (ℕ × Option String) :=
  if pastNonNull ms now run.finishedAt then none else some (run.steps, run.error)

/-- The error of an execution that has not ended. -/
def Execution.undated (x : Execution) : Option (Option String) :=
  if pastTruthy ms now x.finishedAt then none else some x.error

def Plan.undated (p : Plan) : List (Option (Option String)) :=
  (p.executions.filter fun x => past ms now x.startedAt).map (Execution.undated ms now)

@[ext]
structure Undated where
  /-- Of a case that is yet to open. -/
  opening : Option (Incident × String)
  priority : String
  alertCount : ℕ
  runs : List (Option (ℕ × Option String))
  executions : List (List (Option (Option String)))
  summaries : List (String × RunSummary)
  errors : ℕ
  promptTokens : ℕ
  outputTokens : ℕ
  modelTimeMs : ℕ

def CaseBundle.undated (b : CaseBundle) : Undated where
  opening := if b.opened ms now then none else some (b.incident.opening, b.diagnosis.incidentId)
  priority := b.incident.priority
  alertCount := b.incident.alertCount
  runs := (b.startedRuns ms now).map (AgentRun.undated ms now)
  executions := (b.proposedPlans ms now).map (Plan.undated ms now)
  summaries := b.diagnosis.agents
  errors := b.diagnosis.usage.errors
  promptTokens := b.diagnosis.usage.promptTokens
  outputTokens := b.diagnosis.usage.outputTokens
  modelTimeMs := b.diagnosis.usage.modelTimeMs

variable {ms now}

/-! Each row. -/

/-- A row whose end is known of both or of neither. -/
theorem isSome_ite {α : Type} {p q : Bool} {a b : α}
    (h : (if p then some a else none) = if q then some b else none) : p = q := by
  have := congrArg Option.isSome h
  cases p <;> cases q <;> first | rfl | cases this

theorem AgentRun.shownAt_reveals :
    Reveals (fun r s : AgentRun => r.known ms now = s.known ms now) (AgentRun.shownAt ms now)
      (AgentRun.undated ms now) := by
  intro r s h
  obtain ⟨hb, he⟩ := Prod.mk.inj h
  have hd := isSome_ite he
  simp only [AgentRun.soFar, AgentRun.mk.injEq] at hb he
  simp only [AgentRun.shownAt, AgentRun.undated, AgentRun.mk.injEq, hb, hd]
  by_cases hs : pastNonNull ms now s.finishedAt = true
  · simp only [hd, hs, if_true, Option.some.injEq, AgentRun.mk.injEq] at he
    simp only [hs, if_true, he, and_self]
  · simp only [hs, if_false, true_and, and_true, Bool.false_eq_true, Option.some.injEq, Prod.mk.injEq]

theorem Execution.shownAt_reveals :
    Reveals (fun x y : Execution => x.known ms now = y.known ms now) (Execution.shownAt ms now)
      (Execution.undated ms now) := by
  intro x y h
  obtain ⟨hb, he⟩ := Prod.mk.inj h
  have hd := isSome_ite he
  simp only [Execution.mk.injEq] at hb
  simp only [Execution.shownAt, Execution.undated, hd]
  by_cases hy : pastTruthy ms now y.finishedAt = true
  · rw [if_pos (hd.trans hy), if_pos hy, Option.some.injEq] at he
    simp only [hy, if_true, he]
  · simp only [hy, if_false, Bool.false_eq_true, Execution.mk.injEq, hb, true_and, and_true, Option.some.injEq]

theorem Plan.shownAt_reveals :
    Reveals (fun p q : Plan => p.known ms now = q.known ms now) (Plan.shownAt ms now) (Plan.undated ms now) := by
  intro p q h
  obtain ⟨hp, hx⟩ := Prod.mk.inj h
  refine Iff.trans ?_ (Execution.shownAt_reveals.rows_of_map hx)
  simp only [Plan.mk.injEq] at hp
  simp only [Plan.shownAt, Plan.mk.injEq]
  exact ⟨fun hs => hs.2.2.2.2.2.2.2.2.2.2.2, fun he => by simp only [hp, he, and_self]⟩

/-- The row of an incident whose audit rows so far are `rows`. -/
def Incident.after (i : Incident) (rows : List AuditRow) : Incident :=
  let last := (rows.filter AuditRow.isTransition).getLast?
  let state := nullish (last.bind AuditRow.to) (.str "RECEIVED")
  { i with
    state
    version := nullish (last.bind fun e => Json.member? e.payload "version") (.num 1)
    updatedAt := (last.map AuditRow.ts).getD i.createdAt
    closedAt := if state.asStr?.any FINAL.contains then last.map AuditRow.ts else none }

theorem Incident.after_inj {i j : Incident} (rows : List AuditRow) :
    i.after rows = j.after rows ↔ i.opening = j.opening ∧ i.priority = j.priority ∧ i.alertCount = j.alertCount := by
  simp only [Incident.after, Incident.opening, Incident.mk.injEq]
  refine ⟨fun h => ?_, fun h => ?_⟩ <;> simp_all

/-! The pages. -/

section Pages

variable {b b' : CaseBundle}

theorem incidentAt_eq : b.incidentAt ms now = b.incident.after (b.auditAt ms now) := by
  simp only [CaseBundle.incidentAt, Incident.after, CaseBundle.auditAt, List.filter_filter]

theorem diagnosed_eq : b.diagnosed ms now =
    (b.auditAt ms now).any fun e => e.isTransition && e.to.bind Json.asStr? = some "DIAGNOSED" := by
  rw [CaseBundle.auditAt, List.any_filter]
  refine congrArg _ (funext fun e => ?_)
  exact Bool.and_comm _ _

theorem incidentAt_reveals : Reveals (SamePast ms now) (fun b => b.incidentAt ms now) fun b =>
    (b.incident.opening, b.incident.priority, b.incident.alertCount) := by
  intro b b' h
  simp only [incidentAt_eq, h.audit, Prod.mk.injEq]
  exact Incident.after_inj _

theorem auditAt_reveals : Reveals (SamePast ms now) (fun b => b.auditAt ms now) (fun _ => ()) :=
  Reveals.silent_iff.mpr fun _ _ h => h.audit

theorem agentsAt_reveals : Reveals (SamePast ms now) (fun b => b.agentsAt ms now) fun b => (b.undated ms now).runs :=
  (AgentRun.shownAt_reveals.rows_of_map.part fun b : CaseBundle => b.startedRuns ms now).mono fun _ _ h => h.agents

theorem plansAt_reveals :
    Reveals (SamePast ms now) (fun b => b.plansAt ms now) fun b => (b.undated ms now).executions :=
  (Plan.shownAt_reveals.rows_of_map.part fun b : CaseBundle => b.proposedPlans ms now).mono fun _ _ h => h.plans

/-- The model's usage is of the steps so far. -/
theorem llmCalls_agentsAt : (b.agentsAt ms now).flatMap AgentRun.llmCalls =
    ((b.startedRuns ms now).map (AgentRun.known ms now)).flatMap fun k => k.1.llmCalls := by
  rw [CaseBundle.agentsAt, List.flatMap_map, List.flatMap_map]
  rfl

theorem diagnosisAt_reveals : Reveals (SamePast ms now) (fun b => b.diagnosisAt ms now) fun b =>
    (b.diagnosis.incidentId, b.diagnosis.agents, b.diagnosis.usage.errors, b.diagnosis.usage.promptTokens,
      b.diagnosis.usage.outputTokens, b.diagnosis.usage.modelTimeMs) := by
  intro b b' h
  have hs : (b.incidentAt ms now).state = (b'.incidentAt ms now).state := by
    rw [incidentAt_eq, incidentAt_eq, h.audit]
    rfl
  have hd : b.diagnosed ms now = b'.diagnosed ms now := by rw [diagnosed_eq, diagnosed_eq, h.audit]
  have hx : (if b.diagnosed ms now = true then b.diagnosis.diagnosis else .null) =
      if b'.diagnosed ms now = true then b'.diagnosis.diagnosis else .null := by
    rw [← hd]
    split_ifs with ht
    · exact h.diagnosis ht
    · rfl
  simp only [CaseBundle.diagnosisAt, DiagnosisOut.mk.injEq, Totals.mk.injEq, Prod.mk.injEq, hs, hx, h.findings,
    llmCalls_agentsAt, h.agents]
  tauto

/-- Together the pages leak just what they show with no look at the clock. -/
theorem views_reveal : Reveals (SamePast ms now)
    (fun b => (b.incidentAt ms now, b.auditAt ms now, b.agentsAt ms now, b.plansAt ms now, b.diagnosisAt ms now))
    (CaseBundle.undated ms now) := by
  intro b b' h
  have hv := (@incidentAt_reveals τ _ _ ms now).pair (auditAt_reveals.pair (agentsAt_reveals.pair
    (plansAt_reveals.pair diagnosisAt_reveals)))
  refine (hv h).trans ?_
  -- the opening of a case that is open is known
  have ho : (b.undated ms now).opening = (b'.undated ms now).opening ↔
      b.incident.opening = b'.incident.opening ∧ b.diagnosis.incidentId = b'.diagnosis.incidentId := by
    simp only [CaseBundle.undated, ← h.opened]
    by_cases ho : b.opened ms now = true
    · simp only [if_pos ho, true_iff]
      exact h.opening ho
    · simp only [if_neg ho, Option.some.injEq, Prod.mk.injEq]
  rw [Undated.ext_iff, ho]
  simp only [Prod.mk.injEq, CaseBundle.undated]
  tauto

/-! The paths of the pages. -/

theorem cleaned_eq {s : String} (h : '?' ∉ s.toList) : cleaned s = s := by
  have ht : s.toList.takeWhile (fun c => decide (c ≠ '?')) = s.toList :=
    List.takeWhile_eq_self_iff.mpr fun c hc => decide_eq_true fun he : c = '?' => h (he ▸ hc)
  rw [cleaned, ht, String.ofList_toList]

theorem base_eq (b : CaseBundle) : b.base = "/api/v1/incidents/" ++ b.incidentId := rfl

theorem noQuery_base (b : CaseBundle) {s : String} (h : '?' ∉ s.toList) : '?' ∉ (b.base ++ s).toList := by
  have hr : '?' ∉ "/api/v1/incidents/".toList := by decide +kernel
  rw [base_eq, String.toList_append, String.toList_append, List.mem_append, List.mem_append]
  rintro ((hm | hm) | hm)
  · exact hr hm
  · exact b.noQuery hm
  · exact h hm

theorem base_ne_list (b : CaseBundle) (s : String) : b.base ++ s ≠ "/api/v1/incidents" := by
  intro he
  have hl := congrArg String.length he
  have h1 : "/api/v1/incidents/".length = 18 := by decide +kernel
  have h2 : "/api/v1/incidents".length = 17 := by decide +kernel
  rw [base_eq, String.length_append, String.length_append, h1, h2] at hl
  omega

theorem base_ne (b : CaseBundle) {s t : String} (h : s ≠ t) : b.base ++ s ≠ b.base ++ t :=
  fun he => h ((String.append_right_inj b.base).mp he)

theorem base_ne_part (b : CaseBundle) {s : String} (h : "" ≠ s) : b.base ++ s ≠ b.base := by
  have hb := base_ne b h
  rw [String.append_empty] at hb
  exact hb.symm

/-- The paths that the incident page reads. -/
def CaseBundle.pages (b : CaseBundle) : List String :=
  ["/api/v1/incidents", b.base, b.base ++ "/audit", b.base ++ "/agents", b.base ++ "/plans", b.base ++ "/diagnosis"]

theorem cleaned_page {page : String} (h : page ∈ b.pages) : cleaned page = page := by
  have hb := noQuery_base b (s := "") (by decide)
  rw [String.append_empty] at hb
  simp only [CaseBundle.pages, List.mem_cons, List.not_mem_nil, or_false] at h
  rcases h with rfl | rfl | rfl | rfl | rfl | rfl
  · exact cleaned_eq (by decide +kernel)
  · exact cleaned_eq hb
  · exact cleaned_eq (noQuery_base b (by decide))
  · exact cleaned_eq (noQuery_base b (by decide))
  · exact cleaned_eq (noQuery_base b (by decide))
  · exact cleaned_eq (noQuery_base b (by decide))

section Path

variable {path : String}

theorem at_list (h : cleaned path = "/api/v1/incidents") :
    b.at ms path now = some (.incidents (if b.opened ms now then [b.incidentAt ms now] else [])) := by
  unfold CaseBundle.at
  rw [h, if_pos rfl]
  rfl

theorem at_incident (h : cleaned path = b.base) : b.at ms path now = some (.incident (b.incidentAt ms now)) := by
  have hl := base_ne_list b ""
  rw [String.append_empty] at hl
  unfold CaseBundle.at
  rw [h, if_neg hl, if_pos rfl]

theorem at_audit (h : cleaned path = b.base ++ "/audit") : b.at ms path now = some (.audit (b.auditAt ms now)) := by
  unfold CaseBundle.at
  rw [h, if_neg (base_ne_list b _), if_neg (base_ne_part b (by decide)), if_pos rfl]

theorem at_agents (h : cleaned path = b.base ++ "/agents") : b.at ms path now = some (.agents (b.agentsAt ms now)) := by
  unfold CaseBundle.at
  rw [h, if_neg (base_ne_list b _), if_neg (base_ne_part b (by decide)), if_neg (base_ne b (by decide)), if_pos rfl]

theorem at_plans (h : cleaned path = b.base ++ "/plans") : b.at ms path now = some (.plans (b.plansAt ms now)) := by
  unfold CaseBundle.at
  rw [h, if_neg (base_ne_list b _), if_neg (base_ne_part b (by decide)), if_neg (base_ne b (by decide)),
    if_neg (base_ne b (by decide)), if_pos rfl]

theorem at_diagnosis (h : cleaned path = b.base ++ "/diagnosis") :
    b.at ms path now = some (.diagnosis (b.diagnosisAt ms now)) := by
  unfold CaseBundle.at
  rw [h, if_neg (base_ne_list b _), if_neg (base_ne_part b (by decide)), if_neg (base_ne b (by decide)),
    if_neg (base_ne b (by decide)), if_neg (base_ne b (by decide)), if_pos rfl]

end Path

/-- The pages are the same exactly if the views behind them are: the list shows the incident or nothing. -/
theorem at_eq_iff (h : SamePast ms now b b') :
    (∀ path, cleaned path ∈ b.pages → b.at ms path now = b'.at ms path now) ↔
      (b.incidentAt ms now, b.auditAt ms now, b.agentsAt ms now, b.plansAt ms now, b.diagnosisAt ms now) =
        (b'.incidentAt ms now, b'.auditAt ms now, b'.agentsAt ms now, b'.plansAt ms now, b'.diagnosisAt ms now) := by
  have hb (s : String) : b.base ++ s = b'.base ++ s := by rw [base_eq, base_eq, h.case]
  have hb0 : b.base = b'.base := by rw [base_eq, base_eq, h.case]
  simp only [Prod.mk.injEq]
  constructor
  · intro he
    have page {p : String} (hp : p ∈ b.pages) : cleaned p = p ∧ b.at ms p now = b'.at ms p now :=
      ⟨cleaned_page hp, he p ((cleaned_page hp).symm ▸ hp)⟩
    obtain ⟨ci, hi⟩ := page (p := b.base) (by simp [CaseBundle.pages])
    obtain ⟨cu, hu⟩ := page (p := b.base ++ "/audit") (by simp [CaseBundle.pages])
    obtain ⟨ca, ha⟩ := page (p := b.base ++ "/agents") (by simp [CaseBundle.pages])
    obtain ⟨cp, hp⟩ := page (p := b.base ++ "/plans") (by simp [CaseBundle.pages])
    obtain ⟨cd, hd⟩ := page (p := b.base ++ "/diagnosis") (by simp [CaseBundle.pages])
    rw [at_incident ci, at_incident (ci.trans hb0)] at hi
    rw [at_audit cu, at_audit (cu.trans (hb _))] at hu
    rw [at_agents ca, at_agents (ca.trans (hb _))] at ha
    rw [at_plans cp, at_plans (cp.trans (hb _))] at hp
    rw [at_diagnosis cd, at_diagnosis (cd.trans (hb _))] at hd
    exact ⟨Response.incident.inj (Option.some.inj hi), Response.audit.inj (Option.some.inj hu),
      Response.agents.inj (Option.some.inj ha), Response.plans.inj (Option.some.inj hp),
      Response.diagnosis.inj (Option.some.inj hd)⟩
  · rintro ⟨hi, hu, ha, hp, hd⟩ path hpath
    simp only [CaseBundle.pages, List.mem_cons, List.not_mem_nil, or_false] at hpath
    rcases hpath with c | c | c | c | c | c
    · rw [at_list c, at_list c, hi, h.opened]
    · rw [at_incident c, at_incident (c.trans hb0), hi]
    · rw [at_audit c, at_audit (c.trans (hb _)), hu]
    · rw [at_agents c, at_agents (c.trans (hb _)), ha]
    · rw [at_plans c, at_plans (c.trans (hb _)), hp]
    · rw [at_diagnosis c, at_diagnosis (c.trans (hb _)), hd]

/-- Of two bundles with the same past, the pages are the same exactly if what they show with no look at
the clock is. -/
theorem pages_same_iff (h : SamePast ms now b b') :
    (∀ path, cleaned path ∈ b.pages → b.at ms path now = b'.at ms path now) ↔ b.undated ms now = b'.undated ms now :=
  (at_eq_iff h).trans (views_reveal h)

end Pages

end At

/-- A case exported while its coordinator runs. -/
def openCase : CaseBundle where
  incidentId := "698e7c19-22fa-4ace-8a45-ef8ffbad0168"
  incident :=
    { id := "698e7c19-22fa-4ace-8a45-ef8ffbad0168", title := "ErrorBudgetBurn", service := "checkout",
      environment := "lab", priority := "P1", state := .str "RECEIVED", version := .num 1, alertCount := 1,
      labels := [], createdAt := "2026-10-27T08:06:18.017397Z", updatedAt := "2026-10-27T08:06:18.017397Z",
      closedAt := none }
  audit := some
    [{ seq := 73, ts := "2026-10-27T08:06:18.020929Z", actor := "alertmanager", event := "incident.created",
       payload := [("priority", .str "P1")],
       hash := "b769214e2e7dbcb0325c831edd392bd3b28b42aa28e7ad152e433d69e5971bf7" }]
  agents := some
    [{ agent := "coordinator", status := "running", model := "claude-haiku-5-5", promptVersion := "coordinator@1.2",
       steps := 0, error := none, startedAt := "2026-10-27T08:06:18.226160Z", finishedAt := none, usage := {},
       llmCalls := [] }]
  plans := none
  diagnosis :=
    { incidentId := "698e7c19-22fa-4ace-8a45-ef8ffbad0168", state := .str "RECEIVED", diagnosis := .null,
      findings := [], agents := [],
      usage := { calls := 0, errors := 0, promptTokens := 0, outputTokens := 0, tokens := 0, costUsd := none,
                 modelTimeMs := 0 } }
  others := []
  noQuery := by decide +kernel

/-- The same case after one more alert of its fingerprint. -/
def mergedCase : CaseBundle :=
  { openCase with
    incident := { openCase.incident with alertCount := 2, updatedAt := "2026-10-27T08:07:20.500000Z" } }

/-- The same case after it moved on. -/
def triagedCase : CaseBundle :=
  { openCase with
    incident := { openCase.incident with state := .str "TRIAGED", version := .num 2,
                                         updatedAt := "2026-10-27T08:07:20.500000Z" }
    audit := openCase.audit.map (· ++
      [{ seq := 74, ts := "2026-10-27T08:07:20.500000Z", actor := "worker", event := "incident.transition",
         payload := [("to", .str "TRIAGED"), ("version", .num 2)], hash := "" }]) }

/-- 2026-10-27T08:06:30Z, in milliseconds. -/
def earlyOn : ℤ := 1793088390000

theorem past_later : past dateParse earlyOn "2026-10-27T08:07:20.500000Z" = false := by decide +kernel

theorem samePast_merged : SamePast dateParse earlyOn openCase mergedCase where
  case := rfl
  opened := rfl
  opening _ := ⟨rfl, rfl⟩
  row _ h := absurd h (Bool.eq_false_iff.mp past_later)
  audit := rfl
  agents := rfl
  plans := rfl
  finished := rfl
  findings := rfl
  summaries _ _ := rfl
  diagnosis _ := rfl

theorem samePast_triaged : SamePast dateParse earlyOn openCase triagedCase where
  case := rfl
  opened := rfl
  opening _ := ⟨rfl, rfl⟩
  row _ h := absurd h (Bool.eq_false_iff.mp past_later)
  audit := by
    simp only [CaseBundle.auditAt, CaseBundle.auditRows, triagedCase, openCase, Option.map_some, Option.getD_some,
      List.filter_append, List.filter_cons, past_later, List.filter_nil, Bool.false_eq_true, if_false, List.append_nil]
  agents := rfl
  plans := rfl
  finished := rfl
  findings := rfl
  summaries _ _ := rfl
  diagnosis _ := rfl

theorem pages_same_triaged :
    (∀ path, cleaned path ∈ openCase.pages →
      openCase.at dateParse path earlyOn = triagedCase.at dateParse path earlyOn) ↔
    openCase.undated dateParse earlyOn = triagedCase.undated dateParse earlyOn :=
  pages_same_iff samePast_triaged

/-- The alert that is merged later counts on the page of before. -/
theorem pages_show_merged : ¬ ∀ (now : ℤ) (b b' : CaseBundle), SamePast dateParse now b b' →
    ∀ path, cleaned path ∈ b.pages → b.at dateParse path now = b'.at dateParse path now := by
  intro h
  have hs := h earlyOn openCase mergedCase samePast_merged
  have hu := (views_reveal samePast_merged).mp ((at_eq_iff samePast_merged).mp hs)
  have hc : openCase.incident.alertCount = mergedCase.incident.alertCount := congrArg Undated.alertCount hu
  cases hc

end Blackboard.Console
