import Blackboard.Lib.JsonText
import Blackboard.Proofs.Isolation
import Blackboard.Spec.PlanSchema

/-! A plan is read back out of the database as it was accepted, and its hash says which plan it is. So an approval is of
the plan that is executed. -/

namespace Blackboard.Plans

open Schema

/-! Plans within the bounds of their fields. -/

structure Fits (a : Action) : Prop where
  deployment : K8S_NAME a.deployment = true
  evidence : 1 ≤ a.evidenceIds.length ∧ a.evidenceIds.length ≤ 6
  reason : a.reason.length ≤ 400
  revision : ∀ n, a.change = .rolloutUndo (some n) → 1 ≤ n
  replicas : ∀ n, a.change = .scaleDeployment n → 1 ≤ n ∧ n ≤ 10

structure Valid (p : RemediationPlan) : Prop where
  summary : p.summary.length ≤ 600
  actions : p.actions.length ≤ 2 ∧ ∀ a ∈ p.actions, Fits a
  alternatives : p.alternatives.length ≤ 4 ∧ ∀ a ∈ p.alternatives, a.whyNot.length ≤ 300
  reason : ∀ r ∈ p.noActionReason, r.length ≤ 400

/-! What is accepted fits. -/

variable {ofText : String → Option ℤ}

theorem actionJson_get? (a : Action) : (actionJson a).get? "deployment" = some (.str a.deployment) ∧
    (actionJson a).get? "evidence_ids" = some (.arr (a.evidenceIds.map .str)) ∧
      (actionJson a).get? "reason" = some (.str a.reason) ∧ (actionJson a).get? "action" = some (.str a.kind.name) := by
  obtain ⟨deployment, ids, reason, change⟩ := a
  cases change <;> simp [actionJson, Json.get?, Json.member?]

theorem actionJson_alike (a b : Action) (h : (actionJson a).Alike (actionJson b)) : a = b := by
  have hdeployment := h.get? "deployment"
  have hids := h.get? "evidence_ids"
  have hreason := h.get? "reason"
  have hkind := h.get? "action"
  have hrevision := h.get? "to_revision"
  have hreplicas := h.get? "replicas"
  obtain ⟨ha1, ha2, ha3, ha4⟩ := actionJson_get? a
  obtain ⟨hb1, hb2, hb3, hb4⟩ := actionJson_get? b
  rw [ha1, hb1] at hdeployment
  rw [ha2, hb2] at hids
  rw [ha3, hb3] at hreason
  rw [ha4, hb4] at hkind
  obtain ⟨deployment, ids, reason, change⟩ := a
  obtain ⟨deployment', ids', reason', change'⟩ := b
  obtain rfl := Json.Alike.str _ _ (Option.some.inj hdeployment)
  obtain rfl := Json.Alike.str _ _ (Option.some.inj hreason)
  obtain rfl := Json.Alike.of_map Json.Alike.str (Json.arr.inj (Option.some.inj hids))
  have hchange : change = change' := by
    rcases change with (_ | r) | _ | n <;> rcases change' with (_ | r') | _ | n' <;>
      simp [actionJson, Json.get?, Json.member?, Json.canon, Action.kind,
        ActionKind.name] at hkind hrevision hreplicas ⊢ <;>
        assumption
  rw [hchange]

theorem alternativeJson_alike (a b : Alternative) (h : (alternativeJson a).Alike (alternativeJson b)) : a = b := by
  have hkind := h.get? "action"
  have hwhy := h.get? "why_not"
  obtain ⟨action, whyNot⟩ := a
  obtain ⟨action', whyNot'⟩ := b
  obtain rfl := Json.Alike.str _ _ (Option.some.inj hwhy)
  have haction : action = action' := by
    rcases action with _ | _ | _ | _ <;> rcases action' with _ | _ | _ | _ <;>
      simp [alternativeJson, Json.get?, Json.member?, Json.canon, ActionKind.name] at hkind ⊢
  rw [haction]

/-- The document of a plan says which plan it is, in any order of its members. -/
theorem planJson_alike (p q : RemediationPlan) (h : (planJson p).Alike (planJson q)) : p = q := by
  have hsummary := h.get? "summary"
  have hactions := h.get? "actions"
  have halternatives := h.get? "alternatives"
  have hreason := h.get? "no_action_reason"
  obtain ⟨summary, actions, alternatives, reason⟩ := p
  obtain ⟨summary', actions', alternatives', reason'⟩ := q
  obtain rfl := Json.Alike.str _ _ (Option.some.inj hsummary)
  obtain rfl := Json.Alike.of_map actionJson_alike (Json.arr.inj (Option.some.inj hactions))
  obtain rfl := Json.Alike.of_map alternativeJson_alike (Json.arr.inj (Option.some.inj halternatives))
  have hsame : reason = reason' := by
    cases reason <;> cases reason' <;> simp [planJson, Json.get?, Json.member?, Json.canon] at hreason ⊢
    exact hreason
  rw [hsame]

variable {sha256 : String → String} {incident seq incident' seq' : ℕ} {p q : RemediationPlan}

theorem planHash_inj (hsha : Function.Injective sha256) :
    planHash sha256 incident seq p = planHash sha256 incident' seq' q ↔ incident = incident' ∧ seq = seq' ∧ p = q := by
  refine ⟨fun h => ?_, fun ⟨hi, hs, hpq⟩ => by rw [hi, hs, hpq]⟩
  have halike := Json.dumps_inj.mp (hsha h)
  simp only [Json.Alike, Json.canon, Json.canonAll, Json.arr.injEq, List.cons.injEq, Json.str.injEq, Json.num.injEq,
    Nat.cast_inj, and_true] at halike
  obtain ⟨hi, hs, hplan⟩ := halike
  have hdigits : Nat.toDigits 10 incident = Nat.toDigits 10 incident' := by
    rw [← Nat.toList_repr, ← Nat.toList_repr]
    exact congrArg String.toList hi
  refine ⟨?_, hs, planJson_alike p q hplan⟩
  rw [← Nat.ofDigitChars_ten_toDigits (n := incident), hdigits, Nat.ofDigitChars_ten_toDigits]

end Blackboard.Plans

namespace Blackboard

/-! What an approval is of. -/

section Runs

variable {sha256 : String → String} {steps : List Step} {c : World} {jwt : String → Except String Security.Claims}

/-- A PATCH that needed an approval was approved in a request for the incident of its plan, under the hash of that
plan, and the hash stands for one plan of one incident: the plan that the action is taken from. -/
theorem patch_as_approved (hsha : Function.Injective sha256) (h : Reaches sha256 steps c)
    (hr : ∀ n r, .env (.request n r) ∈ steps → Admitted jwt r) {s : Sent} (hs : s ∈ c.shared.hist.sent)
    (hv : s.checked.plan.verdict = .requireApproval ∨ s.checked.decision.verdict = .requireApproval) :
    s.checked.plan.plan.actions[s.index]? = some s.action ∧ ∃ n t subject comment settings,
      .env (.request n (.decide t s.checked.plan.incidentId subject .approve s.checked.plan.planHash comment
          settings)) ∈ steps ∧
        ∀ incident seq plan, Plans.planHash sha256 incident seq plan = s.checked.plan.planHash ↔
          incident = s.checked.plan.incidentId ∧ seq = s.checked.plan.seq ∧ plan = s.checked.plan.plan := by
  have hgood := tenancy_good (A := authority jwt sha256 steps) (fun _ _ _ _ _ _ hwho _ hhash => ⟨hhash, .inl hwho⟩) h
    fun n r hn => (hr n r hn).permitted hn
  have hsent := h.inv.exec.sent s hs
  obtain ⟨-, id, hok⟩ := hsent.checked
  obtain ⟨x, hx, hdecision, hhash, hid, -⟩ := approval_held hgood.inv hok hv
  obtain ⟨-, n, subject, settings, -, hn⟩ := hx
  obtain ⟨-, hproposed, -⟩ := hgood.inv.now.plans _ _ hok.row
  rw [hdecision, hid, hhash] at hn
  refine ⟨hsent.action, n, x.tenantId, subject, x.comment, settings, hn, fun incident seq plan => ?_⟩
  rw [hproposed, Plans.planHash_inj hsha]

theorem patch_as_approved_restart : ∃ c, Reaches Sample.named (Sample.approved Sample.restartHash) c ∧
    c.shared.hist.sent.length = 1 ∧ ∀ s ∈ c.shared.hist.sent, ∃ n t subject comment settings,
      .env (.request n (.decide t s.checked.plan.incidentId subject .approve s.checked.plan.planHash comment
          settings)) ∈ Sample.approved Sample.restartHash ∧
        ∀ incident seq plan, Plans.planHash Sample.named incident seq plan = s.checked.plan.planHash ↔
          incident = s.checked.plan.incidentId ∧ seq = s.checked.plan.seq ∧ plan = s.checked.plan.plan := by
  have hreach : Reaches Sample.named (Sample.approved Sample.restartHash)
      ((Runs.run _ _ (Sample.approved Sample.restartHash)).get Sample.named_runs) := (Option.some_get _).symm
  refine ⟨_, hreach, by decide +kernel, fun s hs => ?_⟩
  have hall : ∀ s ∈ ((Runs.run (system Sample.named).step (system Sample.named).start
      (Sample.approved Sample.restartHash)).get Sample.named_runs).shared.hist.sent,
      s.checked.plan.verdict = .requireApproval := by
    decide +kernel
  exact (patch_as_approved (Digest.Proper.injective ⟨by decide, by decide⟩) hreach
    (Sample.approved_admitted (by decide)) hs (.inl (hall s hs))).2

end Runs

end Blackboard
