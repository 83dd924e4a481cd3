import Blackboard.Proofs.Handlers
import Blackboard.Proofs.Ingest

/-! The calls of the API. Each commits at most one transaction, and one that is answered with an
HTTP error has committed nothing. -/

namespace Blackboard

open Threads

variable {n id : ℕ} {s : Core} {settings : Settings}

/-- Only a fault can follow the commit of the call. -/
def Refused (n : ℕ) (e : Err) (c : Core) : Prop := (∀ x : Fault, e ≠ x.err) → n ∉ c.hist.wrote

theorem Refused.of_rely (hs : n ∉ s.hist.wrote) (e : Err) (t : Core) (ht : rely (.request n) s t) (_ : Inv t) :
    Refused n e t := fun _ hn => hs (ht.2 hn)

theorem Refused.conflict {e : Err} {c : Core} (h : Refused n e c) : Refused n (Api.conflict e) c := by
  intro hx
  refine h fun x he => hx x ?_
  rw [he]
  cases x <;> rfl

/-- The terms of a call: what it answers is free, an error is not a way to hide a write. -/
def Answers (n : ℕ) {α : Type} (x : Handler α) (s : Core) : Prop :=
  Does (contract (.request n)) (fun _ _ => True) (Refused n) x s

theorem Answers.pure {α : Type} {a : α} : Answers n (Pure.pure a) s := Does.pure fun _ _ _ => trivial

theorem Answers.throw {α : Type} {e : Err} (hs : n ∉ s.hist.wrote) : Answers n (MonadExcept.throw e : Handler α) s :=
  Does.throw (Refused.of_rely hs e)

/-- What follows is not run. -/
theorem Answers.raise {α β : Type} {e : Err} {g : α → Handler β} (hs : n ∉ s.hist.wrote) :
    Answers n ((MonadExcept.throw e : Handler α) >>= g) s :=
  Does.bind (Does.throw (Refused.of_rely hs e))

theorem Answers.select {α β : Type} {f : Db → α} {g : α → Handler β} (hs : n ∉ s.hist.wrote)
    (h : ∀ t, rely (.request n) s t → Inv t → n ∉ t.hist.wrote → Answers n (g (f t.db)) t) :
    Answers n (select f >>= g) s :=
  select_bind (Refused.of_rely hs) fun t ht hi => h t ht hi fun hn => hs (ht.2 hn)

theorem Answers.clock {β : Type} {g : Time → Handler β} (hs : n ∉ s.hist.wrote)
    (h : ∀ now t, rely (.request n) s t → Inv t → n ∉ t.hist.wrote → Answers n (g now) t) :
    Answers n (clock >>= g) s :=
  clock_bind (Refused.of_rely hs) fun now t ht hi => h now t ht hi fun hn => hs (ht.2 hn)

/-- The one transaction of a call. -/
theorem Answers.commit {α : Type} {body : Input → Tx α} {note : Input → α → Core → Hist} (hs : n ∉ s.hist.wrote)
    (h : ∀ i a d t, rely (.request n) s t → Inv t → (body i).run t.db = .ok (a, d) →
      Guar (.request n) t { t.write d with hist := note i a t }) : Answers n (commit body note) s :=
  commit_does (Refused.of_rely hs) (fun x _ hx => absurd rfl (hx x)) fun i a d t ht hi hrun =>
    ⟨h i a d t ht hi hrun, fun _ _ _ _ => trivial⟩

/-- What went wrong inside is answered as an error. -/
theorem Answers.attempt {α β : Type} {x : Handler α} {g : Except Err α → Handler β} (h : Answers n x s)
    (hok : ∀ a t, Answers n (g (.ok a)) t) (herr : ∀ e t, Refused n e t → Answers n (g (.error e)) t) :
    Answers n (attempt x >>= g) s := by
  refine Does.bind (Does.mono (fun r t hr => ?_) (fun _ _ h => h) (Does.attempt (F := Refused n) h))
  cases r with
  | ok a => exact hok a t
  | error e => exact herr e t hr

theorem Answers.rethrow {α : Type} {e e' : Err} (h : Refused n e s)
    (he : (∀ x : Fault, e' ≠ x.err) → ∀ x : Fault, e ≠ x.err) :
    Answers n (MonadExcept.throw e' : Handler α) s :=
  Does.throw fun _ ht _ hx hn => h (he hx) (ht.2 hn)

theorem incident_answers {tenant : String} {β : Type} {g : Incident → Handler β} (hs : n ∉ s.hist.wrote)
    (h : ∀ i t, rely (.request n) s t → Inv t → n ∉ t.hist.wrote → t.db.incidents.get? id = some i →
      Answers n (g i) t) :
    Answers n (Api.incident id tenant >>= g) s := by
  refine Does.bind ?_
  unfold Api.incident
  refine select_bind (Refused.of_rely hs) fun t ht hi => ?_
  have hst : n ∉ t.hist.wrote := fun hn => hs (ht.2 hn)
  cases hinc : t.db.incidents.get? id with
  | none => exact Does.throw (Refused.of_rely hst _)
  | some i =>
    dsimp only
    split_ifs with htenant
    · exact Does.pure fun u hu _ => Does.later (h i t ht hi hst hinc) hu
    · exact Does.throw (Refused.of_rely hst _)

theorem Noted.of_request {c : Core} {h : Hist} (hw : h.wrote = n :: c.hist.wrote) (hd : c.hist.decided ⊆ h.decided)
    (hs : h.sent = c.hist.sent) (hr : h.ready = c.hist.ready) (ho : h.owed = c.hist.owed)
    (hm : h.manual = c.hist.manual) : Noted (.request n) c h where
  sent := hs
  ready := hr
  owed := ho
  manual := hm
  decided := hd
  kept := by rw [hw]; exact List.subset_cons_self _ _
  wrote m hmem := by
    rw [hw] at hmem
    exact (List.mem_cons.mp hmem).elim (fun he => Or.inr (by rw [he])) Or.inl
  request m hk := by
    cases hk
    rw [hw]
    exact List.mem_cons_self

/-- A decision is on the plan that was read, still the last one at the commit, in time. -/
theorem decide_answers {tenant : String} {b : Flow.Ballot} (hs : n ∉ s.hist.wrote) (hb : b.approver ≠ .policy) :
    Answers n (Api.decide n tenant id b settings) s := by
  unfold Api.decide
  refine incident_answers hs fun row t ht hi hst hrow => .attempt ?_ (fun a u => .pure) fun e u he => ?_
  · unfold Flow.decide
    by_cases hstate : row.state ≠ .awaitingApproval
    · rw [if_pos hstate]
      exact .raise hst
    rw [if_neg hstate]
    refine .select hst fun u hu hiu hsu => ?_
    have hat : AtLeast u.db id row.version := .later ⟨row, hrow, le_rfl⟩ hu.1.db
    cases hcur : u.db.currentPlan id with
    | none => exact .throw hsu
    | some x =>
      obtain ⟨p, plan⟩ := x
      obtain ⟨hlat, hid⟩ := currentPlan_latest hcur
      dsimp only
      by_cases hv : plan.verdict ≠ .requireApproval
      · rw [if_pos hv]
        exact .raise hsu
      rw [if_neg hv]
      by_cases hhash : b.hashSeen ≠ plan.planHash
      · rw [if_pos hhash]
        exact .raise hsu
      rw [if_neg hhash]
      refine .clock hsu fun now w hw hiw hsw => ?_
      by_cases hexp : plan.expiresAt.any (· ≤ now) = true
      · rw [if_pos hexp]
        exact .raise hsw
      rw [if_neg hexp]
      by_cases hself : b.decision = .approve ∧ b.approver = plan.proposedBy
      · rw [if_pos hself]
        exact .raise hsw
      rw [if_neg hself]
      refine .commit hsw fun i a d x hx hix hrun => ?_
      have hlater := hw.1.db.trans hx.1.db
      obtain ⟨j, k, l, hdec, hver⟩ := decided_ok hix.jobs (hlater.plans.get hlat.1) hid hb hrun
      have hsame := (hver ▸ hat : AtLeast u.db id j.version).currentPlan hlater hdec.moved.before
      obtain ⟨hlat', -⟩ := currentPlan_latest (hsame.trans hcur)
      have hreq : plan.verdict = .requireApproval := not_not.mp hv
      obtain ⟨y, hy⟩ := Option.isSome_iff_exists.mp (hix.plans.expires p plan hlat'.1 hreq)
      refine Guar.decided hix
        (.of_request rfl (List.subset_cons_self _ _) rfl rfl rfl rfl) rfl hdec hlat' hid hreq rfl ?_
        ⟨now, _, y, List.mem_cons_self, hy, ?_⟩
      · exact fun happ hself' => hself ⟨happ, hself'⟩
      · rw [hy] at hexp
        simpa using hexp
  · cases e with
    | approvalRefused => exact .rethrow he fun _ x hx => by cases x <;> cases hx
    | _ => exact .rethrow he.conflict fun h => h

theorem revise_answers {sha256 : String → String} {tenant : String} {who : Actor} {plan : RemediationPlan}
    (hs : n ∉ s.hist.wrote) : Answers n (Api.revise sha256 n tenant id who plan settings) s := by
  unfold Api.revise
  refine incident_answers hs fun row t ht hi hst hrow => ?_
  by_cases hstate : row.state ≠ .awaitingApproval
  · rw [if_pos hstate]
    exact .raise hst
  rw [if_neg hstate]
  refine .attempt ?_ (fun a u => .pure) fun e u he => .rethrow he.conflict fun h => h
  refine submit_does (Refused.of_rely hst) ⟨row, hrow, le_rfl⟩ fun body u hu hiu hbody => ?_
  have hsu : n ∉ u.hist.wrote := fun hn => hst (hu.2 hn)
  refine Answers.commit hsu fun i a d v hv hiv hrun => ?_
  obtain ⟨j, j', r, w, l, hsub, hj, hid, hseq, hw, hexp⟩ := hbody i a d v hv hiv hrun
  exact Guar.submitted hiv (.of_request rfl (List.Subset.refl _) rfl rfl rfl rfl) rfl hsub
    (Or.inr (hj.trans (not_not.mp hstate))) hid hseq hw hexp

theorem webhook_answers {subject : String} {alerts : List Opening} (hs : n ∉ s.hist.wrote) :
    Answers n (Api.webhook n subject alerts settings) s := by
  unfold Api.webhook
  refine Does.bind (Does.mono (fun a v _ => Answers.pure) (fun _ _ h => h)
    (Answers.commit hs fun i a d t ht hi hrun => ?_))
  obtain ⟨l, hl⟩ := ingest_ok hi.jobs hrun
  exact Guar.ingested hi (.of_request rfl (List.Subset.refl _) rfl rfl rfl rfl) rfl hl

theorem handle_answers {sha256 : String → String} {r : Request} (hs : n ∉ s.hist.wrote) :
    Answers n (Api.handle sha256 n r) s := by
  cases r with
  | decide => exact decide_answers hs (by simp)
  | revise => exact revise_answers hs
  | webhook => exact webhook_answers hs

end Blackboard
