import Blackboard.Lib.Digest
import Blackboard.Proofs.Effects
import Blackboard.Proofs.Serving

/-! Tenants are isolated from each other: what the API answers one of them depends on nothing that the programs of the
others do. Nobody decides on a plan, and nobody proposes one, without the role for it in the incident's tenant. -/

namespace Blackboard

open Threads

/-- Whom a program serves: the tenant of its job, or that of the request `n`, which `W` says. -/
def WorksFor (W : ℕ → String → Prop) (d : Db) : Caller → String → Prop
  | .job a, u => ∃ r, d.jobs.get? a.job = some r ∧ r.tenantId = u
  | .request n, u => W n u

variable {A : Authority} {W : ℕ → String → Prop}

theorem Steady.worksFor {d e : Db} {k : Caller} {u : String} (h : Steady d e) (hk : WorksFor W d k u) :
    WorksFor W e k u := by
  cases k with
  | job a =>
    obtain ⟨r, hr, rfl⟩ := hk
    obtain ⟨s, hs, hsame⟩ := h.jobs a.job r hr
    exact ⟨s, hs, hsame.tenantId⟩
  | request n => exact hk

/-! The layer. -/

theorem happen_neutral {sha256 : String → String} {c c' : Core} {e : Happening} {started : Option (Caller × Program)}
    (h : happen sha256 c e = some (c', started)) : Neutral A c.db c'.db := by
  cases e with
  | claim p now maxPriority locked =>
    simp only [happen, Option.some.injEq, Prod.mk.injEq] at h
    obtain ⟨rfl, -⟩ := h
    refine .rewritten ?_
    rcases hclaim : Jobs.claim now p.workerId p.settings.queueLeaseTtlS maxPriority
      (some p.kinds) locked c.db.jobs with ⟨jobs, _ | job⟩
    · obtain rfl := Jobs.claim_none hclaim
      exact ⟨fun _ r => r, (Table.update_eq_self fun _ _ _ => rfl).symm, fun _ r => .refl r⟩
    · obtain ⟨r, -, -, -, rfl, -, -⟩ := Jobs.claim_some hclaim
      exact .modify (SameJob.leased now _ _) _ _
  | heartbeat job now ttl =>
    simp only [happen, Option.some.injEq, Prod.mk.injEq] at h
    obtain ⟨rfl, -⟩ := h
    refine .rewritten ?_
    unfold Jobs.heartbeat
    split_ifs
    · exact .modify (f := fun r => { r with leaseUntil := some (now + ttl), updatedAt := now })
        (fun r => ⟨rfl, rfl, rfl, rfl, rfl, rfl, rfl, rfl, rfl⟩) _ _
    · exact ⟨fun _ r => r, (Table.update_eq_self fun _ _ _ => rfl).symm, fun _ r => .refl r⟩
  | reap workerId now locked =>
    simp only [happen, Option.some.injEq, Prod.mk.injEq] at h
    obtain ⟨rfl, -⟩ := h
    refine (Neutral.rewritten (j := (Jobs.reap now locked c.db.jobs).1) ⟨_, rfl, fun i r => ?_⟩).trans
      (.log fun x hx => ?_)
    · split_ifs
      · exact .reaped now r
      · exact .refl r
    · obtain ⟨j, -, rfl⟩ := List.mem_map.mp hx
      exact ⟨rfl, fun id hid => by cases hid⟩
  | request | cluster =>
    simp only [happen, Option.some.injEq, Prod.mk.injEq] at h
    obtain ⟨rfl, -⟩ := h
    exact .refl c.db
  | evidence | diagnosis =>
    simp only [happen, Option.some.injEq, Prod.mk.injEq] at h
    obtain ⟨rfl, -⟩ := h
    exact ⟨⟨fun _ _ hb => hb, .refl .refl _, .refl (fun _ => rfl) _⟩,
      fun ho => ⟨ho.jobs, ho.plans, ho.approvals, ho.executions, ho.audit⟩, fun t => ⟨rfl, rfl, rfl, rfl, rfl⟩⟩

theorem happen_logged {sha256 : String → String} {c c' : Core} {e : Happening} {started : Option (Caller × Program)}
    (h : happen sha256 c e = some (c', started)) : Logged c c' := by
  cases e <;> simp only [happen, Option.some.injEq, Prod.mk.injEq] at h <;> obtain ⟨rfl, -⟩ := h
  case request | cluster => exact .inl ⟨rfl, rfl⟩
  all_goals exact .inr rfl

/-- The rows belong in every content that the database has had, and did not change hands since. -/
structure Held (A : Authority) (c : Core) : Prop where
  now : Owned A c.db
  past : ∀ d ∈ c.log, Owned A d ∧ Steady d c.db

theorem Held.step {c c' : Core} (h : Held A c) (hs : Steady c.db c'.db) (ho : Owned A c'.db) (hl : Logged c c') :
    Held A c' := by
  refine ⟨ho, fun d hd => ?_⟩
  rcases hl with ⟨-, hlog⟩ | hlog
  · rw [hlog] at hd
    exact ⟨(h.past d hd).1, .trans d _ _ (h.past d hd).2 hs⟩
  · rw [hlog, Core.dbs, List.mem_append, List.mem_singleton] at hd
    rcases hd with hd | rfl
    · exact ⟨(h.past d hd).1, .trans d _ _ (h.past d hd).2 hs⟩
    · exact ⟨h.now, hs⟩

theorem Held.of_mem {c : Core} {d : Db} (h : Held A c) (hd : d ∈ c.dbs) : Owned A d ∧ Steady d c.db := by
  rcases List.mem_append.mp hd with hd | hd
  · exact h.past d hd
  · obtain rfl := List.mem_singleton.mp hd
    exact ⟨h.now, .refl _⟩

/-- The request is one of a tenant, and may do what it asks for. -/
def Permitted (A : Authority) (sha256 : String → String) (W : ℕ → String → Prop) (n : ℕ) (r : Request) : Prop :=
  ∃ u, W n u ∧ r.Of u ∧ A.Grants sha256 u r

/-- The planner may propose what it likes. -/
def Authority.Plans (A : Authority) (sha256 : String → String) : Prop :=
  ∀ u id plan, A.MayPropose sha256 u id .planner plan

def tenancy (sha256 : String → String) (A : Authority) (W : ℕ → String → Prop) (ha : A.Plans sha256) :
    Layer (protocol sha256) where
  allowed e := ∀ n r, e = .request n r → Permitted A sha256 W n r
  inv c := Held A c
  rely c c' := Steady c.db c'.db
  guar k c c' := ∃ u, WorksFor W c.db k u ∧ Serves A u c.db c'.db ∧ Logged c c'
  refl c := .refl c.db
  trans _ _ _ := .trans _ _ _
  init := by
    refine ⟨⟨fun n r id h => ?_, fun n p h => ?_, fun n a h => ?_, fun n x h => ?_, fun x h => ?_⟩, fun d h => ?_⟩ <;>
      simp [system] at h
  keeps k c c' _ ho _ hg := by
    obtain ⟨u, -, hs, hl⟩ := hg
    exact ⟨ho.step hs.steady (hs.owned ho.now) hl, hs.steady⟩
  env_keeps e c c' started _ _ ho he := by
    have hn := happen_neutral (A := A) he
    exact ⟨ho.step hn.steady (hn.owned ho.now) (happen_logged he), hn.steady⟩
  starts e c c' k p hok he := by
    have hrun : ∀ {u : String}, WorksFor W c'.db k u → (∀ s : Core, Steady c'.db s.db → Owned A s.db →
        Meets (tenancyContract A u k) (fun _ _ => True) p s) →
        Meets ⟨fun s => Inv s ∧ Held A s, fun s t => rely k s t ∧ Steady s.db t.db,
          fun s t => ∃ u, WorksFor W s.db k u ∧ Serves A u s.db t.db ∧ Logged s t, fun s => ⟨rely_refl k s, .refl s.db⟩,
          fun a b c h h' => ⟨rely_trans k _ _ _ h.1 h'.1, .trans _ _ _ h.2 h'.2⟩⟩ (fun _ _ => True) p c' := by
      intro u hu hp
      refine Meets.of_later fun s hs hi => ?_
      exact Meets.strengthen (C := tenancyContract A u k) (K := fun s => WorksFor W s.db k u)
        ⟨fun s t h => h.2.worksFor, fun s t h => h.1.steady.worksFor⟩ (fun _ h => ⟨h.1, h.2.now⟩) (fun _ _ h => h)
        (fun s t _ hk hg => ⟨u, hk, hg⟩) (hp s hs.2 hi.2.now) (hs.2.worksFor hu)
    cases e with
    | claim q now maxPriority locked =>
      simp only [system, happen, Option.some.injEq, Prod.mk.injEq, Option.map_eq_some_iff] at he
      obtain ⟨rfl, job, hjob, rfl, rfl⟩ := he
      obtain ⟨r, hr, -, -, hj, hrow, -⟩ := Jobs.claim_some (Prod.ext rfl hjob)
      have hget : (Jobs.claim now q.workerId q.settings.queueLeaseTtlS maxPriority
        (some q.kinds) locked c.db.jobs).1.get? job.id =
          some (Jobs.leased now q.workerId q.settings.queueLeaseTtlS r) := by
        refine (congrArg (Table.get? · job.id) hj).trans ?_
        rw [Table.get?_modify_self, hr]
        rfl
      have htenant : job.tenantId = r.tenantId := by rw [hrow]; rfl
      have hincident : job.incidentId = r.incidentId := by rw [hrow]; rfl
      refine hrun (u := job.tenantId) ⟨_, hget, htenant.symm⟩ fun s hs ho => attempt_tends ha fun id hid => ?_
      obtain ⟨x, hx, hsame⟩ := hs.jobs job.id _ hget
      rw [htenant, show r.tenantId = x.tenantId from hsame.tenantId.symm]
      exact ho.jobs job.id x id hx (hsame.incidentId.trans (hincident.symm.trans hid))
    | request n r =>
      simp only [system, happen, Option.some.injEq, Prod.mk.injEq] at he
      obtain ⟨-, rfl, rfl⟩ := he
      obtain ⟨u, hu, hof, hr⟩ := hok n r rfl
      exact hrun (u := u) hu fun s _ _ =>
        Meets.mono (fun _ _ _ => trivial) (handle_tends (k := .request n) hof hr s trivial)
    | heartbeat | reap | cluster | evidence | diagnosis =>
      simp only [system, happen, Option.some.injEq, Prod.mk.injEq, reduceCtorEq, and_false] at he

theorem tenancy_good {sha256 : String → String} {steps : List Step} {c : World} (ha : A.Plans sha256)
    (h : Reaches sha256 steps c) (hr : ∀ n r, .env (.request n r) ∈ steps → Permitted A sha256 W n r) :
    (tenancy sha256 A W ha).Good c := by
  refine Layer.good_of_run h fun ch hch => ?_
  cases ch with
  | env e => exact fun n r he => hr n r (he ▸ hch)
  | act | kill => trivial

/-! Reads. -/

section Reads

variable {d e : Db} {t : String}

theorem Alike.incidentOf (h : Alike t d e) (id : ℕ) : Api.incidentOf d t id = Api.incidentOf e t id := by
  unfold Api.incidentOf
  rw [Table.get?_filter_eq h.incidents id]

theorem incidentOf_ok {id : ℕ} {i : Incident} (h : Api.incidentOf d t id = .ok i) : Belongs d id t := by
  unfold Api.incidentOf at h
  split at h
  · rename_i j hj
    obtain ⟨hget, ht⟩ := Option.filter_eq_some_iff.mp hj
    exact ⟨j, hget, of_decide_eq_true ht⟩
  · cases h

/-- The plans of an incident are its tenant's. -/
theorem Owned.plans_select (h : Owned A d) {id : ℕ} (hb : Belongs d id t) :
    (d.plans.select fun _ p => p.incidentId = id) =
      (d.plans.select fun _ p => p.tenantId = t).filter fun x => x.2.incidentId = id := by
  rw [Table.select_filter d.plans (fun _ p => decide (p.tenantId = t)) fun _ p => decide (p.incidentId = id)]
  refine Table.select_congr fun n p hp => ?_
  by_cases hid : p.incidentId = id
  · subst hid
    simp [(h.plans n p hp).1.unique hb]
  · simp [hid]

theorem filter_owned {α : Type} {rows : List α} {f : α → ℕ} {g : α → String} {planId : ℕ}
    (h : ∀ a ∈ rows, f a = planId → g a = t) :
    (rows.filter fun a => f a = planId) = (rows.filter fun a => g a = t).filter fun a => f a = planId := by
  rw [List.filter_filter]
  refine List.filter_congr fun a ha => ?_
  by_cases hplan : f a = planId
  · simp [hplan, h a ha hplan]
  · simp [hplan]

/-- So are the decision on one, and its executions. -/
theorem Owned.approval_eq (h : Owned A d) {id planId : ℕ} {p : PlanRow} (hb : Belongs d id t)
    (hp : d.plans.get? planId = some p) (hid : p.incidentId = id) :
    d.approval planId = ((d.approvals.rows.filter fun a => a.tenantId = t).filter fun a => a.planId =
      planId).head? := by
  unfold Db.approval
  rw [← List.head?_filter, filter_owned (g := Approval.tenantId) fun a ha hplan => ?_]
  obtain ⟨n, hn⟩ := Table.mem_rows.mp ha
  obtain ⟨hab, -, q, hq, hqi⟩ := h.approvals n a hn
  obtain rfl := Option.some.inj (hp.symm.trans (hplan ▸ hq))
  exact hab.unique (hqi ▸ hid ▸ hb)

theorem Owned.executions_eq (h : Owned A d) {id planId : ℕ} {p : PlanRow} (hb : Belongs d id t)
    (hp : d.plans.get? planId = some p) (hid : p.incidentId = id) :
    (d.executions.rows.filter fun e => e.planId = planId) =
      (d.executions.rows.filter fun e => e.tenantId = t).filter fun e => e.planId = planId := by
  refine filter_owned fun e he hplan => ?_
  obtain ⟨n, hn⟩ := Table.mem_rows.mp he
  obtain ⟨heb, q, hq, hqi⟩ := h.executions n e hn
  obtain rfl := Option.some.inj (hp.symm.trans (hplan ▸ hq))
  exact heb.unique (hqi ▸ hid ▸ hb)

theorem Alike.listPlans (h : Alike t d e) (hd : Owned A d) (he : Owned A e) {id : ℕ} (hbd : Belongs d id t)
    (hbe : Belongs e id t) :
    Api.listPlans d id = Api.listPlans e id := by
  have hplans : (d.plans.select fun _ p => p.incidentId = id) = e.plans.select fun _ p => p.incidentId = id := by
    rw [hd.plans_select hbd, he.plans_select hbe, h.plans]
  unfold Api.listPlans
  rw [hplans]
  refine List.map_congr_left fun x hx => ?_
  obtain ⟨n, p⟩ := x
  have hmem := (List.mem_insertionSort _).mp hx
  obtain ⟨hpe, hid⟩ := Table.mem_select.mp hmem
  obtain ⟨hpd, -⟩ := Table.mem_select.mp (hplans ▸ hmem)
  have hid : p.incidentId = id := of_decide_eq_true hid
  have happroval : Api.approvalOut d n = Api.approvalOut e n := by
    unfold Api.approvalOut
    rw [hd.approval_eq hbd hpd hid, he.approval_eq hbe hpe hid, Table.rows_filter d.approvals,
      Table.rows_filter e.approvals, h.approvals]
  have hexecutions : Api.executionsOut d n = Api.executionsOut e n := by
    unfold Api.executionsOut
    rw [hd.executions_eq hbd hpd hid, he.executions_eq hbe hpe hid, Table.rows_filter d.executions,
      Table.rows_filter e.executions, h.executions]
  rw [happroval, hexecutions]

theorem Alike.incidentAudit (h : Alike t d e) (id : ℕ) : Api.incidentAudit d t id = Api.incidentAudit e t id := by
  have hfilter : ∀ d : Db, (d.audit.zipIdx.filter fun x => x.1.subject = .incident id ∧ x.1.tenantId = some t) =
      (d.audit.zipIdx.filter fun x => x.1.tenantId = some t).filter fun x => x.1.subject = .incident id := fun d => by
    rw [List.filter_filter]
    refine List.filter_congr fun x _ => ?_
    simp
  unfold Api.incidentAudit
  rw [hfilter, hfilter, h.audit]

/-- An answer is made of the tenant's rows. -/
theorem Alike.read (h : Alike t d e) (hd : Owned A d) (he : Owned A e) (r : Api.Read) :
    Api.read d t r = Api.read e t r := by
  cases r with
  | listIncidents limit => simp only [Api.read, Api.listIncidents, h.incidents]
  | getIncident id => simp only [Api.read, h.incidentOf]
  | listPlans id =>
    simp only [Api.read, h.incidentOf]
    rcases hi : Api.incidentOf e t id with x | i
    · rfl
    · have hbe := incidentOf_ok hi
      have hbd := incidentOf_ok ((h.incidentOf id).trans hi)
      simp only [bind, Except.bind, h.listPlans hd he hbd hbe]
  | incidentAudit id => simp only [Api.read, h.incidentOf, h.incidentAudit]

end Reads

/-! Runs. -/

section Runs

variable {sha256 : String → String} {steps more : List Step} {c c' : World} {t : String}

/-- Whose a request of the run is. -/
def RequestOf (steps : List Step) (n : ℕ) (u : String) : Prop := ∃ r, .env (.request n r) ∈ steps ∧ r.Of u

theorem step_spares {ch : Step} {ha : A.Plans sha256} (h : (tenancy sha256 A W ha).Good c)
    (hs : (system sha256).step c ch = some c') :
    Steady c.shared.db c'.shared.db ∧
      ((∀ k i, ch = .act k i → ¬WorksFor W c'.shared.db k t) → Alike t c.shared.db c'.shared.db) := by
  rcases step_cases h.base hs with ⟨e, started, -, he⟩ | ⟨k, i, rfl, -⟩ | ⟨k, -, he⟩
  · have hn := happen_neutral (A := A) he
    exact ⟨hn.steady, fun _ => hn.alike t⟩
  · obtain ⟨u, hu, hserves, -⟩ := h.guar hs
    refine ⟨hserves.steady, fun hother => hserves.others t fun htu => ?_⟩
    exact hother k i rfl (htu ▸ hserves.steady.worksFor hu)
  · rw [he]
    exact ⟨.refl _, fun _ => .refl _ _⟩

theorem run_spares {ha : A.Plans sha256} (h : (tenancy sha256 A W ha).Good c)
    (hr : ∀ n r, .env (.request n r) ∈ more → Permitted A sha256 W n r)
    (hs : Runs.run (system sha256).step c more = some c') :
    (tenancy sha256 A W ha).Good c' ∧ Steady c.shared.db c'.shared.db ∧
      ((∀ k i, .act k i ∈ more → ¬WorksFor W c'.shared.db k t) → Alike t c.shared.db c'.shared.db) := by
  induction more generalizing c with
  | nil =>
    obtain rfl := Option.some.inj hs
    exact ⟨h, .refl _, fun _ => .refl _ _⟩
  | cons ch more ih =>
    obtain ⟨m, hm, hs⟩ := (Runs.run_cons_eq_some _).mp hs
    have hallows : (tenancy sha256 A W ha).Allows ch := by
      cases ch with
      | env e => exact fun n r he => hr n r (he ▸ List.mem_cons_self)
      | act | kill => trivial
    obtain ⟨hsteady, halike⟩ := step_spares (t := t) h hm
    obtain ⟨hgood, hsteady', halike'⟩ := ih (h.step hallows hm) (fun n r hn => hr n r (List.mem_cons_of_mem _ hn)) hs
    refine ⟨hgood, .trans _ _ _ hsteady hsteady', fun hother => ?_⟩
    refine (halike fun k i hk hw => ?_).trans (halike' fun k i hk => hother k i (List.mem_cons_of_mem _ hk))
    exact hother k i (hk ▸ List.mem_cons_self) (hsteady'.worksFor hw)

/-- What the API answers a tenant stays as it is while the programs of other tenants go on, whatever they do, and
whatever happens around them. -/
theorem tenants_isolated (h : Reaches sha256 steps c) (hs : Runs.run (system sha256).step c more = some c')
    (hone : ∀ n r, .env (.request n r) ∈ steps ++ more → ∃ u, r.Of u)
    (hother : ∀ k i, .act k i ∈ more → ¬WorksFor (RequestOf (steps ++ more)) c'.shared.db k t) (r : Api.Read) :
    Api.read c'.shared.db t r = Api.read c.shared.db t r := by
  have hr : ∀ n r, .env (.request n r) ∈ steps ++ more →
      Permitted ⟨fun _ => True, fun _ => True⟩ sha256 (RequestOf (steps ++ more)) n r := fun n r hn => by
    obtain ⟨u, hu⟩ := hone n r hn
    refine ⟨u, ⟨r, hn, hu⟩, hu, ?_⟩
    cases r with
    | decide => exact fun _ _ _ _ _ _ _ => trivial
    | revise => exact fun _ _ _ _ _ _ => trivial
    | webhook => trivial
  have hgood := tenancy_good (fun _ _ _ _ _ _ _ _ _ => trivial) h fun n r hn => hr n r (List.mem_append_left _ hn)
  obtain ⟨hgood', -, halike⟩ := run_spares (t := t) hgood (fun n r hn => hr n r (List.mem_append_right _ hn)) hs
  exact ((halike hother).read hgood.inv.now hgood'.inv.now r).symm

def requestOf? : Step → Option (ℕ × Request)
  | .env (.request n r) => some (n, r)
  | _ => none

theorem mem_requests {n : ℕ} {r : Request} (h : .env (.request n r) ∈ steps) : (n, r) ∈ steps.filterMap requestOf? :=
  List.mem_filterMap.mpr ⟨_, h, rfl⟩

/-- An alert of another tenant comes in. -/
def Sample.visited : List Step :=
  .env (.request 1 (.webhook "alertmanager" [{ opening with tenantId := "u" }] (settings .R2))) ::
    acts (.request 1) (plain 1 0)

theorem Sample.visited_runs : (Runs.run (system id).step (system id).start (restarting 18 ++ visited)).isSome := by
  decide +kernel

theorem tenants_isolated_visited : (Sample.worldOf _ Sample.visited_runs).shared.db.incidents.size = 2 ∧
    ∀ r, Api.read (Sample.worldOf _ Sample.visited_runs).shared.db "t" r =
      Api.read (Sample.worldOf _ Sample.restarted).shared.db "t" r := by
  have hrequests : ∀ n r, .env (.request n r) ∈ Sample.restarting 18 ++ Sample.visited →
      n = 0 ∧ r = .webhook "alertmanager" [Sample.opening] (Sample.settings .R2) ∨
        n = 1 ∧ r = .webhook "alertmanager" [{ Sample.opening with tenantId := "u" }] (Sample.settings .R2) := by
    intro n r hn
    have hmem := mem_requests hn
    rw [show (Sample.restarting 18 ++ Sample.visited).filterMap requestOf? =
      [(0, .webhook "alertmanager" [Sample.opening] (Sample.settings .R2)),
        (1, .webhook "alertmanager" [{ Sample.opening with tenantId := "u" }] (Sample.settings .R2))] from rfl] at hmem
    simpa using hmem
  have hs : Runs.run (system id).step (Sample.worldOf _ Sample.restarted) Sample.visited =
      some (Sample.worldOf _ Sample.visited_runs) := by
    obtain ⟨m, hm, hs⟩ := (Runs.run_append _).mp (Sample.reaches Sample.visited_runs)
    obtain rfl := Option.some.inj (hm.symm.trans (Sample.reaches Sample.restarted))
    exact hs
  refine ⟨by decide +kernel, tenants_isolated (Sample.reaches Sample.restarted) hs
    (fun n r hn => ?_) fun k i hk hw => ?_⟩
  · rcases hrequests n r hn with ⟨-, rfl⟩ | ⟨-, rfl⟩
    · exact ⟨"t", fun o ho => by rw [List.mem_singleton.mp ho]; rfl⟩
    · exact ⟨"u", fun o ho => by rw [List.mem_singleton.mp ho]⟩
  · obtain ⟨rfl, -⟩ : k = .request 1 ∧ i = {} := by simpa [Sample.visited, Sample.acts, Sample.plain] using hk
    obtain ⟨r, hr, hof⟩ := hw
    rcases hrequests 1 r hr with ⟨h, -⟩ | ⟨-, rfl⟩
    · cases h
    · exact absurd (hof _ (List.mem_singleton_self _)) (by decide)

/-- The approval that the executor found, and whose it is. -/
theorem approval_held {c : Core} {k : Attempt} {id : ℕ} {ch : Checked} (h : Held A c) (hok : CheckOk c k id ch)
    (hv : ch.plan.verdict = .requireApproval ∨ ch.decision.verdict = .requireApproval) :
    ∃ x, A.approves x ∧ x.decision = .approve ∧ x.planHash = ch.plan.planHash ∧ x.incidentId = ch.plan.incidentId ∧
      Belongs c.db x.incidentId x.tenantId ∧ x.approver ≠ ch.plan.proposedBy := by
  obtain ⟨d, hd, x, hx, hdecision, hhash, hne⟩ := hok.approval hv
  obtain ⟨howned, hsteady⟩ := h.of_mem (List.mem_of_mem_drop hd)
  obtain ⟨n, hn⟩ := Table.mem_rows.mp (List.mem_of_find?_eq_some hx)
  have hplan : x.planId = ch.planId := by simpa using List.find?_some (show d.approvals.rows.find? _ = some x from hx)
  obtain ⟨hb, happroves, p, hp, hpi⟩ := howned.approvals n x hn
  have hrow := hsteady.plans.get hp
  rw [hplan, hok.row] at hrow
  obtain rfl := Option.some.inj hrow
  exact ⟨x, happroves, hdecision, hhash, hpi.symm, hsteady.incidents _ _ hb, hne⟩

/-- A token with the role, of the tenant. -/
def Bears (jwt : String → Except String Security.Claims) (role : Security.Role) (t : String) (a : Actor) : Prop :=
  ∃ token p, Security.decodeToken jwt token = .ok p ∧ p.tenantId = t ∧ p.has role = true ∧ a = .user p.subject

/-- The request came in over HTTP. -/
def Admitted (jwt : String → Except String Security.Claims) (r : Request) : Prop :=
  ∃ settings credentials e, Http.route jwt settings credentials e = .ok (.write r)

variable {jwt : String → Except String Security.Claims}

theorem require_bears {role : Security.Role} {credentials : Option String} {p : Security.Principal}
    (h : Security.require jwt role credentials = .ok p) : Bears jwt role p.tenantId (.user p.subject) := by
  unfold Security.require at h
  rcases hp : Security.authenticate jwt credentials with e | q
  · rw [hp] at h
    cases h
  · rw [hp] at h
    simp only [bind, Except.bind] at h
    split_ifs at h with hrole
    obtain rfl := Except.ok.inj h
    unfold Security.authenticate at hp
    rcases credentials with _ | token
    · cases hp
    · dsimp only at hp
      rcases hd : Security.decodeToken jwt token with e | q'
      · rw [hd] at hp
        cases hp
      · rw [hd] at hp
        obtain rfl := Except.ok.inj hp
        exact ⟨token, q', hd, rfl, by simpa using hrole, rfl⟩

/-- Someone with the approver's role for the tenant sent the decision. -/
def Decided (jwt : String → Except String Security.Claims) (steps : List Step) (a : Approval) : Prop :=
  Bears jwt .approver a.tenantId a.approver ∧ ∃ n subject settings, a.approver = .user subject ∧
    .env (.request n (.decide a.tenantId a.incidentId subject a.decision a.planHash a.comment settings)) ∈ steps

/-- The planner proposed the plan, or someone with the responder's role for the tenant sent it. -/
def Proposed (jwt : String → Except String Security.Claims) (sha256 : String → String) (steps : List Step)
    (p : PlanRow) : Prop :=
  p.planHash = Plans.planHash sha256 p.incidentId p.seq p.plan ∧ (p.proposedBy = .planner ∨
    Bears jwt .responder p.tenantId p.proposedBy ∧ ∃ n subject settings, p.proposedBy = .user subject ∧
      .env (.request n (.revise p.tenantId p.incidentId subject p.plan settings)) ∈ steps)

def authority (jwt : String → Except String Security.Claims) (sha256 : String → String) (steps : List Step) :
    Authority :=
  ⟨Decided jwt steps, Proposed jwt sha256 steps⟩

theorem Admitted.permitted {n : ℕ} {r : Request} (h : Admitted jwt r) (hn : .env (.request n r) ∈ steps) :
    Permitted (authority jwt sha256 steps) sha256 (fun _ _ => True) n r := by
  obtain ⟨settings, credentials, e, h⟩ := h
  unfold Http.route at h
  rcases hp : Security.require jwt e.role credentials with x | p
  · rw [hp] at h
    cases h
  · rw [hp] at h
    have hb := require_bears hp
    simp only [bind, Except.bind] at h
    split_ifs at h
    have h := Except.ok.inj h
    cases e with
    | read r' => cases h
    | receiveAlerts alerts =>
      cases h
      refine ⟨p.tenantId, trivial, fun o ho => ?_, trivial⟩
      obtain ⟨o', -, rfl⟩ := List.mem_map.mp ho
      rfl
    | revisePlan id plan =>
      cases h
      refine ⟨p.tenantId, trivial, rfl,
        fun row ht hid hwho hplan hhash => ⟨hhash, .inr ⟨ht ▸ hwho ▸ hb, n, p.subject, settings, hwho, ?_⟩⟩⟩
      rw [ht, hid, hplan]
      exact hn
    | decide id decision planHash comment =>
      cases h
      refine ⟨p.tenantId, trivial, rfl, fun a ht hid hwho hdecision hhash hcomment =>
        ⟨ht ▸ hwho ▸ hb, n, p.subject, settings, hwho, ?_⟩⟩
      rw [ht, hid, hdecision, hhash, hcomment]
      exact hn

/-- Every row of an incident carries its tenant. A decision was made by the bearer of a token of that tenant with the
approver's role, in a request that named the plan by its hash, and a plan that is not the planner's was sent by one with
the responder's. So every PATCH that needed an approval has one of an approver of the tenant who had not proposed it. -/
theorem approvals_authorized (h : Reaches sha256 steps c) (hr : ∀ n r, .env (.request n r) ∈ steps → Admitted jwt r) :
    Owned (authority jwt sha256 steps) c.shared.db ∧ ∀ s ∈ c.shared.hist.sent,
      s.checked.plan.verdict = .requireApproval ∨ s.checked.decision.verdict = .requireApproval →
        ∃ a, Decided jwt steps a ∧ a.decision = .approve ∧ a.planHash = s.checked.plan.planHash ∧
          a.incidentId = s.checked.plan.incidentId ∧ Belongs c.shared.db a.incidentId a.tenantId ∧
          a.approver ≠ s.checked.plan.proposedBy := by
  have hgood := tenancy_good (A := authority jwt sha256 steps) (fun _ _ _ _ _ _ hwho _ hhash => ⟨hhash, .inl hwho⟩) h
    fun n r hn => (hr n r hn).permitted hn
  refine ⟨hgood.inv.now, fun s hs hv => ?_⟩
  obtain ⟨-, id, hok⟩ := (h.inv.exec.sent s hs).checked
  obtain ⟨x, hx, hdecision, hhash, hid, hb, hne⟩ := approval_held hgood.inv hok hv
  exact ⟨x, hx, hdecision, hhash, hid, hb, hne⟩

/-- What the library makes of two tokens. -/
def Sample.tokens (token : String) : Except String Security.Claims :=
  if token = "alertmanager" then .ok ⟨"alertmanager", some (.str "t"), some (.arr [.str "ingest"])⟩
  else if token = "ann" then .ok ⟨"ann", some (.str "t"), some (.arr [.str "approver"])⟩
  else .error "Not enough segments"

def Sample.restartHash : String := "c0abdadfceb43072d9dffae9817d734ffb2bd6caaa8dd6318618f2c79cc101b0"

/-- SHA-256 on the plan of the run. -/
def Sample.named : String → String := Digest.ofKnown [(Plans.planHash id 0 1 restart, restartHash)]

/-- The plan needs an approval, gets it under this hash, and is executed. -/
def Sample.approved (hash : String) : List Step :=
  planned (settings .R1) restart cluster ++ [.env (.request 1 (.decide "t" 0 "ann" .approve hash "" (settings .R1)))] ++
    acts (.request 1) (plain 4 1) ++ [claim (executor (settings .R1)) 1] ++
    acts (.job ⟨4, 1⟩) (List.replicate 19 (accepted 1))

theorem Sample.named_runs : (Runs.run (system named).step (system named).start (approved restartHash)).isSome := by
  decide +kernel

theorem Sample.approved_admitted {hash : String} (hh : Http.isHash hash = true) :
    ∀ n r, .env (.request n r) ∈ Sample.approved hash → Admitted Sample.tokens r := by
  intro n r hn
  have hmem := mem_requests hn
  rw [show (Sample.approved hash).filterMap requestOf? =
    [(0, .webhook "alertmanager" [Sample.opening] (Sample.settings .R1)),
    (1, .decide "t" 0 "ann" .approve hash "" (Sample.settings .R1))] from rfl] at hmem
  rcases List.mem_cons.mp hmem with h | h
  · obtain ⟨-, rfl⟩ := Prod.mk.inj h
    exact ⟨Sample.settings .R1, some "alertmanager", .receiveAlerts [Sample.opening], rfl⟩
  · obtain ⟨-, rfl⟩ := Prod.mk.inj (List.mem_singleton.mp h)
    have hvalid : (Http.Endpoint.decide 0 .approve hash "").valid = true := by simp [Http.Endpoint.valid, hh]
    refine ⟨Sample.settings .R1, some "ann", .decide 0 .approve hash "", ?_⟩
    rw [Http.route, hvalid]
    rfl

theorem approvals_authorized_signed : ∃ c, Reaches Sample.named (Sample.approved Sample.restartHash) c ∧
    c.shared.hist.sent.length = 1 ∧ ∀ s ∈ c.shared.hist.sent, ∃ a,
      Decided Sample.tokens (Sample.approved Sample.restartHash) a ∧ a.planHash = s.checked.plan.planHash := by
  have hreach : Reaches Sample.named (Sample.approved Sample.restartHash)
      ((Runs.run _ _ (Sample.approved Sample.restartHash)).get Sample.named_runs) := (Option.some_get _).symm
  refine ⟨_, hreach, by decide +kernel, fun s hs => ?_⟩
  have hall : ∀ s ∈ ((Runs.run (system Sample.named).step (system Sample.named).start
      (Sample.approved Sample.restartHash)).get Sample.named_runs).shared.hist.sent,
      s.checked.plan.verdict = .requireApproval := by
    decide +kernel
  obtain ⟨a, hdecided, -, hhash, -⟩ :=
    (approvals_authorized hreach (Sample.approved_admitted (by decide))).2 s hs (.inl (hall s hs))
  exact ⟨a, hdecided, hhash⟩

end Runs

end Blackboard
