import Blackboard.Proofs.Executor

/-! What happens to a job around its handler: it is claimed, its lease is renewed or expires, and
the attempt completes, fails or releases it. These change the jobs and add audit rows of dead
ones; a job is done only when its incident is beyond what it drives. -/

namespace Blackboard

open Threads

/-! A change that no other table knows of. -/

/-- Rows stay the jobs they are; one that is dead now has its audit row. -/
structure QueueStep (c c' : Core) (f : ℕ → JobRow → JobRow) : Prop where
  jobs : c'.db.jobs = c.db.jobs.update f
  later : ∀ n r, c.db.jobs.get? n = some r → r.Later (f n r)
  dead : ∀ n r, c.db.jobs.get? n = some r → (f n r).status = .dead → r.status = .dead ∨ AuditedDead c'.db n
  incidents : c'.db.incidents = c.db.incidents
  plans : c'.db.plans = c.db.plans
  approvals : c'.db.approvals = c.db.approvals
  executions : c'.db.executions = c.db.executions
  audit : ∃ l, c'.db.audit = c.db.audit ++ l ∧ ∀ x ∈ l, x.event.outcome = none ∧ ∀ n, ¬ x.TimesOut n
  dbs : c.dbs <+: c'.dbs
  clusters : c.clusters <+: c'.clusters
  sent : c'.hist.sent = c.hist.sent
  owed : c'.hist.owed = c.hist.owed
  decided : c'.hist.decided = c.hist.decided
  timedOut : c'.hist.timedOut = c.hist.timedOut
  wrote : c'.hist.wrote = c.hist.wrote
  auto : c'.hist.manual = false → c.hist.manual = false

namespace QueueStep

variable {c c' : Core} {f : ℕ → JobRow → JobRow}

theorem row (h : QueueStep c c' f) {n : ℕ} {s : JobRow} (hs : c'.db.jobs.get? n = some s) :
    ∃ r, c.db.jobs.get? n = some r ∧ s = f n r := by
  rw [h.jobs, Table.get?_update] at hs
  obtain ⟨r, hr, hrs⟩ := Option.map_eq_some_iff.mp hs
  exact ⟨r, hr, hrs.symm⟩

theorem get (h : QueueStep c c' f) {n : ℕ} {r : JobRow} (hr : c.db.jobs.get? n = some r) :
    c'.db.jobs.get? n = some (f n r) := by
  rw [h.jobs, Table.get?_update, hr]
  rfl

theorem evolves (h : QueueStep c c' f) : Evolves c c' where
  db :=
    { incidents := by rw [h.incidents]; exact .refl Incident.Later.refl _
      jobs := fun n r hr => ⟨f n r, h.get hr, h.later n r hr⟩
      plans := by rw [h.plans]; exact .refl (fun _ => rfl) _
      planned := fun n _ _ _ _ _ => currentPlan_of_plans h.plans n
      approvals := by rw [h.approvals]; exact .refl (fun _ => rfl) _
      executions := by rw [h.executions]; exact .refl Execution.Later.refl _
      audit := by
        obtain ⟨l, hl, -⟩ := h.audit
        exact ⟨l, hl.symm⟩ }
  dbs := h.dbs
  clusters := h.clusters
  decided := by rw [h.decided]; exact List.Subset.refl _
  wrote := by rw [h.wrote]; exact List.Subset.refl _
  auto := h.auto

/-- What is left to show is that no job that drives its incident is done. -/
theorem inv (h : QueueStep c c' f) (hinv : Inv c)
    (hdone : ∀ n r id i, c.db.jobs.get? n = some r → r.status ≠ .done → c.db.incidents.get? id = some i →
      Drives c.db id i r → (f n r).status ≠ .done) : Inv c' where
  jobs := hinv.jobs.later h.evolves.db fun n s hs => by
    obtain ⟨r, hr, rfl⟩ := h.row hs
    exact Or.inl ⟨r, hr, (h.later n r hr).same, h.dead n r hr⟩
  driven hman := (hinv.driven (h.auto hman)).later fun id i hi _ => by
    rw [h.incidents] at hi
    exact Or.inl ⟨i, hi, rfl, currentPlan_of_plans h.plans id, fun n r hr hs hd =>
      ⟨f n r, h.get hr, (h.later n r hr).same, hdone n r id i hr hs hi hd⟩⟩
  plans := hinv.plans.later h.evolves.db (by rw [h.decided]; exact List.Subset.refl _) h.plans h.approvals
    (fun id i hi hs => ⟨i, by rw [← h.incidents]; exact hi, hs⟩)
    (fun n s hs _ => by
      obtain ⟨r, hr, rfl⟩ := h.row hs
      exact ⟨r, hr, (h.later n r hr).same⟩)
    (.of_eq h.timedOut) fun id ht => by
      obtain ⟨l, hl, hno⟩ := h.audit
      exact Or.inl (ht.of_none hl fun x hx => (hno x hx).2)
  exec := hinv.exec.later h.evolves h.executions h.sent h.owed fun q => by
    obtain ⟨l, hl, hno⟩ := h.audit
    exact Appends.audited ⟨hl, fun x hx => (hno x hx).1⟩ q

theorem apart (h : QueueStep c c' f) (k : Caller) (hready : ∀ a, k = .job a → a ∈ c.hist.ready → a ∈ c'.hist.ready) :
    Apart k c c' := by
  cases k with
  | request n =>
    intro hn
    rw [h.wrote] at hn
    exact hn
  | job a =>
    refine ⟨fun s hs _ => h.sent ▸ hs, hready a rfl, fun x _ => by rw [h.owed], fun n e f he _ hf => Or.inl ?_,
      fun _ n e _ _ _ _ hn => Or.inl (by rw [h.executions]; exact hn),
      fun _ id i _ _ _ _ hi hs => Or.inl ⟨i, by rw [h.incidents]; exact hi, hs⟩⟩
    rw [h.executions, he] at hf
    rw [Option.some.inj hf]

end QueueStep

/-! The end of an attempt. -/

/-- A job that is driving its incident has not come to its end. -/
theorem Passed.not_drives {ctx : JobContext} {c : Core} (hp : Passed ctx.job c.db) (hk : Knows ctx c) {id : ℕ}
    {i : Incident} {r : JobRow} (hr : c.db.jobs.get? ctx.job.id = some r) (hi : c.db.incidents.get? id = some i) :
    ¬ Drives c.db id i r := by
  intro hd
  obtain ⟨t, ht, -, hkind, hinc, hpay⟩ := hk.row
  obtain rfl : r = t := Option.some.inj (hr.symm.trans ht)
  obtain ⟨j, hj, hrank | ⟨hto, p, hp, row, q, s, hrow, hs, hsame, hlt⟩⟩ := hp id (hinc.symm.trans hd.incident)
  · obtain rfl : i = j := Option.some.inj (hi.symm.trans hj)
    have hup := State.driver_upTo hd.kind
    rw [hkind] at hup
    omega
  · obtain ⟨p', row', hcur, hp'⟩ := hd.plan (by rw [hkind, hto]; rfl)
    obtain rfl : p = p' := Option.some.inj (hp.symm.trans (by rw [← hpay]; exact hp'))
    obtain ⟨hlat, -⟩ := currentPlan_latest hcur
    obtain rfl : row = row' := Option.some.inj (hrow.symm.trans hlat.1)
    have := hlat.2 q s hs hsame
    omega

/-- The attempt gives its job up, and says what became of it. -/
theorem Guar.settle {ctx : JobContext} {c : Core} {f : JobRow → JobRow} {l : List AuditEntry} (hinv : Inv c)
    (hhold : Holds ctx.attempt c.db) (hf : ∀ r, SameJob r (f r) ∧ (f r).fence = r.fence)
    (hl : ∀ x ∈ l, x.event.outcome = none ∧ ∀ n, ¬ x.TimesOut n)
    (hdead : ∀ r, c.db.jobs.get? ctx.job.id = some r → (f r).status = .dead →
      ∃ x ∈ l, x.subject = .job ctx.job.id ∧ ∃ kind attempts error, x.event = .jobDead kind attempts error)
    (hdone : ∀ r, c.db.jobs.get? ctx.job.id = some r → (f r).status = .done → Knows ctx c ∧ Over ctx c) :
    Guar (.job ctx.attempt) c { c.write { c.db with jobs := c.db.jobs.modify ctx.job.id f, audit := c.db.audit ++ l }
      with hist := Worker.noteEnd ctx c } := by
  obtain ⟨r₀, hr₀, hfence, hrun⟩ := hhold
  have hr₀ : c.db.jobs.get? ctx.job.id = some r₀ := hr₀
  set c' : Core := { c.write { c.db with jobs := c.db.jobs.modify ctx.job.id f, audit := c.db.audit ++ l } with
    hist := Worker.noteEnd ctx c } with hc'
  have hstep : QueueStep c c' fun n r => if n = ctx.job.id then f r else r :=
    { jobs := rfl
      later := fun n r hr => by
        split_ifs with hn
        · subst hn
          obtain rfl : r = r₀ := Option.some.inj (hr.symm.trans hr₀)
          exact ⟨(hf r).1, (hf r).2.ge, fun _ hne => absurd hrun hne⟩
        · exact .refl r
      dead := fun n r hr hd => by
        split_ifs at hd with hn
        · subst hn
          obtain ⟨x, hx, hsub, hev⟩ := hdead r hr hd
          exact Or.inr ⟨x, List.mem_append_right _ hx, hsub, hev⟩
        · exact Or.inl hd
      incidents := rfl, plans := rfl, approvals := rfl, executions := rfl
      audit := ⟨l, rfl, hl⟩
      dbs := List.prefix_append _ _
      clusters := List.prefix_refl _
      sent := rfl, owed := rfl, decided := rfl, timedOut := rfl, wrote := rfl, auto := id }
  have hother : ∀ b, Holds b c.db → b ≠ ctx.attempt → Holds b c'.db := by
    rintro b ⟨r, hr, hrf, hrs⟩ hne
    refine ⟨r, ?_, hrf, hrs⟩
    rw [show c'.db.jobs = c.db.jobs.modify ctx.job.id f from rfl, Table.get?_modify_ne _ _ ?_, hr]
    exact fun hj => hne (Holds.unique ⟨r, hr, hrf, hrs⟩ ⟨r₀, hr₀, hfence, hrun⟩ hj)
  have hready : ∀ b, b ∈ c'.hist.ready ↔ b ∈ c.hist.ready ∧ b ≠ ctx.attempt := fun b => by
    simp [hc', Worker.noteEnd]
  exact
    { inv := hstep.inv hinv fun n r id i hr hst hi hd => by
        split_ifs with hn
        · subst hn
          intro hfin
          obtain ⟨hk, hover⟩ := hdone r hr hfin
          exact hover.1.not_drives hk hr hi hd
        · exact hst
      evolves := hstep.evolves
      apart := fun j hj => hstep.apart j fun b hb hmem => (hready b).mpr ⟨hmem, fun he => hj (by rw [hb, he])⟩
      ready := fun b hb => ⟨Or.inl ((hready b).mp hb).1, fun hh => hother b hh ((hready b).mp hb).2⟩
      sends := Or.inl rfl
      owes := fun b hb => Or.inl hb
      settled := fun b hb hh r hr => by
        by_cases hne : b = ctx.attempt
        · subst hne
          intro hfin
          have hget : c'.db.jobs.get? ctx.job.id = some (f r₀) := by
            rw [hstep.get hr₀, if_pos rfl]
          obtain rfl : r = f r₀ := Option.some.inj (hr.symm.trans hget)
          obtain ⟨-, -, hclear⟩ := hdone r₀ hr₀ hfin
          obtain ⟨x, hx, hxa⟩ := hb
          cases (hclear x hxa).mp hx
        · exact (hother b hh hne).not_done hr
      wrote := fun n hn => by cases hn
      manual := rfl }

variable {ctx : JobContext} {s : Core}

theorem complete_works (hk : Knows ctx s) (ho : Over ctx s) :
    Works ctx (fun _ _ => True) (commit (fun i => Tx.complete i.now ctx.job) fun _ _ c => Worker.noteEnd ctx c) s := by
  refine commit_does (fun _ _ _ _ => trivial) (fun _ _ => trivial) fun i u d t ht hi hrun =>
    ⟨?_, fun _ _ _ _ => trivial⟩
  have hrun : (Tx.complete i.now ctx.job) t.db = .ok (u, d) := hrun
  unfold Tx.complete at hrun
  cases hc : Jobs.complete i.now ctx.job t.db.jobs with
  | error e => rw [hc] at hrun; cases hrun
  | ok jobs =>
    rw [hc] at hrun
    cases hrun
    obtain ⟨hh, rfl⟩ := Jobs.finish_ok.mp hc
    have hg := Guar.settle (l := []) (f := fun r =>
      { r with status := .done, lastError := none, leaseOwner := none, leaseUntil := none, updatedAt := i.now })
      hi (holds_job.mp hh) (fun r => ⟨⟨rfl, rfl, rfl, rfl, rfl, rfl, rfl, rfl, rfl⟩, rfl⟩) (by simp)
      (fun r _ hd => by cases hd) fun r _ _ => ⟨hk.later ht.1, ho.later ht⟩
    rw [List.append_nil] at hg
    exact hg

theorem release_works : Works ctx (fun _ _ => True) (Worker.release ctx) s := by
  unfold Worker.release
  refine .attempt (R := fun _ _ => True) (F := fun _ _ => True) (commit_does (fun _ _ _ _ => trivial)
    (fun _ _ => trivial) fun i u d t ht hi hrun => ⟨?_, fun _ _ _ _ => trivial⟩) fun _ _ _ => .pure fun _ _ _ => trivial
  have hrun : (Tx.release i.now ctx.job) t.db = .ok (u, d) := hrun
  unfold Tx.release at hrun
  cases hc : Jobs.release i.now ctx.job t.db.jobs with
  | error e => rw [hc] at hrun; cases hrun
  | ok jobs =>
    rw [hc] at hrun
    cases hrun
    obtain ⟨hh, rfl⟩ := Jobs.finish_ok.mp hc
    have hg := Guar.settle (l := []) (f := fun r =>
      { r with status := .queued, attempts := r.attempts - 1, runAfter := i.now, leaseOwner := none,
               leaseUntil := none, updatedAt := i.now })
      hi (holds_job.mp hh) (fun r => ⟨⟨rfl, rfl, rfl, rfl, rfl, rfl, rfl, rfl, rfl⟩, rfl⟩) (by simp)
      (fun r _ hd => by cases hd) fun r _ hd => by cases hd
    rw [List.append_nil] at hg
    exact hg

/-- The transaction of `_fail`, with the audit row if the job is dead now. -/
theorem fail_works {e : Err} {retryable : Bool} : Works ctx (fun _ _ => True) (Worker.fail ctx e retryable) s := by
  unfold Worker.fail
  refine .attempt (R := fun _ _ => True) (F := fun _ _ => True) (commit_does (fun _ _ _ _ => trivial)
    (fun _ _ => trivial) fun i u d t ht hi hrun => ⟨?_, fun _ _ _ _ => trivial⟩) fun r _ _ => ?_
  · obtain ⟨st, d1, h1, h2⟩ := Tx.bind_ok.mp hrun
    have h1 : (Tx.fail i.now ctx.job e.describe retryable ctx.settings i.jitter) t.db = .ok (st, d1) := h1
    unfold Tx.fail at h1
    cases hf : Jobs.fail i.now ctx.job e.describe retryable ctx.settings.queueBackoffBaseS
        ctx.settings.queueBackoffMaxS i.jitter t.db.jobs with
    | error x => rw [hf] at h1; cases h1
    | ok x =>
      rw [hf] at h1
      cases h1
      obtain ⟨r, hr, hh, hst, hjobs⟩ := Jobs.fail_ok (s := x.2) hf
      have hsame : ∀ r : JobRow, SameJob r
          { r with status := Jobs.afterFailure retryable r,
                   runAfter := i.now + Jobs.backoffDelay ctx.job.attempts ctx.settings.queueBackoffBaseS
                     ctx.settings.queueBackoffMaxS i.jitter,
                   leaseOwner := none, leaseUntil := none,
                   lastError := some (e.describe.take 2000).copy, updatedAt := i.now } :=
        fun r => ⟨rfl, rfl, rfl, rfl, rfl, rfl, rfl, rfl, rfl⟩
      have hnot : ∀ r, Jobs.afterFailure retryable r ≠ .done := fun r hd => by
        rcases afterFailure_cases retryable r with ⟨hq, -⟩ | hq <;> rw [hq] at hd <;> cases hd
      split_ifs at h2 with hdead
      · obtain rfl := Tx.append_ok.mp h2
        rw [hjobs]
        refine Guar.settle hi (holds_job.mp hh) (fun r => ⟨hsame r, rfl⟩) ?_ (fun _ _ _ =>
          ⟨_, List.mem_singleton_self _, rfl, _, _, _, rfl⟩) fun r _ hd => absurd hd (hnot r)
        simp [Worker.auditDead, Event.outcome, AuditEntry.TimesOut]
      · obtain ⟨-, rfl⟩ := Tx.pure_ok.mp h2
        rw [hjobs]
        have hg := Guar.settle (l := []) hi (holds_job.mp hh) (fun r => ⟨hsame r, rfl⟩) (by simp)
          (fun r' hr' hd => by
            obtain rfl : r = r' := Option.some.inj (hr.symm.trans hr')
            exact absurd (hst.trans hd) hdead) fun r _ hd => absurd hd (hnot r)
        rw [List.append_nil] at hg
        exact hg
  · rcases r with e | _
    · cases e <;> first | exact .pure fun _ _ _ => trivial | exact .throw
    · exact .pure fun _ _ _ => trivial

/-- `_execute`, around a handler that comes to an end of its job only when the job has. -/
theorem attempt_works {h : Option (JobContext → Handler Unit)} (hk : Knows ctx s)
    (hh : ∀ f ∈ h, Works ctx (fun _ => Over ctx) (f ctx) s) :
    Works ctx (fun _ _ => True) (Worker.execute ctx h) s := by
  unfold Worker.execute
  refine .attempt (R := fun _ _ => True) (F := fun _ _ => True) ?_ fun r _ _ => ?_
  · show Works ctx (fun _ _ => True) _ s
    cases h with
    | none => exact .bind (R := fun _ _ => False) .throw fun _ _ h => h.elim
    | some f =>
      refine .bind ((hh f rfl).frame (fun _ _ he hk => Knows.later hk he) hk) fun _ t ⟨ho, hk⟩ => complete_works hk ho
  · rcases r with e | _
    · cases e with
      | cancelled l =>
        cases l with
        | true => exact .pure fun _ _ _ => trivial
        | false => exact .bind release_works fun _ _ _ => .throw
      | leaseLost => exact .pure fun _ _ _ => trivial
      | permanentJobError => exact fail_works
      | _ => exact fail_works
    · exact .pure fun _ _ _ => trivial

end Blackboard
