import Blackboard.Proofs.Verification

/-! Who let a plan run, and who keeps an incident going, over whole runs: plans submitted,
revised, decided on and timed out in any order, with the jobs that follow. -/

namespace Blackboard

open Threads

variable {sha256 : String → String} {steps : List Step} {c : World}

/-! Attempts. -/

/-- The process has claimed the job in the run. -/
def ClaimedBy (sha256 : String → String) (steps : List Step) (p : Process) (job : Job) : Prop :=
  ∃ before now maxPriority locked after c, steps = before ++ .env (.claim p now maxPriority locked) :: after ∧
    Reaches sha256 before c ∧
    (Jobs.claim now p.workerId p.settings.queueLeaseTtlS maxPriority (some p.kinds) locked c.shared.db.jobs).2 =
      some job

theorem ClaimedBy.snoc {p : Process} {job : Job} (h : ClaimedBy sha256 steps p job) (ch : Step) :
    ClaimedBy sha256 (steps ++ [ch]) p job := by
  obtain ⟨before, now, mp, locked, after, c, rfl, hrest⟩ := h
  exact ⟨before, now, mp, locked, after ++ [ch], c, by rw [List.append_assoc, List.cons_append], hrest⟩

/-- What an attempt keeps to after what it has met is kept to by its actions in every run, from the claim of its job
on. -/
theorem act_claimed {terms : Process → Job → List Input → Core → Core → Prop} {a : Attempt} {i : Input} {c' : World}
    (hterms : ∀ p job, Within (terms p job) (fun _ _ => True) [] (attemptProgram sha256 p job))
    (h : Reaches sha256 steps c) (hs : (system sha256).step c (.act (.job a) i) = some c') :
    ∃ p job M, ClaimedBy sha256 steps p job ∧ a = ⟨job.id, job.fence⟩ ∧ Knows ⟨job, p.settings, p.workerId⟩ c.shared ∧
      (∀ x ∈ M, .act (.job a) x ∈ steps) ∧ terms p job (M ++ [i]) c.shared c'.shared := by
  obtain ⟨e, s, after, ⟨before, s', q, rfl, hbefore, he⟩, hact⟩ := act_origin
    (G := fun e s _ M c c' => ∀ p now mp locked job, e = .claim p now mp locked →
      (Jobs.claim now p.workerId p.settings.queueLeaseTtlS mp (some p.kinds) locked s.shared.db.jobs).2 = some job →
      terms p job M c c')
    (fun e s s' k q he => by
      cases e with
      | claim p now mp locked =>
        obtain ⟨job, hjob, -, rfl, -⟩ := claim_starts he
        refine Within.mono (fun M c c' ht p' now' mp' locked' job' hp hj => ?_) (fun _ _ h => h) (hterms p job)
        cases hp
        obtain rfl : job = job' := Option.some.inj (hjob.symm.trans hj)
        exact ht
      | _ => exact Within.trivial fun _ _ _ _ _ _ _ _ h => by cases h) h hs
  obtain ⟨u, hu, hrest⟩ := (Runs.run_append _).mp h
  obtain rfl : s = u := Option.some.inj (hbefore.symm.trans hu)
  cases e with
  | claim p now mp locked =>
    obtain ⟨job, hjob, hk, -, hknows⟩ := claim_starts he
    cases hk
    obtain ⟨w, hw, hafter⟩ := (Runs.run_cons_eq_some _).mp hrest
    have hshared : w.shared = s' := System.env_shared he hw
    have hgood : (protocol sha256).Good w := (Reaches.good hbefore).step hw
    exact ⟨p, job, _, ⟨before, now, mp, locked, after, s, rfl, hbefore, hjob⟩, rfl,
      (hshared ▸ hknows).later (run_evolves hgood hafter),
      fun x hx => List.mem_append_right _ (List.mem_cons_of_mem _ (mem_inputs.mp hx)),
        hact p now mp locked job rfl hjob⟩
  | _ => simp [system, happen] at he

/-! The executor's check. -/

theorem attempt_within (p : Process) (job : Job) :
    Within (fun M c c' => job.kind = .execute → SendsFresh p.settings M c c') (fun _ _ => True) []
      (attemptProgram sha256 p job) := by
  by_cases hkind : job.kind = .execute
  · set ctx : JobContext := ⟨job, p.settings, p.workerId⟩
    have hexec : Stays (SendsFresh ctx.settings) (fun _ _ => True) []
        (Worker.execute ctx (p.handler sha256 job.kind)) := by
      unfold Worker.execute
      refine .bind (.attempt (Q := fun _ _ => True) ?_) fun M r _ _ => ?_
      · rw [hkind]
        unfold Process.handler
        split_ifs
        · exact .bind execute_stays fun _ _ _ _ => stays_quiet (commit_quiet (fun _ _ _ => rfl) fun _ => .complete)
        · exact stays_quiet (.throw_bind _ _)
      · split
        · exact .pure True.intro
        · exact .pure True.intro
        · exact .pure True.intro
        · exact stays_quiet (.bind release_quiet fun _ => .throw _)
        · exact stays_quiet fail_quiet
        · exact stays_quiet fail_quiet
    exact Within.mono (fun _ _ _ hs _ => hs) (fun _ _ _ => True.intro) (Stays.bind (R := fun _ _ => True)
      (k := fun _ => pure Response.settled) hexec fun _ _ _ _ => .pure True.intro)
  · exact Within.trivial fun _ _ _ h => absurd h hkind

/-- The check was made under the settings of the process that claimed the job, at a time that its attempt read. -/
def CheckedBy (sha256 : String → String) (steps : List Step) (s : Sent) : Prop :=
  ∃ p job, ClaimedBy sha256 steps p job ∧ s.attempt = ⟨job.id, job.fence⟩ ∧ s.checked.settings = p.settings ∧
    ∃ i, .act (.job s.attempt) i ∈ steps ∧ s.checked.context.now = i.now

theorem CheckedBy.snoc {s : Sent} (h : CheckedBy sha256 steps s) (ch : Step) : CheckedBy sha256 (steps ++ [ch]) s := by
  obtain ⟨p, job, hp, ha, hset, i, hi, hnow⟩ := h
  exact ⟨p, job, hp.snoc ch, ha, hset, i, List.mem_append_left _ hi, hnow⟩

theorem sent_checked (h : Reaches sha256 steps c) : ∀ s ∈ c.shared.hist.sent, CheckedBy sha256 steps s := by
  induction steps using List.reverseRecOn generalizing c with
  | nil =>
    obtain rfl : (system sha256).start = c := by simpa [Reaches] using h
    intro s hs
    cases hs
  | append_singleton steps ch ih =>
    obtain ⟨d, hd, hstep⟩ := (Runs.run_append _).mp h
    have hstep : (system sha256).step d ch = some c := by simpa [Runs.run_cons] using hstep
    intro s hs
    rcases step_sends (Reaches.good hd) hstep with he | ⟨x, ⟨i, rfl⟩, he, -⟩
    · exact (ih hd s (he ▸ hs)).snoc ch
    · rw [he, List.mem_append, List.mem_singleton] at hs
      rcases hs with hs | rfl
      · exact (ih hd s hs).snoc _
      obtain ⟨p, job, M, hp, ha, hk, hM, hterms⟩ := act_claimed attempt_within hd hstep
      -- what is sent is of an execute job
      have hsent := h.inv.exec.sent s (by rw [he]; exact List.mem_append_right _ (List.mem_singleton_self s))
      obtain ⟨-, id, hcheck⟩ := hsent.checked
      obtain ⟨r, hr, hrk, -⟩ := hcheck.payload
      obtain ⟨r', hr', -, hkind, -⟩ := (hk.later (step_evolves (Reaches.good hd) hstep)).row
      rw [ha] at hr
      obtain rfl : r = r' := Option.some.inj (hr.symm.trans hr')
      have hfresh := (hterms (hkind.symm.trans hrk)).2 s
        (by rw [he]; exact List.mem_append_right _ (List.mem_singleton_self s))
      rcases hfresh with hold | ⟨hset, x, hx, hnow⟩
      · exact (ih hd s hold).snoc _
      refine ⟨p, job, hp.snoc _, ha, hset, x, ?_, hnow⟩
      rcases List.mem_append.mp hx with hx | hx
      · exact List.mem_append_left _ (hM x hx)
      · rw [List.mem_singleton.mp hx]
        exact List.mem_append_right _ (List.mem_singleton_self _)

/-- Every PATCH was sent for an action of the plan that its attempt had checked, under the settings its process had
then. -/
theorem patch_authorized (h : Reaches sha256 steps c) :
    ∀ s ∈ c.shared.hist.sent, s.checked.planId = s.planId ∧ s.checked.plan.plan.actions[s.index]? = some s.action ∧
      (∃ id, CheckOk c.shared s.attempt id s.checked) ∧ CheckedBy sha256 steps s := by
  intro s hs
  have hok := h.inv.exec.sent s hs
  exact ⟨hok.checked.1, hok.action, hok.checked.2, sent_checked h s hs⟩

/-- An executor whose settings would allow the plan at once takes the job of the approved one. -/
def Sample.relaxing : List Step :=
  approving ++ [claim (executor (settings .R2)) 1] ++ acts (.job ⟨4, 1⟩) (List.replicate 19 (accepted 1))

theorem Sample.relaxing_runs : (Runs.run (system id).step (system id).start relaxing).isSome := by decide +kernel

theorem patch_authorized_relaxing :
    ∃ s ∈ (Sample.worldOf _ Sample.relaxing_runs).shared.hist.sent,
      s.checked.plan.verdict = .requireApproval ∧ s.checked.decision.verdict = .allow ∧
      (∃ id, CheckOk (Sample.worldOf _ Sample.relaxing_runs).shared s.attempt id s.checked) ∧
      CheckedBy id Sample.relaxing s := by
  have hsent : (Sample.worldOf _ Sample.relaxing_runs).shared.hist.sent.map
      (fun s => (s.checked.plan.verdict, s.checked.decision.verdict)) = [(.requireApproval, .allow)] := by
        decide +kernel
  obtain ⟨s, hs, hv⟩ := List.mem_map.mp (hsent ▸ List.mem_singleton_self _)
  obtain ⟨h1, h2⟩ := Prod.mk.inj hv
  exact ⟨s, hs, h1, h2, (patch_authorized (Sample.reaches Sample.relaxing_runs) s hs).2.2⟩

/-! Incidents that are open. -/

/-- Automatic investigation and remediation are on in every process. -/
def Automatic : Step → Prop
  | .env (.claim p ..) => p.settings.autoInvestigate = true ∧ p.settings.autoRemediate = true
  | _ => True

theorem automatic_step {c c' : World} {ch : Step} (hg : (protocol sha256).Good c) (hm : c.shared.hist.manual = false)
    (ha : Automatic ch) (hs : (system sha256).step c ch = some c') : c'.shared.hist.manual = false := by
  rcases step_cases hg hs with ⟨e, started, rfl, he⟩ | ⟨k, i, -, hguar⟩ | ⟨k, -, he⟩
  · cases e with
    | claim p now maxPriority locked =>
      simp only [happen, Option.some.injEq, Prod.mk.injEq] at he
      obtain ⟨he, -⟩ := he
      obtain ⟨h1, h2⟩ : p.settings.autoInvestigate = true ∧ p.settings.autoRemediate = true := ha
      rw [← he]
      simp [hm, h1, h2]
    | _ =>
      simp only [happen, Option.some.injEq, Prod.mk.injEq] at he
      obtain ⟨he, -⟩ := he
      rw [← he]
      exact hm
  · rw [hguar.manual]
    exact hm
  · rw [he]
    exact hm

/-- The incident has a job of the kind that drives its state, for its current plan where the kind
has one, that is queued, running, or dead with an audit row. -/
def Kept (d : Db) (id : ℕ) (i : Incident) : Prop :=
  ∃ n r, d.jobs.get? n = some r ∧ Drives d id i r ∧
    (r.status = .queued ∨ r.status = .running ∨ r.status = .dead ∧ AuditedDead d n)

/-- No incident is stranded: one that is not at its end is kept going, and the two states that a
submission passes through are never committed. -/
theorem no_stranded_incident (h : Reaches sha256 steps c) (hauto : ∀ ch ∈ steps, Automatic ch) :
    ∀ id i, c.shared.db.incidents.get? id = some i →
      i.state ≠ .planned ∧ i.state ≠ .safetyReviewed ∧
      (i.state ≠ .resolved → i.state ≠ .escalated → Kept c.shared.db id i) := by
  have hinv := Runs.invariant_under (K := fun (_ : World) ch => Automatic ch)
    (P := fun c : World => (protocol sha256).Good c ∧ c.shared.hist.manual = false)
    (fun c ch c' ⟨hg, hm⟩ ha hs => ⟨hg.step hs, automatic_step hg hm ha hs⟩) h
    (Runs.admits_of_forall (fun ch hch _ => hauto ch hch) _) ⟨Protocol.Good.start, rfl⟩
  intro id i hi
  have hdriven := h.inv.driven hinv.2 id i hi
  refine ⟨fun hst => ?_, fun hst => ?_, fun h1 h2 => ?_⟩
  · obtain ⟨n, r, -, -, hd⟩ := hdriven (by rw [hst]; decide)
    have := hd.kind
    rw [hst] at this
    cases this
  · obtain ⟨n, r, -, -, hd⟩ := hdriven (by rw [hst]; decide)
    have := hd.kind
    rw [hst] at this
    cases this
  · obtain ⟨n, r, hr, hdone, hd⟩ :=
      hdriven (by cases hst : i.state <;> first | decide | exact absurd hst h1 | exact absurd hst h2)
    refine ⟨n, r, hr, hd, ?_⟩
    cases hst : r.status with
    | queued => exact Or.inl rfl
    | running => exact Or.inr (Or.inl rfl)
    | done => exact absurd hst hdone
    | dead => exact Or.inr (Or.inr ⟨rfl, h.inv.jobs.dead n r hr hst⟩)

def Sample.isAutomatic : Step → Bool
  | .env (.claim p ..) => p.settings.autoInvestigate && p.settings.autoRemediate
  | _ => true

theorem no_stranded_incident_restart : ∃ i, (Sample.worldOf _ Sample.restarted).shared.db.incidents.get? 0 = some i ∧
    i.state = .verifying ∧ Kept (Sample.worldOf _ Sample.restarted).shared.db 0 i := by
  have hst : ((Sample.worldOf _ Sample.restarted).shared.db.incidents.get? 0).map Incident.state = some .verifying := by
    decide +kernel
  obtain ⟨i, hi, hst⟩ := Option.map_eq_some_iff.mp hst
  have hauto : ∀ ch ∈ Sample.restarting 18, Sample.isAutomatic ch = true := by decide +kernel
  refine ⟨i, hi, hst, (no_stranded_incident (Sample.reaches Sample.restarted) (fun ch hch => ?_) 0 i hi).2.2
    (by rw [hst]; decide) (by rw [hst]; decide)⟩
  have := hauto ch hch
  unfold Automatic
  split
  · simpa [Sample.isAutomatic] using this
  · trivial

/-! What becomes of a plan. -/

inductive PlanOutcome
  | allowed | denied | approved | rejected | timedOut | superseded
deriving DecidableEq

/-- The plan `p` of the row has come to the outcome; the history knows the plans of the jobs that timed out. -/
def HasOutcome (d : Db) (k : Hist) (p : ℕ) (row : PlanRow) : PlanOutcome → Prop
  | .allowed => row.verdict = .allow
  | .denied => row.verdict = .deny
  | .approved => Approved d p
  | .rejected => ∃ n a, d.approvals.get? n = some a ∧ a.planId = p ∧ a.decision = .reject
  | .timedOut => p ∈ k.timedOut
  | .superseded => Superseded d p

theorem Latest.not_superseded {d : Db} {p : ℕ} {row : PlanRow} (h : Latest d p row) : ¬ Superseded d p := by
  rintro ⟨row', q, r, hp, hq, hid, hlt⟩
  obtain rfl : row = row' := Option.some.inj (h.1.symm.trans hp)
  have := h.2 q r hq hid
  omega

section Outcomes

variable {d : Db} {k : Hist} {p : ℕ} {row : PlanRow}

/-- A decision is on a plan that needed one and is the last. -/
theorem PlansOk.decided_row (h : PlansOk d k) (hp : d.plans.get? p = some row) {n : ℕ} {a : Approval}
    (ha : d.approvals.get? n = some a) (hap : a.planId = p) : row.verdict = .requireApproval ∧ Latest d p row := by
  obtain ⟨r, i, ho⟩ := h.approval n a ha
  obtain rfl : row = r := Option.some.inj (hp.symm.trans (hap ▸ ho.latest.1))
  exact ⟨ho.verdict, hap ▸ ho.latest⟩

/-- A plan times out as the last of its incident, and with no decision on it. -/
theorem PlansOk.timed_row (h : PlansOk d k) (hp : d.plans.get? p = some row) (ht : p ∈ k.timedOut) :
    row.verdict = .requireApproval ∧ Latest d p row ∧ Undecided d p ∧ TimedOut d row.incidentId := by
  obtain ⟨-, r, hl, hr⟩ := h.times.plan p ht
  obtain rfl : row = r := Option.some.inj (hp.symm.trans hl.1)
  obtain ⟨-, -, -, q, -, s, hq, hqid, hv, hu⟩ := h.times.incident _ hr
  obtain ⟨rfl, rfl⟩ := hl.unique h hq hqid.symm
  exact ⟨hv, hl, hu, hr⟩

/-- What a plan's outcome says of its verdict, whether it is the last plan, and whether it was
decided on; no two outcomes say the same. -/
theorem PlansOk.outcome_facts (h : PlansOk d k) (hp : d.plans.get? p = some row) {x : PlanOutcome}
    (hx : HasOutcome d k p row x) :
    match x with
    | .allowed => row.verdict = .allow ∧ ¬ Superseded d p
    | .denied => row.verdict = .deny ∧ ¬ Superseded d p
    | .approved | .rejected => row.verdict = .requireApproval ∧ ¬ Superseded d p ∧ ¬ Undecided d p
    | .timedOut => row.verdict = .requireApproval ∧ ¬ Superseded d p ∧ Undecided d p
    | .superseded => Superseded d p := by
  obtain ⟨i, hi, -⟩ := h.incident p row hp
  cases x with
  | allowed => exact ⟨hx, (h.allowed p row i hp hi hx).1.not_superseded⟩
  | denied => exact ⟨hx, (h.denied p row i hp hi hx).1.not_superseded⟩
  | approved =>
    obtain ⟨n, a, ha, hap, -⟩ := hx
    obtain ⟨hv, hl⟩ := h.decided_row hp ha hap
    exact ⟨hv, hl.not_superseded, fun hu => hu n a ha hap⟩
  | rejected =>
    obtain ⟨n, a, ha, hap, -⟩ := hx
    obtain ⟨hv, hl⟩ := h.decided_row hp ha hap
    exact ⟨hv, hl.not_superseded, fun hu => hu n a ha hap⟩
  | timedOut =>
    obtain ⟨hv, hl, hu, -⟩ := h.timed_row hp hx
    exact ⟨hv, hl.not_superseded, hu⟩
  | superseded => exact hx

theorem PlansOk.outcome_unique (h : PlansOk d k) (hp : d.plans.get? p = some row) {x y : PlanOutcome}
    (hx : HasOutcome d k p row x) (hy : HasOutcome d k p row y) : x = y := by
  have hfx := h.outcome_facts hp hx
  have hfy := h.outcome_facts hp hy
  -- two decisions on a plan are one
  have honce : HasOutcome d k p row .approved → ¬ HasOutcome d k p row .rejected := by
    rintro ⟨n, a, ha, hap, hda⟩ ⟨m, b, hb, hbp, hdb⟩
    obtain rfl := h.once n m a b ha hb (hap.trans hbp.symm)
    obtain rfl : a = b := Option.some.inj (ha.symm.trans hb)
    rw [hda] at hdb
    cases hdb
  cases x <;> cases y <;> first
    | rfl
    | exact absurd hy (honce hx)
    | exact absurd hx (honce hy)
    | (simp only at hfx hfy; grind)

/-- There is an execute job for the plan just when it was allowed or approved. -/
theorem PlansOk.execute_iff (h : PlansOk d k) (hp : d.plans.get? p = some row) :
    HasExecute d p ↔ HasOutcome d k p row .allowed ∨ HasOutcome d k p row .approved := by
  constructor
  · rintro ⟨n, r, hr, hk, hpay⟩
    obtain ⟨row', hrow', hok⟩ := h.execute n r p hr hk hpay
    obtain rfl : row = row' := Option.some.inj (hp.symm.trans hrow')
    exact hok
  · rintro (hv | ⟨n, a, ha, hap, hdec⟩)
    · obtain ⟨i, hi, -⟩ := h.incident p row hp
      exact (h.allowed p row i hp hi hv).2.2
    · obtain ⟨r, i, ho⟩ := h.approval n a ha
      have hs := ho.settles
      unfold Settles at hs
      simp only [hdec] at hs
      exact hap ▸ hs.2.2

end Outcomes

/-- A committed decision was on the last plan, checked before the plan expired; an approval is not
by the proposer. -/
def DecisionOk (d : Db) (decided : List (ℕ × Time × ℕ)) (a : Approval) : Prop :=
  ∃ row, Latest d a.planId row ∧ a.planHash = row.planHash ∧
    (∃ t k x, (a.planId, t, k) ∈ decided ∧ row.expiresAt = some x ∧ t < x) ∧
    (a.decision = .approve → a.approver ≠ row.proposedBy)

/-- A plan that timed out did so by its own job, as the last plan of its incident, with no decision
on it; the audit row of the timeout is there. -/
def TimeoutOk (d : Db) (p : ℕ) : Prop :=
  HasJob d .approvalTimeout p ∧ Undecided d p ∧
    ∃ row, Latest d p row ∧ row.verdict = .requireApproval ∧ TimedOut d row.incidentId

/-! What the jobs that decide on a plan leave behind when they lose a race. -/

/-- Nothing is submitted, decided or enqueued, and no incident changes. Audit rows, if any, are about jobs. -/
structure Untouched (d e : Db) : Prop where
  incidents : e.incidents = d.incidents
  plans : e.plans = d.plans
  approvals : e.approvals = d.approvals
  jobs : e.jobs.size = d.jobs.size
  audit : ∃ l, e.audit = d.audit ++ l ∧ ∀ x ∈ l, ∃ n, x.subject = .job n

def MovesOn (id : ℕ) (d e : Db) : Prop :=
  ∃ i j, d.incidents.get? id = some i ∧ e.incidents.get? id = some j ∧ i.version < j.version

theorem Untouched.refl (d : Db) : Untouched d d := ⟨rfl, rfl, rfl, rfl, [], by simp⟩

theorem Untouched.trans {d e f : Db} (h : Untouched d e) (h' : Untouched e f) : Untouched d f where
  incidents := h'.incidents.trans h.incidents
  plans := h'.plans.trans h.plans
  approvals := h'.approvals.trans h.approvals
  jobs := h'.jobs.trans h.jobs
  audit := by
    obtain ⟨l, hl, hlj⟩ := h.audit
    obtain ⟨m, hm, hmj⟩ := h'.audit
    exact ⟨l ++ m, by rw [hm, hl, List.append_assoc], fun x hx => (List.mem_append.mp hx).elim (hlj x) (hmj x)⟩

namespace Tx

variable {α β : Type} {id : ℕ}

/-- Every commit of the transaction moves the incident on. -/
def Moves (id : ℕ) (x : Tx α) : Prop := ∀ d a e, x.run d = .ok (a, e) → MovesOn id d e

/-- No commit of the transaction takes the incident back. -/
def Grows (id : ℕ) (x : Tx α) : Prop := ∀ d a e, x.run d = .ok (a, e) → ∀ i, d.incidents.get? id = some i →
  ∃ j, e.incidents.get? id = some j ∧ i.version ≤ j.version

def Still (x : Tx α) : Prop := ∀ d a e, x.run d = .ok (a, e) → e.incidents = d.incidents

theorem Still.grows {x : Tx α} (h : Still x) : Grows id x := fun d a e hr i hi =>
  ⟨i, by rw [h d a e hr]; exact hi, le_rfl⟩

theorem Moves.after {x : Tx α} {f : α → Tx β} (h : Still x) (hf : ∀ a, Moves id (f a)) : Moves id (x >>= f) :=
  fun d b e hr => by
    obtain ⟨a, m, h1, h2⟩ := Tx.bind_ok.mp hr
    obtain ⟨i, j, hi, hj, hv⟩ := hf a m b e h2
    exact ⟨i, j, by rw [← h d a m h1]; exact hi, hj, hv⟩

theorem Moves.bind {x : Tx α} {f : α → Tx β} (h : Moves id x) (hf : ∀ a, Grows id (f a)) : Moves id (x >>= f) :=
  fun d b e hr => by
    obtain ⟨a, m, h1, h2⟩ := Tx.bind_ok.mp hr
    obtain ⟨i, j, hi, hj, hv⟩ := h d a m h1
    obtain ⟨k, hk, hjk⟩ := hf a m b e h2 j hj
    exact ⟨i, k, hi, hk, hv.trans_le hjk⟩

theorem Grows.bind {x : Tx α} {f : α → Tx β} (h : Grows id x) (hf : ∀ a, Grows id (f a)) : Grows id (x >>= f) :=
  fun d b e hr i hi => by
    obtain ⟨a, m, h1, h2⟩ := Tx.bind_ok.mp hr
    obtain ⟨j, hj, hij⟩ := h d a m h1 i hi
    obtain ⟨k, hk, hjk⟩ := hf a m b e h2 j hj
    exact ⟨k, hk, hij.trans hjk⟩

theorem Still.pure (a : α) : Still (Pure.pure a : Tx α) := fun d b e h => by
  obtain ⟨-, rfl⟩ := Tx.pure_ok.mp h
  rfl

theorem Still.append {x : AuditEntry} : Still (Tx.append x) := fun d u e h => by
  obtain rfl := Tx.append_ok.mp h
  rfl

theorem Still.assertFence {job : Job} : Still (Tx.assertFence job) := fun d u e h => by
  obtain ⟨-, rfl⟩ := Tx.assertFence_ok h
  rfl

theorem Still.insertPlan {p : PlanRow} : Still (Tx.insertPlan p) := fun d n e h => by
  obtain ⟨-, rfl⟩ := Tx.insertPlan_ok h
  rfl

theorem Still.enqueue {now : Time} {x : Enqueue} : Still (Tx.enqueue now x) := fun d o e h => by
  rcases Tx.enqueue_ok h with ⟨-, rfl⟩ | ⟨-, rfl⟩ <;> rfl

theorem Moves.transition {now : Time} {m : Transition} : Moves m.incident (Tx.transition now m) := fun d v e h => by
  obtain ⟨i, -, -, -, -, hw⟩ := transition_walk h
  exact ⟨i, _, hw.moved.before, hw.moved.after, hw.moved.version⟩

theorem Grows.transition {now : Time} {m : Transition} : Grows id (Tx.transition now m) := fun d v e h i hi => by
  obtain ⟨j, -, -, -, -, hw⟩ := transition_walk h
  by_cases hid : id = m.incident
  · subst hid
    obtain rfl : i = j := Option.some.inj (hi.symm.trans hw.moved.before)
    exact ⟨_, hw.moved.after, hw.moved.version.le⟩
  · exact ⟨i, by rw [← hi]; exact hw.moved.others id hid, le_rfl⟩

end Tx

/-- All or nothing: a step moves the incident on, or leaves it and what is decided on it alone. -/
def AllOrNothing (id : ℕ) (c c' : Core) : Prop := MovesOn id c.db c'.db ∨ Untouched c.db c'.db

section Deciding

variable {α : Type} {ctx : JobContext} {id : ℕ}

theorem look_atomic (f : Input → Core → Except Err α) : Keeps (AllOrNothing id) (look f) := by
  refine .lift fun i c => ?_
  split <;> exact Or.inr (.refl c.db)

theorem commit_atomic {body : Input → Tx α} {note : Input → α → Core → Hist}
    (h : ∀ i d a e, (body i).run d = .ok (a, e) → MovesOn id d e ∨ Untouched d e) :
    Keeps (AllOrNothing id) (commit body note) := by
  refine .lift fun i c => ?_
  dsimp only
  rcases hrun : (body i).run c.db with e | ⟨a, d⟩
  · exact Or.inr (.refl c.db)
  · dsimp only
    split
    · exact h i c.db a d hrun
    · split_ifs
      · exact h i c.db a d hrun
      · exact Or.inr (.refl c.db)

theorem fenced_atomic {body : Input → Tx α} {note : Input → α → Core → Hist} (h : ∀ i, Tx.Moves id (body i)) :
    Keeps (AllOrNothing id) (ctx.commit body note) :=
  commit_atomic fun i d a e hr => Or.inl (Tx.Moves.after .assertFence (fun _ => h i) d a e hr)

theorem submitted_moves {now : Time} {settings : Settings} {incident : Incident} {row : PlanRow} {decision : Decision}
    {actor : Actor} : Tx.Moves id (Flow.submitted now settings id incident row decision actor) := by
  unfold Flow.submitted
  refine .after .insertPlan fun planId => .after .append fun _ => .bind .transition fun _ =>
    .bind .transition fun _ => ?_
  split
  · exact .bind .transition fun _ => (Tx.Still.pure _).grows
  · exact .bind .transition fun _ => .bind Tx.Still.enqueue.grows fun _ => (Tx.Still.pure _).grows
  · exact .bind .transition fun _ => .bind Tx.Still.enqueue.grows fun _ => (Tx.Still.pure _).grows

theorem plan_atomic (hid : ctx.job.incidentId = some id) : Keeps (AllOrNothing id) (Handlers.plan sha256 ctx) := by
  unfold Handlers.plan
  rw [hid]
  refine .bind (look_atomic _) fun incident => ?_
  split
  · exact .throw _
  · split_ifs
    · exact .pure _
    · refine .bind (look_atomic _) fun dx => .bind ?_ fun proposal => .bind (look_atomic _) fun _ =>
        .bind (look_atomic _) fun incident => ?_
      · unfold Handlers.propose
        split
        · exact .pure _
        · exact look_atomic _
      · split
        · exact .pure _
        · split_ifs
          · exact .pure _
          · split
            · exact fenced_atomic fun i => .bind .transition fun _ => (Tx.Still.pure _).grows
            · refine .bind (.bind (.bind (look_atomic _) fun _ => .bind (look_atomic _) fun _ => .pure _) fun _ =>
                .bind (look_atomic _) fun _ => .bind (look_atomic _) fun _ => fenced_atomic fun _ => submitted_moves)
                fun _ => .pure _

theorem approvalTimeout_atomic (hid : ctx.job.incidentId = some id) :
    Keeps (AllOrNothing id) (Handlers.approvalTimeout ctx) := by
  unfold Handlers.approvalTimeout
  rw [hid]
  refine .bind (look_atomic _) fun _ => .bind (look_atomic _) fun incident => ?_
  split
  · exact .pure _
  · split_ifs
    · exact .pure _
    · refine .bind (look_atomic _) fun current => ?_
      split
      · exact .pure _
      · split_ifs
        · exact .pure _
        · refine .bind (look_atomic _) fun decided => ?_
          split_ifs
          · exact .pure _
          · exact fenced_atomic fun i => .bind .transition fun _ => (Tx.Still.pure _).grows

/-! The end of the attempt changes its own job only. -/

theorem complete_untouched {now : Time} {job : Job} {d e : Db} {u : Unit}
    (h : (Tx.complete now job).run d = .ok (u, e)) : Untouched d e := by
  unfold Tx.complete Tx.run StateT.run at h
  dsimp only at h
  rcases hc : Jobs.complete now job d.jobs with x | jobs <;> rw [hc] at h
  · cases h
  · cases h
    obtain ⟨-, rfl⟩ := Jobs.finish_ok.mp hc
    exact ⟨rfl, rfl, rfl, Table.size_modify _ _ _, [], by simp⟩

theorem release_untouched {now : Time} {job : Job} {d e : Db} {u : Unit}
    (h : (Tx.release now job).run d = .ok (u, e)) : Untouched d e := by
  unfold Tx.release Tx.run StateT.run at h
  dsimp only at h
  rcases hc : Jobs.release now job d.jobs with x | jobs <;> rw [hc] at h
  · cases h
  · cases h
    obtain ⟨-, rfl⟩ := Jobs.finish_ok.mp hc
    exact ⟨rfl, rfl, rfl, Table.size_modify _ _ _, [], by simp⟩

theorem fail_untouched {now jitter : Time} {job : Job} {error : String} {retryable : Bool} {settings : Settings}
    {d e : Db} {s : Status} (h : (Tx.fail now job error retryable settings jitter).run d = .ok (s, e)) :
    Untouched d e := by
  unfold Tx.fail Tx.run StateT.run at h
  dsimp only at h
  rcases hc : Jobs.fail now job error retryable settings.queueBackoffBaseS settings.queueBackoffMaxS jitter d.jobs with
    x | ⟨jobs, st⟩ <;> rw [hc] at h
  · cases h
  · cases h
    obtain ⟨r, -, -, -, rfl⟩ := Jobs.fail_ok hc
    exact ⟨rfl, rfl, rfl, Table.size_modify _ _ _, [], by simp⟩

theorem fail_atomic {e : Err} {retryable : Bool} : Keeps (AllOrNothing id) (Worker.fail ctx e retryable) := by
  unfold Worker.fail
  refine .bind (.attempt (commit_atomic fun i d a e' hr => Or.inr ?_)) fun result => ?_
  · obtain ⟨status, m, h1, h2⟩ := Tx.bind_ok.mp hr
    refine (fail_untouched h1).trans ?_
    split_ifs at h2
    · obtain rfl := Tx.append_ok.mp h2
      exact ⟨rfl, rfl, rfl, rfl, [_], rfl, fun x hx => ⟨ctx.job.id, by rw [List.mem_singleton.mp hx]; rfl⟩⟩
    · obtain ⟨-, rfl⟩ := Tx.pure_ok.mp h2
      exact .refl _
  · split
    · exact .pure _
    · exact .pure _
    · exact .throw _

theorem execute_atomic {handler : Option (JobContext → Handler Unit)}
    (h : ∀ f, handler = some f → Keeps (AllOrNothing id) (f ctx)) :
    Keeps (AllOrNothing id) (Worker.execute ctx handler) := by
  unfold Worker.execute
  refine .bind (.attempt ?_) fun r => ?_
  · rcases handler with _ | f
    · exact .throw_bind _ _
    · exact .bind (h f rfl) fun _ => commit_atomic fun i d a e hr => Or.inr (complete_untouched hr)
  · split
    · exact .pure _
    · exact .pure _
    · exact .pure _
    · exact .bind (.bind (.attempt (commit_atomic fun i d a e hr => Or.inr (release_untouched hr))) fun _ => .pure _)
        fun _ => .throw _
    · exact fail_atomic
    · exact fail_atomic

end Deciding

/-- The kinds of job that submit a plan, or give one up. -/
def Kind.Decides (kind : Kind) : Prop := kind = .plan ∨ kind = .approvalTimeout

theorem attempt_atomic (p : Process) (job : Job) :
    Within (fun _ c c' => job.kind.Decides → ∀ id, job.incidentId = some id → AllOrNothing id c c') (fun _ _ => True) []
      (attemptProgram sha256 p job) := by
  by_cases hkind : job.kind.Decides
  · cases hid : job.incidentId with
    | none => exact Within.trivial fun _ _ _ _ _ h => by cases h
    | some id =>
      have hexec : Keeps (AllOrNothing id)
          (Worker.execute ⟨job, p.settings, p.workerId⟩ (p.handler sha256 job.kind)) := by
        refine execute_atomic fun f hf => ?_
        unfold Process.handler at hf
        rcases hkind with hkind | hkind <;> rw [hkind] at hf <;> split_ifs at hf <;> cases hf
        · exact plan_atomic hid
        · exact approvalTimeout_atomic hid
      refine Within.of_always (fun _ c c' _ h _ id' hid' => ?_)
        (Keeps.bind (k := fun _ => pure Response.settled) hexec fun _ => .pure _)
      cases hid'
      exact h
  · exact Within.trivial fun _ _ _ h => absurd h hkind

/-- Of the actions of such a job, the one that moves the incident on has done all of its work; the others none. -/
theorem job_atomic (h : Reaches sha256 steps c) {a : Attempt} {i : Input} {c' : World}
    (hs : (system sha256).step c (.act (.job a) i) = some c') {r : JobRow} {id : ℕ}
    (hr : c.shared.db.jobs.get? a.job = some r) (hk : r.kind.Decides) (hid : r.incidentId = some id) :
    AllOrNothing id c.shared c'.shared := by
  obtain ⟨p, job, M, -, rfl, hknows, -, hterms⟩ := act_claimed attempt_atomic h hs
  obtain ⟨r', hr', -, hkind, hinc, -⟩ := hknows.row
  obtain rfl : r = r' := Option.some.inj (hr.symm.trans hr')
  exact hterms (hkind ▸ hk) id (hinc.symm.trans hid)

/-- The decisions on a plan. It comes to one outcome at most, and is executed if it was allowed or
approved; who decides does so on the last plan, in time; and who is refused or loses a race leaves
nothing behind, whether it is a call or a job. -/
theorem plan_decisions (h : Reaches sha256 steps c) :
    (∀ p row x y, c.shared.db.plans.get? p = some row → HasOutcome c.shared.db c.shared.hist p row x →
      HasOutcome c.shared.db c.shared.hist p row y → x = y) ∧
    (∀ p row, c.shared.db.plans.get? p = some row → (HasExecute c.shared.db p ↔
      HasOutcome c.shared.db c.shared.hist p row .allowed ∨ HasOutcome c.shared.db c.shared.hist p row .approved)) ∧
    (∀ n a, c.shared.db.approvals.get? n = some a → DecisionOk c.shared.db c.shared.hist.decided a) ∧
    (∀ p ∈ c.shared.hist.timedOut, TimeoutOk c.shared.db p) ∧
    (∀ id, TimedOut c.shared.db id → ∃ p ∈ c.shared.hist.timedOut, ∃ row, c.shared.db.plans.get? p = some row ∧
      row.incidentId = id) ∧
    -- an action of a call that is refused, or loses a race, leaves the database as it was
    (∀ n e, c.threads (.request n) = some (.live (.ret (.error e))) → (∀ x : Fault, e ≠ x.err) →
      ∀ before i after c₁ c₂, steps = before ++ .act (.request n) i :: after → Reaches sha256 before c₁ →
        (system sha256).step c₁ (.act (.request n) i) = some c₂ → c₂.shared.db = c₁.shared.db) ∧
    -- an action of a plan job or a timeout job that does not move its incident on leaves it alone
    ∀ a i c', (system sha256).step c (.act (.job a) i) = some c' → ∀ r id, c.shared.db.jobs.get? a.job = some r →
      r.kind.Decides → r.incidentId = some id →
      MovesOn id c.shared.db c'.shared.db ∨ Untouched c.shared.db c'.shared.db := by
  refine ⟨fun p row x y hp => h.inv.plans.outcome_unique hp, fun p row hp => h.inv.plans.execute_iff hp,
    fun n a ha => ?_,
    fun p hp => ?_, fun id ht => ?_, fun n e hret hfault before i after c₁ c₂ hsteps h₁ hs => ?_,
    fun a i c' hs r id hr hk hid => job_atomic h hs hr hk hid⟩
  · obtain ⟨row, i, ho⟩ := h.inv.plans.approval n a ha
    refine ⟨row, ho.latest, ho.hash, ho.inTime, fun hdec => ?_⟩
    have hset := ho.settles
    unfold Settles at hset
    simp only [hdec] at hset
    exact hset.1
  · obtain ⟨hj, row, hl, -⟩ := h.inv.plans.times.plan p hp
    obtain ⟨hv, -, hu, ht⟩ := h.inv.plans.timed_row hl.1 hp
    exact ⟨hj, hu, row, hl, hv, ht⟩
  · obtain ⟨-, -, -, p, hp, row, hl, hid, -⟩ := h.inv.plans.times.incident id ht
    exact ⟨p, hp, row, hl.1, hid⟩
  · have hunwritten : n ∉ c.shared.hist.wrote := h.good.returned hret hfault
    have hg : Guar (.request n) c₁.shared c₂.shared := h₁.good.guar hs
    refine (hg.wrote n rfl).resolve_right fun hw => hunwritten ?_
    have h₂ : Reaches sha256 (before ++ [.act (.request n) i]) c₂ := h₁.step hs
    subst hsteps
    rw [show before ++ Choice.act (Caller.request n) i :: after = (before ++ [.act (.request n) i]) ++ after by
      simp] at h
    obtain ⟨u, hu, hrest⟩ := (Runs.run_append _).mp h
    obtain rfl : c₂ = u := Option.some.inj (h₂.symm.trans hu)
    exact (run_evolves h₂.good hrest).wrote hw

theorem Sample.approving_runs : (Runs.run (system id).step (system id).start approving).isSome := by decide +kernel

/-- The plan is revised while it waits; the job of the first plan finds it superseded, the job of the second gives up.
-/
def Sample.expiring : List Step :=
  planned (settings .R1) restart cluster ++ [.env (.request 1 (.revise "t" 0 "ann" restart (settings .R1)))] ++
    acts (.request 1) (plain 6 1) ++ [claim (worker (settings .R1)) 2000] ++ acts (.job ⟨3, 1⟩) (plain 4 2000) ++
    [claim (worker (settings .R1)) 2000] ++ acts (.job ⟨4, 1⟩) (plain 6 2000)

theorem Sample.expiring_runs : (Runs.run (system id).step (system id).start expiring).isSome := by decide +kernel

theorem plan_decisions_runs :
    (∃ a, (Sample.worldOf _ Sample.approving_runs).shared.db.approvals.get? 0 = some a ∧
      DecisionOk (Sample.worldOf _ Sample.approving_runs).shared.db
        (Sample.worldOf _ Sample.approving_runs).shared.hist.decided a) ∧
    TimeoutOk (Sample.worldOf _ Sample.expiring_runs).shared.db 1 ∧
    ∃ row, (Sample.worldOf _ Sample.expiring_runs).shared.db.plans.get? 0 = some row ∧
      ∀ x, HasOutcome (Sample.worldOf _ Sample.expiring_runs).shared.db
        (Sample.worldOf _ Sample.expiring_runs).shared.hist 0 row x ↔ x = .superseded := by
  refine ⟨?_, ?_, ?_⟩
  · have hsome : ((Sample.worldOf _ Sample.approving_runs).shared.db.approvals.get? 0).isSome := by decide +kernel
    obtain ⟨a, ha⟩ := Option.isSome_iff_exists.mp hsome
    exact ⟨a, ha, (plan_decisions (Sample.reaches Sample.approving_runs)).2.2.1 0 a ha⟩
  · have htimed : (Sample.worldOf _ Sample.expiring_runs).shared.hist.timedOut = [1] := by decide +kernel
    exact (plan_decisions (Sample.reaches Sample.expiring_runs)).2.2.2.1 1 (htimed ▸ List.mem_singleton_self 1)
  · have hseqs : ((Sample.worldOf _ Sample.expiring_runs).shared.db.plans.get? 0).map (fun r => (r.incidentId, r.seq)) =
          some (0, 1) ∧
        ((Sample.worldOf _ Sample.expiring_runs).shared.db.plans.get? 1).map (fun r => (r.incidentId, r.seq)) =
          some (0, 2) := by decide +kernel
    obtain ⟨row, hrow, hseq⟩ := Option.map_eq_some_iff.mp hseqs.1
    obtain ⟨r, hr, hseq'⟩ := Option.map_eq_some_iff.mp hseqs.2
    obtain ⟨h1, h2⟩ := Prod.mk.inj hseq
    obtain ⟨h3, h4⟩ := Prod.mk.inj hseq'
    have hsuper : Superseded (Sample.worldOf _ Sample.expiring_runs).shared.db 0 :=
      ⟨row, 1, r, hrow, hr, h3.trans h1.symm, by omega⟩
    refine ⟨row, hrow, fun x => ⟨fun hx => ?_, fun hx => hx ▸ hsuper⟩⟩
    exact (plan_decisions (Sample.reaches Sample.expiring_runs)).1 0 row x .superseded hrow hx hsuper

end Blackboard
