import Blackboard.Proofs.Moves

/-! A plan is submitted, or decided on. Both move the incident and add a job in one
transaction; the incident's version says that its plans are those that were read. -/

namespace Blackboard

open Threads

/-- Where a verdict takes the incident, and the job it is followed by. -/
def Verdict.outcome : Verdict → State
  | .allow => .executing
  | .requireApproval => .awaitingApproval
  | .deny => .escalated

def Verdict.job : Verdict → Option Kind
  | .allow => some .execute
  | .requireApproval => some .approvalTimeout
  | .deny => none

/-- What is known of a row of the jobs table that a flow transaction inserts. -/
structure PlanJob (r : JobRow) (k : Kind) (p id : ℕ) : Prop where
  kind : r.kind = k
  incident : r.incidentId = some id
  payload : r.payload.planId = some p
  key : r.idempotencyKey = some (.plan p k)
  status : r.status = .queued

theorem PlanJob.rowOf (now : Time) (id p : ℕ) (i : Incident) (kind : Kind) (settings : Settings) (delay : Time) :
    PlanJob (Jobs.rowOf now (Flow.job id i kind p settings delay)) kind p id := ⟨rfl, rfl, rfl, rfl, rfl⟩

theorem PlanJob.ok {e : Db} {r : JobRow} {kind : Kind} {p id : ℕ} {j : Incident} {row : PlanRow}
    (h : PlanJob r kind p id) (ho : kind.ofPlan = true) (hj : e.incidents.get? id = some j)
    (hr : kind.since ≤ j.state.rank) (hp : e.plans.get? p = some row) (hi : row.incidentId = id) : JobOk e r :=
  ⟨id, j, h.incident, hj, by rw [h.kind]; exact hr,
    Or.inr ⟨by rw [h.kind]; exact ho, p, row, h.payload, by rw [h.kind]; exact h.key, hp, hi⟩⟩

/-- Everything `submitted` did. -/
structure Submitted (d e : Db) (id : ℕ) (i j : Incident) (row : PlanRow) (v : Verdict) (l : List AuditEntry) :
    Prop where
  moved : Moved d e id i j
  open_ : i.state.rank < 9
  outcome : j.state = v.outcome
  plans : e.plans = d.plans.insert row
  approvals : e.approvals = d.approvals
  executions : e.executions = d.executions
  appends : Appends d e l
  noTimeout : ∀ x ∈ l, ∀ n, ¬ x.TimesOut n
  jobs : (v.job = none ∧ e.jobs = d.jobs) ∨ ∃ kind r, v.job = some kind ∧ PlanJob r kind d.plans.size id ∧
    e.jobs = d.jobs.insert r

theorem JobsOk.fresh_submitted {d : Db} (h : JobsOk d) (kind : Kind) :
    Jobs.keyTaken d.jobs (some (.plan d.plans.size kind)) = false :=
  h.fresh_plan fun row i hrow _ => by
    rw [Table.get?_size] at hrow
    cases hrow

theorem enqueue_plan {now : Time} {id p : ℕ} {i : Incident} {kind : Kind} {settings : Settings} {delay : Time}
    {d e : Db} {o : Option ℕ} (h : (Flow.enqueue now id i kind p settings delay).run d = .ok (o, e))
    (hf : Jobs.keyTaken d.jobs (some (.plan p kind)) = false) :
    ∃ r, PlanJob r kind p id ∧ e = { d with jobs := d.jobs.insert r } := by
  rcases Tx.enqueue_ok h with ⟨ht, -⟩ | ⟨-, rfl⟩
  · rw [show (Flow.job id i kind p settings delay).idempotencyKey = some (.plan p kind) from rfl, hf] at ht
    cases ht
  · exact ⟨_, .rowOf now id p i kind settings delay, rfl⟩

theorem submitted_ok {now : Time} {settings : Settings} {id p : ℕ} {incident : Incident} {row : PlanRow}
    {decision : Decision} {actor : Actor} {d e : Db} {st : State} (hjobs : JobsOk d)
    (h : (Flow.submitted now settings id incident row decision actor).run d = .ok ((p, st), e)) :
    ∃ i j l, Submitted d e id i j row decision.verdict l ∧ i.state = incident.state ∧
      i.version = incident.version := by
  unfold Flow.submitted at h
  obtain ⟨p, d1, h1, h⟩ := Tx.bind_ok.mp h
  obtain ⟨rfl, rfl⟩ := Tx.insertPlan_ok h1
  obtain ⟨u, d2, h2, h⟩ := Tx.bind_ok.mp h
  obtain rfl := Tx.append_ok.mp h2
  obtain ⟨v1, d3, h3, h⟩ := Tx.bind_ok.mp h
  obtain ⟨v2, d4, h4, h⟩ := Tx.bind_ok.mp h
  obtain ⟨i, hst, hver, rfl, hopen, hw3⟩ := transition_walk h3
  obtain ⟨rfl, hw4⟩ := hw3.transition h4 rfl
  cases hv : decision.verdict with
  | deny =>
    simp only [hv] at h
    obtain ⟨v3, d5, h5, h⟩ := Tx.bind_ok.mp h
    obtain ⟨-, hw5⟩ := hw4.transition h5 rfl
    obtain ⟨-, rfl⟩ := Tx.pure_ok.mp h
    have hr := hw5.rest
    refine ⟨i, _, _, ⟨⟨hw5.moved.1, hw5.moved.2, hw5.moved.3, hw5.moved.4⟩, hopen, rfl, by rw [hr], by rw [hr],
      by rw [hr], ⟨by rw [hr, List.append_assoc], ?_⟩, ?_, Or.inl ⟨rfl, by rw [hr]⟩⟩, hst, hver⟩
    · simp [Incidents.transitionEntry, Event.outcome]
    · simp [Incidents.transitionEntry, AuditEntry.TimesOut]
  | requireApproval =>
    simp only [hv] at h
    obtain ⟨v3, d5, h5, h⟩ := Tx.bind_ok.mp h
    obtain ⟨o, d6, h6, h⟩ := Tx.bind_ok.mp h
    obtain ⟨-, hw5⟩ := hw4.transition h5 rfl
    have hr := hw5.rest
    obtain ⟨r, hjob, rfl⟩ := enqueue_plan h6 (by rw [hr]; exact hjobs.fresh_submitted _)
    obtain ⟨-, rfl⟩ := Tx.pure_ok.mp h
    refine ⟨i, _, _, ⟨⟨hw5.moved.1, hw5.moved.2, hw5.moved.3, hw5.moved.4⟩, hopen, rfl, by rw [hr], by rw [hr],
      by rw [hr], ⟨by rw [hr, List.append_assoc], ?_⟩, ?_, Or.inr ⟨_, r, rfl, hjob, by rw [hr]⟩⟩, hst, hver⟩
    · simp [Incidents.transitionEntry, Event.outcome]
    · simp [Incidents.transitionEntry, AuditEntry.TimesOut]
  | allow =>
    simp only [hv] at h
    obtain ⟨v3, d5, h5, h⟩ := Tx.bind_ok.mp h
    obtain ⟨o, d6, h6, h⟩ := Tx.bind_ok.mp h
    obtain ⟨-, hw5⟩ := hw4.transition h5 rfl
    have hr := hw5.rest
    obtain ⟨r, hjob, rfl⟩ := enqueue_plan h6 (by rw [hr]; exact hjobs.fresh_submitted _)
    obtain ⟨-, rfl⟩ := Tx.pure_ok.mp h
    refine ⟨i, _, _, ⟨⟨hw5.moved.1, hw5.moved.2, hw5.moved.3, hw5.moved.4⟩, hopen, rfl, by rw [hr], by rw [hr],
      by rw [hr], ⟨by rw [hr, List.append_assoc], ?_⟩, ?_, Or.inr ⟨_, r, rfl, hjob, by rw [hr]⟩⟩, hst, hver⟩
    · simp [Incidents.transitionEntry, Event.outcome]
    · simp [Incidents.transitionEntry, AuditEntry.TimesOut]

/-! Before an incident is executed, nothing was decided on its plans. -/

section Open

variable {d : Db} {k : Hist} {id : ℕ} {i : Incident}

theorem PlansOk.open_verdict (h : PlansOk d k) (hi : d.incidents.get? id = some i) (hr : i.state.rank < 7)
    {p : ℕ} {row : PlanRow} (hp : d.plans.get? p = some row) (hid : row.incidentId = id) :
    row.verdict = .requireApproval := by
  cases hv : row.verdict with
  | requireApproval => rfl
  | allow =>
    obtain ⟨-, hrank, -⟩ := h.allowed p row i hp (hid ▸ hi) hv
    omega
  | deny =>
    obtain ⟨-, hst⟩ := h.denied p row i hp (hid ▸ hi) hv
    rw [hst] at hr
    exact absurd hr (by decide)

theorem ApprovalOk.not_open (hi : d.incidents.get? id = some i) (hr : i.state.rank < 7) {a : Approval}
    {row : PlanRow} {j : Incident} (ho : ApprovalOk d k.decided a row j) : row.incidentId ≠ id := by
  intro hid
  obtain rfl : i = j := Option.some.inj (hi.symm.trans (hid ▸ ho.incident))
  have hs := ho.settles
  unfold Settles at hs
  cases hdec : a.decision with
  | approve =>
    simp only [hdec] at hs
    omega
  | reject =>
    simp only [hdec] at hs
    rw [hs] at hr
    exact absurd hr (by decide)

theorem PlansOk.open_time (h : PlansOk d k) (hi : d.incidents.get? id = some i) (hr : i.state.rank < 7) :
    ¬ TimedOut d id := by
  intro ht
  obtain ⟨j, hj, hst, -⟩ := h.times.incident id ht
  obtain rfl : i = j := Option.some.inj (hi.symm.trans hj)
  rw [hst] at hr
  exact absurd hr (by decide)

end Open

theorem seq_le_maxSeq {d : Db} {id p : ℕ} {row : PlanRow} (hp : d.plans.get? p = some row)
    (hid : row.incidentId = id) : row.seq ≤ d.maxSeq id := by
  have hmem : (p, row) ∈ d.plans.select fun _ r => r.incidentId = id :=
    Table.mem_select.mpr ⟨hp, by simp [hid]⟩
  unfold Db.maxSeq
  cases hc : d.currentPlan id with
  | none =>
    rw [List.argmax_eq_none.mp hc] at hmem
    cases hmem
  | some x => exact List.le_of_mem_argmax (f := fun x : ℕ × PlanRow => x.2.seq) hmem hc

theorem Submitted.later {d e : Db} {id : ℕ} {i j : Incident} {row : PlanRow} {v : Verdict} {l : List AuditEntry}
    (h : Submitted d e id i j row v l) (hid : row.incidentId = id) (hr : i.state.rank < 7)
    (hrank : i.state.rank ≤ j.state.rank) : d.Later e where
  incidents := h.moved.keeps (by omega) hrank
  jobs := by
    rcases h.jobs with ⟨-, hj⟩ | ⟨-, r, -, -, hj⟩
    · rw [hj]; exact .refl JobRow.Later.refl _
    · rw [hj]; exact .insert JobRow.Later.refl _ r
  plans := by rw [h.plans]; exact .insert (fun _ => rfl) _ row
  planned n x y hx hy hv := by
    have hne : n ≠ id := by
      rintro rfl
      have := h.moved.version
      obtain rfl : x = i := Option.some.inj (hx.symm.trans h.moved.before)
      obtain rfl : y = j := Option.some.inj (hy.symm.trans h.moved.after)
      omega
    unfold Db.currentPlan
    rw [h.plans, Table.select_insert, if_neg (by simp [hid, Ne.symm hne]), List.append_nil]
  approvals := by rw [h.approvals]; exact .refl (fun _ => rfl) _
  executions := by rw [h.executions]; exact .refl Execution.Later.refl _
  audit := h.appends.kept

/-! What an incident's own plans say does not bear on those of another. -/

theorem Latest.insert {d e : Db} {p : ℕ} {r row : PlanRow} (h : Latest d p r) (he : e.plans = d.plans.insert row)
    (hne : row.incidentId ≠ r.incidentId) : Latest e p r := by
  refine ⟨by rw [he]; exact Table.get?_insert_of_some _ h.1, fun q s hq hs => ?_⟩
  rw [he, Table.get?_insert] at hq
  split_ifs at hq
  · obtain rfl := Option.some.inj hq
    exact absurd hs hne
  · exact h.2 q s hq hs

theorem Latest.new {d e : Db} {row : PlanRow} (he : e.plans = d.plans.insert row)
    (hseq : row.seq = 1 + d.maxSeq row.incidentId) : Latest e d.plans.size row := by
  refine ⟨by rw [he, Table.get?_insert, if_pos rfl], fun q s hq hs => ?_⟩
  rw [he, Table.get?_insert] at hq
  split_ifs at hq
  · obtain rfl := Option.some.inj hq
    exact le_rfl
  · have := seq_le_maxSeq hq hs
    omega

theorem Undecided.of_approvals {d e : Db} {p : ℕ} (h : Undecided d p) (ha : e.approvals = d.approvals) :
    Undecided e p := by
  unfold Undecided
  rw [ha]
  exact h

theorem Submitted.plansOk {d e : Db} {k k' : Hist} {id : ℕ} {i j : Incident} {row : PlanRow}
    {v : Verdict} {l : List AuditEntry} (h : Submitted d e id i j row v l) (hp : PlansOk d k)
    (hk : k.decided ⊆ k'.decided) (ht : k'.timedOut = k.timedOut) (hid : row.incidentId = id) (hr : i.state.rank < 7)
    (hl : d.Later e) (hrank : 6 ≤ j.state.rank) (hseq : row.seq = 1 + d.maxSeq id) (hv : row.verdict = v)
    (hexp : v = .requireApproval → row.expiresAt.isSome) : PlansOk e k' := by
  have hi := h.moved.before
  have hplan : ∀ {p r}, e.plans.get? p = some r → p = d.plans.size ∧ r = row ∨ d.plans.get? p = some r := by
    intro p r hpr
    rw [h.plans, Table.get?_insert] at hpr
    split_ifs at hpr with hps
    · exact Or.inl ⟨hps, (Option.some.inj hpr).symm⟩
    · exact Or.inr hpr
  have hnew : Latest e d.plans.size row := Latest.new h.plans (by rw [hid]; exact hseq)
  have hold : ∀ {p r}, Latest d p r → r.incidentId ≠ id → Latest e p r := fun hlat hne =>
    hlat.insert h.plans (by rw [hid]; exact Ne.symm hne)
  have hund : ∀ {p}, Undecided d p → Undecided e p := fun hu => hu.of_approvals h.approvals
  have hundNew : Undecided e d.plans.size := by
    intro n a ha hap
    rw [h.approvals] at ha
    obtain ⟨r, x, ho⟩ := hp.approval n a ha
    have := ho.latest.1
    rw [hap, Table.get?_size] at this
    cases this
  have hother : ∀ {n x}, n ≠ id → e.incidents.get? n = some x → d.incidents.get? n = some x := fun hn hx => by
    rw [← h.moved.others _ hn, hx]
  refine ⟨?_, ?_, ?_, ?_, ?_, ?_, ?_, ?_, ?_, ?_⟩
  · intro p q r s hr' hs hinc hsq
    rcases hplan hr' with ⟨rfl, rfl⟩ | hr'
    · rcases hplan hs with ⟨rfl, -⟩ | hs
      · rfl
      · have := seq_le_maxSeq hs (hinc.symm.trans hid)
        omega
    · rcases hplan hs with ⟨rfl, rfl⟩ | hs
      · have := seq_le_maxSeq hr' (hinc.trans hid)
        omega
      · exact hp.seqs p q r s hr' hs hinc hsq
  · intro p r hpr
    rcases hplan hpr with ⟨-, rfl⟩ | hpr
    · exact ⟨j, by rw [hid]; exact h.moved.after, hrank⟩
    · obtain ⟨x, hx, hxr⟩ := hp.incident p r hpr
      obtain ⟨y, hy, hxy⟩ := hl.incidents _ _ hx
      exact ⟨y, hy, hxr.trans hxy.rank⟩
  · intro p r hpr hvr
    rcases hplan hpr with ⟨-, rfl⟩ | hpr
    · exact hexp (hv.symm.trans hvr)
    · exact hp.expires p r hpr hvr
  · intro p r x hpr hx hvr
    rcases hplan hpr with ⟨rfl, rfl⟩ | hpr
    · obtain rfl : x = j := Option.some.inj (hx.symm.trans (hid ▸ h.moved.after))
      rw [hv] at hvr
      subst hvr
      refine ⟨hnew, by rw [h.outcome]; decide, ?_⟩
      rcases h.jobs with ⟨hn, -⟩ | ⟨kind, s, hkind, hjob, hj⟩
      · cases hn
      · cases hkind
        exact ⟨d.jobs.size, s, by rw [hj, Table.get?_insert, if_pos rfl], hjob.kind, hjob.payload⟩
    · by_cases hne : r.incidentId = id
      · have := hp.open_verdict hi hr hpr hne
        rw [hvr] at this
        cases this
      · obtain ⟨hlat, hxr, hex⟩ := hp.allowed p r x hpr (hother hne hx) hvr
        exact ⟨hold hlat hne, hxr, hex.later hl⟩
  · intro p r x hpr hx hvr
    rcases hplan hpr with ⟨rfl, rfl⟩ | hpr
    · obtain rfl : x = j := Option.some.inj (hx.symm.trans (hid ▸ h.moved.after))
      rw [hv] at hvr
      subst hvr
      exact ⟨hnew, h.outcome⟩
    · by_cases hne : r.incidentId = id
      · have := hp.open_verdict hi hr hpr hne
        rw [hvr] at this
        cases this
      · obtain ⟨hlat, hst⟩ := hp.denied p r x hpr (hother hne hx) hvr
        exact ⟨hold hlat hne, hst⟩
  · intro n x hx hst
    rcases h.moved.cases hx with ⟨rfl, rfl⟩ | ⟨hn, hx'⟩
    · refine ⟨d.plans.size, row, hnew, hid, ?_, hundNew⟩
      rw [hv]
      have := h.outcome.symm.trans hst
      cases v <;> first | rfl | cases this
    · obtain ⟨p, r, hlat, hrn, hvr, hu⟩ := hp.waiting n x hx' hst
      exact ⟨p, r, hold hlat (hrn ▸ hn), hrn, hvr, hund hu⟩
  · intro n a ha
    rw [h.approvals] at ha
    obtain ⟨r, x, ho⟩ := hp.approval n a ha
    have hne := ho.not_open hi hr
    obtain ⟨y, hy, hxy⟩ := hl.incidents _ _ ho.incident
    obtain ⟨t, m, z, hmem, hz, hlt⟩ := ho.inTime
    exact ⟨r, y, hold ho.latest hne, hy, ho.verdict, ho.hash, ⟨t, m, z, hk hmem, hz, hlt⟩, ho.settles.later hl hxy⟩
  · rw [h.approvals]; exact hp.once
  · intro n s p hs hkind hpay
    have hOld : d.jobs.get? n = some s → ∃ r, e.plans.get? p = some r ∧ (r.verdict = .allow ∨ Approved e p) := by
      intro hs
      obtain ⟨r, hr', hok⟩ := hp.execute n s p hs hkind hpay
      refine ⟨r, hl.plans.get hr', hok.imp_right ?_⟩
      unfold Approved
      rw [h.approvals]
      exact fun h => h
    rcases h.jobs with ⟨-, hj⟩ | ⟨kind, s', hkind', hjob, hj⟩
    · exact hOld (by rw [← hj]; exact hs)
    · rw [hj, Table.get?_insert] at hs
      split_ifs at hs
      · obtain rfl := Option.some.inj hs
        obtain rfl : p = d.plans.size := Option.some.inj (hpay.symm.trans hjob.payload)
        refine ⟨row, hnew.1, Or.inl ?_⟩
        rw [hv]
        have hk' := hjob.kind.symm.trans hkind
        subst hk'
        cases v <;> first | rfl | cases hkind'
      · exact hOld hs
  · rw [ht]
    -- the incident is still open, so it is another one that timed out
    have hne : ∀ {n}, TimedOut d n → n ≠ id := by
      rintro n hn rfl
      exact hp.open_time hi hr hn
    refine ⟨fun p hpt => ?_, fun n hn => ?_⟩
    · obtain ⟨hj, r, hlat, hrt⟩ := hp.times.plan p hpt
      exact ⟨hj.later hl, r, hold hlat (hne hrt), hrt.later hl⟩
    · have hn := hn.of_none h.appends.audit h.noTimeout
      obtain ⟨y, hy, hst, p, hpt, r, hlat, hrn, hvr, hu⟩ := hp.times.incident n hn
      exact ⟨y, by rw [h.moved.others n (hne hn), hy], hst, p, hpt, r, hold hlat (hrn ▸ hne hn), hrn, hvr, hund hu⟩

/-- The job a submission adds is a good one. -/
theorem Submitted.newJob {d e : Db} {id : ℕ} {i j : Incident} {row : PlanRow} {v : Verdict}
    {l : List AuditEntry} (h : Submitted d e id i j row v l) (hj : JobsOk d) (hid : row.incidentId = id) :
    ∀ n s, e.jobs.get? n = some s → d.jobs.get? n = some s ∨ NewJob e n s := by
  rcases h.jobs with ⟨-, hjobs⟩ | ⟨kind, r, hkind, hr, hjobs⟩
  · intro n s hs
    exact Or.inl (by rw [← hjobs]; exact hs)
  · have hok : JobOk e r := by
      refine hr.ok ?_ h.moved.after ?_ (by rw [h.plans, Table.get?_insert, if_pos rfl]) hid
      · cases v <;> cases hkind <;> rfl
      · rw [h.outcome]
        cases v <;> cases hkind <;> decide
    intro n s hs
    exact (insert_job hjobs hr.key (hj.fresh_submitted kind) hok hr.status n s hs).imp_right fun x => x.2.2

theorem Submitted.driven {c : Core} {e : Db} {id : ℕ} {i j : Incident} {row : PlanRow} {v : Verdict}
    {l : List AuditEntry} {k : Hist} (h : Submitted c.db e id i j row v l) (hdr : Driven c.db)
    (hp : PlansOk e k) (hid : row.incidentId = id) (hseq : row.seq = 1 + c.db.maxSeq id)
    (hkeeps : Table.Keeps Eq c.db.jobs e.jobs) : Driven e := by
  refine hdr.later fun n x hx hopen => ?_
  rcases h.moved.cases hx with ⟨rfl, rfl⟩ | ⟨hn, hx'⟩
  · right
    have hlat : Latest e c.db.plans.size row := Latest.new h.plans (by rw [hid]; exact hseq)
    rcases h.jobs with ⟨hnone, -⟩ | ⟨kind, r, hkind, hr, hjobs⟩
    · rw [h.outcome] at hopen
      cases v <;> first | exact absurd hopen (by decide) | cases hnone
    · refine ⟨c.db.jobs.size, r, by rw [hjobs, Table.get?_insert, if_pos rfl], by rw [hr.status]; decide,
        hr.incident, ?_, fun _ => ⟨_, row, hid ▸ hlat.current hp, hr.payload⟩⟩
      rw [h.outcome, hr.kind]
      cases v <;> cases hkind <;> rfl
  · refine Or.inl ⟨x, hx', rfl, ?_, fun m r hr hs _ => ⟨r, hkeeps.get hr, .refl r, hs⟩⟩
    unfold Db.currentPlan
    rw [h.plans, Table.select_insert, if_neg (by simp [hid, Ne.symm hn]), List.append_nil]

/-- A submission, by the plan job or by a revision: the incident was diagnosed or waiting, and
the plan comes after those it has. -/
theorem Guar.submitted {k : Caller} {c : Core} {e : Db} {h : Hist} {id : ℕ} {i j : Incident} {row : PlanRow}
    {v : Verdict} {l : List AuditEntry} (hinv : Inv c) (hn : Noted k c h) (ht : h.timedOut = c.hist.timedOut)
    (hs : Submitted c.db e id i j row v l) (hstate : i.state = .diagnosed ∨ i.state = .awaitingApproval)
    (hid : row.incidentId = id) (hseq : row.seq = 1 + c.db.maxSeq id) (hv : row.verdict = v)
    (hexp : v = .requireApproval → row.expiresAt.isSome) : Guar k c { c.write e with hist := h } := by
  have hr : i.state.rank ≤ 6 := by rcases hstate with hi | hi <;> rw [hi] <;> decide
  have hrj : 6 ≤ j.state.rank := by
    rw [hs.outcome]
    cases v <;> decide
  have hl : c.db.Later e := hs.later hid (by omega) (by omega)
  have hkeeps : Table.Keeps Eq c.db.jobs e.jobs := by
    rcases hs.jobs with ⟨-, hj⟩ | ⟨-, r, -, -, hj⟩
    · rw [hj]; exact .refl (fun _ => rfl) _
    · rw [hj]; exact .insert (fun _ => rfl) _ r
  have hplans := hs.plansOk hinv.plans hn.decided ht hid (by omega) hl hrj hseq hv hexp
  refine Guar.of_moved hinv hn hs.moved hl hs.appends (hinv.jobs.of_new hl (hs.newJob hinv.jobs hid)) hkeeps
    hs.executions hplans (fun hman => hs.driven (hinv.driven hman) hplans hid hseq hkeeps) fun hx => ?_
  rw [hx] at hr
  exact absurd hr (by decide)

/-! Decisions. -/

def ApprovalDecision.outcome : ApprovalDecision → State
  | .approve => .executing
  | .reject => .escalated

/-- Everything `decided` did. -/
structure DecidedOn (d e : Db) (id : ℕ) (i j : Incident) (a : Approval) (l : List AuditEntry) : Prop where
  moved : Moved d e id i j
  state : i.state = .awaitingApproval
  outcome : j.state = a.decision.outcome
  undecided : Undecided d a.planId
  plans : e.plans = d.plans
  approvals : e.approvals = d.approvals.insert a
  executions : e.executions = d.executions
  appends : Appends d e l
  noTimeout : ∀ x ∈ l, ∀ n, ¬ x.TimesOut n
  jobs : (a.decision = .reject ∧ e.jobs = d.jobs) ∨ ∃ r, a.decision = .approve ∧ PlanJob r .execute a.planId id ∧
    e.jobs = d.jobs.insert r

theorem decided_ok {now : Time} {settings : Settings} {id p : ℕ} {incident : Incident} {plan : PlanRow}
    {b : Flow.Ballot} {d e : Db} {st : State} (hjobs : JobsOk d) (hp : d.plans.get? p = some plan)
    (hid : plan.incidentId = id) (hb : b.approver ≠ .policy)
    (h : (Flow.decided now settings id incident p plan b).run d = .ok (st, e)) :
    ∃ i j l, DecidedOn d e id i j (Flow.vote now id incident p plan b) l ∧ i.version = incident.version := by
  unfold Flow.decided at h
  obtain ⟨ins, d1, h1, h'⟩ := Tx.bind_ok.mp h
  rcases Tx.insertApproval_ok h1 with ⟨rfl, -⟩ | ⟨rfl, hund, rfl⟩
  · obtain ⟨u, d2, h2, -⟩ := Tx.bind_ok.mp h'
    cases h2
  obtain ⟨u, d2, h2, h'⟩ := Tx.bind_ok.mp h'
  obtain rfl := Tx.append_ok.mp h2
  cases hdec : b.decision with
  | approve =>
    simp only [hdec] at h'
    obtain ⟨v, d3, h3, h'⟩ := Tx.bind_ok.mp h'
    obtain ⟨o, d4, h4, h'⟩ := Tx.bind_ok.mp h'
    obtain ⟨i, hst, hver, -, -, hw⟩ := transition_walk h3
    have hr := hw.rest
    have hi : d.incidents.get? id = some i := hw.moved.before
    have hf : Jobs.keyTaken d3.jobs (some (.plan p .execute)) = false := by
      rw [hr]
      refine hjobs.fresh_plan fun row x hrow hx => ?_
      obtain rfl : plan = row := Option.some.inj (hp.symm.trans hrow)
      obtain rfl : i = x := Option.some.inj (hi.symm.trans (hid ▸ hx))
      have hst : i.state = .awaitingApproval := hst
      rw [hst]
      decide
    obtain ⟨r, hjob, rfl⟩ := enqueue_plan h4 hf
    obtain ⟨-, rfl⟩ := Tx.pure_ok.mp h'
    refine ⟨i, _, _, ⟨⟨hi, hw.moved.2, hw.moved.3, hw.moved.4⟩, hst, ?_, hund, by rw [hr], by rw [hr], by rw [hr],
      ⟨by rw [hr, List.append_assoc], ?_⟩, ?_, Or.inr ⟨r, hdec, hjob, by rw [hr]⟩⟩, hver⟩
    · rw [show (Flow.vote now id incident p plan b).decision = .approve from hdec]; rfl
    · simp [Incidents.transitionEntry, Event.outcome]
    · simp [Incidents.transitionEntry, AuditEntry.TimesOut]
  | reject =>
    simp only [hdec] at h'
    obtain ⟨v, d3, h3, h'⟩ := Tx.bind_ok.mp h'
    obtain ⟨i, hst, hver, -, -, hw⟩ := transition_walk h3
    have hr := hw.rest
    obtain ⟨-, rfl⟩ := Tx.pure_ok.mp h'
    refine ⟨i, _, _, ⟨⟨hw.moved.1, hw.moved.2, hw.moved.3, hw.moved.4⟩, hst, ?_, hund, by rw [hr], by rw [hr],
      by rw [hr], ⟨by rw [hr, List.append_assoc], ?_⟩, ?_, Or.inl ⟨hdec, by rw [hr]⟩⟩, hver⟩
    · rw [show (Flow.vote now id incident p plan b).decision = .reject from hdec]; rfl
    · simp [Incidents.transitionEntry, Event.outcome]
    · simp [Incidents.transitionEntry, AuditEntry.TimesOut, hb]

theorem DecidedOn.later {d e : Db} {id : ℕ} {i j : Incident} {a : Approval} {l : List AuditEntry}
    (h : DecidedOn d e id i j a l) : d.Later e where
  incidents := h.moved.keeps (by rw [h.state]; decide) (by rw [h.state, h.outcome]; cases a.decision <;> decide)
  jobs := by
    rcases h.jobs with ⟨-, hj⟩ | ⟨r, -, -, hj⟩
    · rw [hj]; exact .refl JobRow.Later.refl _
    · rw [hj]; exact .insert JobRow.Later.refl _ r
  plans := by rw [h.plans]; exact .refl (fun _ => rfl) _
  planned n _ _ _ _ _ := currentPlan_of_plans h.plans n
  approvals := by rw [h.approvals]; exact .insert (fun _ => rfl) _ a
  executions := by rw [h.executions]; exact .refl Execution.Later.refl _
  audit := h.appends.kept

/-- An approval is new, or it was there. -/
theorem DecidedOn.approval {d e : Db} {id n : ℕ} {i j : Incident} {a b : Approval} {l : List AuditEntry}
    (h : DecidedOn d e id i j a l) (hb : e.approvals.get? n = some b) :
    n = d.approvals.size ∧ b = a ∨ d.approvals.get? n = some b := by
  rw [h.approvals, Table.get?_insert] at hb
  split_ifs at hb with hn
  · exact Or.inl ⟨hn, (Option.some.inj hb).symm⟩
  · exact Or.inr hb

theorem DecidedOn.plansOk {d e : Db} {k k' : Hist} {id : ℕ} {i j : Incident} {a : Approval}
    {row : PlanRow} {l : List AuditEntry} (h : DecidedOn d e id i j a l) (hp : PlansOk d k)
    (hk : k.decided ⊆ k'.decided) (ht : k'.timedOut = k.timedOut) (hlat : Latest d a.planId row)
    (hid : row.incidentId = id) (hv : row.verdict = .requireApproval) (hhash : a.planHash = row.planHash)
    (happ : a.decision = .approve → a.approver ≠ row.proposedBy) (htime : ∃ t m x, (a.planId, t, m) ∈ k'.decided ∧
      row.expiresAt = some x ∧ t < x) : PlansOk e k' := by
  have hl := h.later
  have hi := h.moved.before
  have hr : i.state.rank < 7 := by rw [h.state]; decide
  have hold : ∀ {p r}, Latest d p r → Latest e p r := fun hlat => hlat.of_plans h.plans
  have hund : ∀ {p r}, d.plans.get? p = some r → r.incidentId ≠ id → Undecided d p → Undecided e p := by
    intro p r hpr hne hu n b hb hbp
    rcases h.approval hb with ⟨-, rfl⟩ | hb
    · obtain rfl : r = row := Option.some.inj (hpr.symm.trans (hbp ▸ hlat.1))
      exact hne hid
    · exact hu n b hb hbp
  have hlater : ∀ {n x y}, d.incidents.get? n = some x → e.incidents.get? n = some y → x.Later y := by
    intro n x y hx hy
    obtain ⟨y', hy', hxy⟩ := hl.incidents _ _ hx
    obtain rfl : y = y' := Option.some.inj (hy.symm.trans hy')
    exact hxy
  refine ⟨?_, ?_, ?_, ?_, ?_, ?_, ?_, ?_, ?_, ?_⟩
  · rw [h.plans]; exact hp.seqs
  · rw [h.plans]
    intro p r hpr
    obtain ⟨x, hx, hxr⟩ := hp.incident p r hpr
    obtain ⟨y, hy, hxy⟩ := hl.incidents _ _ hx
    exact ⟨y, hy, hxr.trans hxy.rank⟩
  · rw [h.plans]; exact hp.expires
  · intro p r y hpr hy hvr
    rw [h.plans] at hpr
    obtain ⟨x, hx, -⟩ := hp.incident p r hpr
    obtain ⟨hlat', hxr, hex⟩ := hp.allowed p r x hpr hx hvr
    exact ⟨hold hlat', hxr.trans (hlater hx hy).rank, hex.later hl⟩
  · intro p r y hpr hy hvr
    rw [h.plans] at hpr
    obtain ⟨x, hx, -⟩ := hp.incident p r hpr
    obtain ⟨hlat', hst⟩ := hp.denied p r x hpr hx hvr
    exact ⟨hold hlat', ((hlater hx hy).closed (by rw [hst]; rfl)).trans hst⟩
  · intro n x hx hst
    rcases h.moved.cases hx with ⟨rfl, rfl⟩ | ⟨hn, hx'⟩
    · rw [h.outcome] at hst
      cases hdec : a.decision <;> rw [hdec] at hst <;> cases hst
    · obtain ⟨p, r, hlat', hrn, hvr, hu⟩ := hp.waiting n x hx' hst
      exact ⟨p, r, hold hlat', hrn, hvr, hund hlat'.1 (hrn ▸ hn) hu⟩
  · intro n b hb
    rcases h.approval hb with ⟨rfl, rfl⟩ | hb
    · refine ⟨row, j, hold hlat, hid ▸ h.moved.after, hv, hhash, htime, ?_⟩
      unfold Settles
      have hout := h.outcome
      cases hdec : b.decision with
      | approve =>
        rw [hdec] at hout
        refine ⟨happ hdec, by rw [hout]; decide, ?_⟩
        rcases h.jobs with ⟨hrej, -⟩ | ⟨r, -, hjob, hj⟩
        · rw [hdec] at hrej
          cases hrej
        · exact ⟨d.jobs.size, r, by rw [hj, Table.get?_insert, if_pos rfl], hjob.kind, hjob.payload⟩
      | reject =>
        rw [hdec] at hout
        exact hout
    · obtain ⟨r, x, ho⟩ := hp.approval n b hb
      obtain ⟨y, hy, hxy⟩ := hl.incidents _ _ ho.incident
      obtain ⟨t, m, z, hmem, hz, hlt⟩ := ho.inTime
      exact ⟨r, y, hold ho.latest, hy, ho.verdict, ho.hash, ⟨t, m, z, hk hmem, hz, hlt⟩, ho.settles.later hl hxy⟩
  · intro n m b b' hb hb' hbb
    rcases h.approval hb with ⟨rfl, rfl⟩ | hb
    · rcases h.approval hb' with ⟨rfl, -⟩ | hb'
      · rfl
      · exact absurd hbb.symm (h.undecided m b' hb')
    · rcases h.approval hb' with ⟨rfl, rfl⟩ | hb'
      · exact absurd hbb (h.undecided n b hb)
      · exact hp.once n m b b' hb hb' hbb
  · intro n s p hs hkind hpay
    have hOld : d.jobs.get? n = some s → ∃ r, e.plans.get? p = some r ∧ (r.verdict = .allow ∨ Approved e p) := by
      intro hs
      obtain ⟨r, hr', hok⟩ := hp.execute n s p hs hkind hpay
      exact ⟨r, hl.plans.get hr', hok.imp_right fun ⟨m, b, hb, hrest⟩ => ⟨m, b, hl.approvals.get hb, hrest⟩⟩
    rcases h.jobs with ⟨-, hj⟩ | ⟨s', hdec, hjob, hj⟩
    · exact hOld (by rw [← hj]; exact hs)
    · rw [hj, Table.get?_insert] at hs
      split_ifs at hs
      · obtain rfl := Option.some.inj hs
        obtain rfl : p = a.planId := Option.some.inj (hpay.symm.trans hjob.payload)
        exact ⟨row, hl.plans.get hlat.1,
          Or.inr ⟨d.approvals.size, a, by rw [h.approvals, Table.get?_insert, if_pos rfl],
          rfl, hdec⟩⟩
      · exact hOld hs
  · rw [ht]
    refine ⟨fun p hpt => ?_, fun n hn => ?_⟩
    · obtain ⟨hj, r, hlat', hrt⟩ := hp.times.plan p hpt
      exact ⟨hj.later hl, r, hold hlat', hrt.later hl⟩
    · have hn := hn.of_none h.appends.audit h.noTimeout
      have hne : n ≠ id := by
        rintro rfl
        exact hp.open_time hi hr hn
      obtain ⟨y, hy, hst, p, hpt, r, hlat', hrn, hvr, hu⟩ := hp.times.incident n hn
      exact ⟨y, by rw [h.moved.others n hne, hy], hst, p, hpt, r, hold hlat', hrn, hvr, hund hlat'.1 (hrn ▸ hne) hu⟩

/-- A decision on the plan that is waiting for one. -/
theorem Guar.decided {k : Caller} {c : Core} {e : Db} {h : Hist} {id : ℕ} {i j : Incident} {a : Approval}
    {row : PlanRow} {l : List AuditEntry} (hinv : Inv c) (hn : Noted k c h) (ht : h.timedOut = c.hist.timedOut)
    (hs : DecidedOn c.db e id i j a l) (hlat : Latest c.db a.planId row) (hid : row.incidentId = id)
    (hv : row.verdict = .requireApproval) (hhash : a.planHash = row.planHash)
    (happ : a.decision = .approve → a.approver ≠ row.proposedBy) (htime : ∃ t m x, (a.planId, t, m) ∈ h.decided ∧
      row.expiresAt = some x ∧ t < x) :
    Guar k c { c.write e with hist := h } := by
  have hl := hs.later
  have hplans := hs.plansOk hinv.plans hn.decided ht hlat hid hv hhash happ htime
  have hnew : ∀ n s, e.jobs.get? n = some s → c.db.jobs.get? n = some s ∨ NewJob e n s := by
    rcases hs.jobs with ⟨-, hj⟩ | ⟨r, hdec, hr, hj⟩
    · exact fun n s h => Or.inl (by rw [← hj]; exact h)
    · have hok : JobOk e r :=
        hr.ok rfl hs.moved.after (by rw [hs.outcome, hdec]; decide) (hl.plans.get hlat.1) hid
      have hf : Jobs.keyTaken c.db.jobs (some (.plan a.planId .execute)) = false :=
        hinv.jobs.fresh_plan fun row' x hrow hx => by
          obtain rfl : row = row' := Option.some.inj (hlat.1.symm.trans hrow)
          obtain rfl : i = x := Option.some.inj (hs.moved.before.symm.trans (hid ▸ hx))
          rw [hs.state]
          decide
      exact fun n s h => (insert_job hj hr.key hf hok hr.status n s h).imp_right fun x => x.2.2
  have hkeeps : Table.Keeps Eq c.db.jobs e.jobs := by
    rcases hs.jobs with ⟨-, hj⟩ | ⟨r, -, -, hj⟩
    · rw [hj]; exact .refl (fun _ => rfl) _
    · rw [hj]; exact .insert (fun _ => rfl) _ r
  refine Guar.of_moved hinv hn hs.moved hl hs.appends (hinv.jobs.of_new hl hnew) hkeeps hs.executions hplans ?_ ?_
  · intro hman
    refine (hinv.driven hman).later fun n x hx hopen => ?_
    rcases hs.moved.cases hx with ⟨rfl, rfl⟩ | ⟨-, hx'⟩
    · rcases hs.jobs with ⟨hdec, -⟩ | ⟨r, hdec, hr, hj⟩
      · rw [hs.outcome, hdec] at hopen
        exact absurd hopen (by decide)
      · refine Or.inr ⟨c.db.jobs.size, r, by rw [hj, Table.get?_insert, if_pos rfl], by rw [hr.status]; decide,
          hr.incident, by rw [hs.outcome, hdec, hr.kind]; rfl, fun _ => ⟨_, row, ?_, hr.payload⟩⟩
        exact hid ▸ (hlat.of_plans hs.plans).current hplans
    · exact Or.inl ⟨x, hx', rfl, currentPlan_of_plans hs.plans n, fun m r hr hst _ => ⟨r, hkeeps.get hr, .refl r, hst⟩⟩
  · intro hx
    rw [hs.state] at hx
    cases hx

end Blackboard
