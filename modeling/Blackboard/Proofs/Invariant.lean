import Mathlib.Data.List.Infix
import Blackboard.Proofs.Changes

/-! The invariant of the whole system, in four parts: the jobs, the job that drives each
incident, the plans with their decisions, and the executions with what was sent and audited.
Each part comes with its frame lemma: what a change must leave alone to keep the part. -/

namespace Blackboard

/-- The kind of job that moves an incident on. -/
def State.driver : State → Option Kind
  | .received => some .triage
  | .triaged | .investigating => some .investigate
  | .diagnosed => some .plan
  | .awaitingApproval => some .approvalTimeout
  | .executing => some .execute
  | .verifying => some .verify
  | .planned | .safetyReviewed | .resolved | .escalated => none

namespace Kind

/-- The rank an incident has reached when it gets a job of the kind. -/
def since : Kind → ℕ
  | .investigate => 1
  | .plan => 3
  | .approvalTimeout => 6
  | .execute => 7
  | .verify => 8
  | .triage | .other _ => 0

/-- The last rank the kind drives. -/
def upTo : Kind → ℕ
  | .triage | .other _ => 0
  | .investigate => 2
  | .plan => 3
  | .approvalTimeout => 6
  | .execute => 7
  | .verify => 8

/-- Whether a job of the kind is for a plan. -/
def ofPlan : Kind → Bool
  | .approvalTimeout | .execute | .verify => true
  | _ => false

end Kind

theorem State.driver_upTo {s : State} {k : Kind} (h : s.driver = some k) : s.rank ≤ k.upTo := by
  cases s <;> simp only [driver, Option.some.injEq, reduceCtorEq] at h <;> subst h <;> decide

/-! Jobs. -/

/-- The plan a job is for belongs to the job's incident, and the key names both. -/
def KeyOk (d : Db) (id : ℕ) (r : JobRow) : Prop :=
  r.kind.ofPlan = false ∧ r.idempotencyKey = some (.incident id r.kind) ∨
    r.kind.ofPlan = true ∧ ∃ p row, r.payload.planId = some p ∧ r.idempotencyKey = some (.plan p r.kind) ∧
      d.plans.get? p = some row ∧ row.incidentId = id

def JobOk (d : Db) (r : JobRow) : Prop :=
  ∃ id i, r.incidentId = some id ∧ d.incidents.get? id = some i ∧ r.kind.since ≤ i.state.rank ∧ KeyOk d id r

def AuditedDead (d : Db) (n : ℕ) : Prop :=
  ∃ e ∈ d.audit, e.subject = .job n ∧ ∃ kind attempts error, e.event = .jobDead kind attempts error

structure JobsOk (d : Db) : Prop where
  rows : ∀ n r, d.jobs.get? n = some r → JobOk d r
  keys : ∀ n m r s, d.jobs.get? n = some r → d.jobs.get? m = some s →
    r.idempotencyKey = s.idempotencyKey → n = m
  dead : ∀ n r, d.jobs.get? n = some r → r.status = .dead → AuditedDead d n

theorem JobOk.later {d e : Db} {r s : JobRow} (h : JobOk d r) (hd : d.Later e) (hs : SameJob r s) :
    JobOk e s := by
  obtain ⟨id, i, hid, hi, hrank, hkey⟩ := h
  obtain ⟨j, hj, hij⟩ := hd.incidents _ _ hi
  refine ⟨id, j, hs.incidentId.trans hid, hj, by rw [hs.kind]; exact hrank.trans hij.rank, ?_⟩
  rcases hkey with ⟨hk, he⟩ | ⟨hk, p, row, hp, he, hrow, hinc⟩
  · exact Or.inl ⟨by rw [hs.kind]; exact hk, by rw [hs.idempotencyKey, hs.kind]; exact he⟩
  · exact Or.inr ⟨by rw [hs.kind]; exact hk, p, row, by rw [hs.payload]; exact hp,
      by rw [hs.idempotencyKey, hs.kind]; exact he, hd.plans.get hrow, hinc⟩

theorem AuditedDead.later {d e : Db} {n : ℕ} (h : AuditedDead d n) (hd : d.Later e) : AuditedDead e n := by
  obtain ⟨x, hx, hrest⟩ := h
  exact ⟨x, hd.audit.subset hx, hrest⟩

/-- Old rows stay the jobs they are; a new row has a key of its own. -/
theorem JobsOk.later {d e : Db} (h : JobsOk d) (hd : d.Later e)
    (hrows : ∀ n s, e.jobs.get? n = some s →
      (∃ r, d.jobs.get? n = some r ∧ SameJob r s ∧ (s.status = .dead → r.status = .dead ∨ AuditedDead e n)) ∨
      (JobOk e s ∧ s.status ≠ .dead ∧
        ∀ m t, e.jobs.get? m = some t → t.idempotencyKey = s.idempotencyKey → m = n)) : JobsOk e where
  rows n s hs := by
    rcases hrows n s hs with ⟨r, hr, hsame, -⟩ | ⟨hok, -⟩
    · exact (h.rows n r hr).later hd hsame
    · exact hok
  keys n m s t hs ht hk := by
    rcases hrows n s hs with ⟨r, hr, hrs, -⟩ | ⟨-, -, hfresh⟩
    · rcases hrows m t ht with ⟨u, hu, hut, -⟩ | ⟨-, -, hfresh⟩
      · exact h.keys n m r u hr hu (by rw [← hrs.idempotencyKey, ← hut.idempotencyKey, hk])
      · exact hfresh n s hs hk
    · exact (hfresh m t ht hk.symm).symm
  dead n s hs hdead := by
    rcases hrows n s hs with ⟨r, hr, -, hst⟩ | ⟨-, hst, -⟩
    · exact (hst hdead).elim (fun hr' => (h.dead n r hr hr').later hd) id
    · exact absurd hdead hst

/-! The driving jobs. -/

structure Drives (d : Db) (id : ℕ) (i : Incident) (r : JobRow) : Prop where
  incident : r.incidentId = some id
  kind : i.state.driver = some r.kind
  plan : r.kind.ofPlan = true → ∃ p row, d.currentPlan id = some (p, row) ∧ r.payload.planId = some p

def Driven (d : Db) : Prop :=
  ∀ id i, d.incidents.get? id = some i → i.state.rank < 9 →
    ∃ n r, d.jobs.get? n = some r ∧ r.status ≠ .done ∧ Drives d id i r

theorem Drives.later {d e : Db} {id : ℕ} {i j : Incident} {r s : JobRow} (h : Drives d id i r)
    (hs : SameJob r s) (hij : j.state = i.state) (hp : e.currentPlan id = d.currentPlan id) :
    Drives e id j s where
  incident := hs.incidentId.trans h.incident
  kind := by rw [hij, hs.kind]; exact h.kind
  plan hk := by rw [hp, hs.payload]; exact h.plan (by rw [← hs.kind]; exact hk)

/-- An incident that stays where it is keeps its driver; one that moves gets another. -/
theorem Driven.later {d e : Db} (h : Driven d)
    (hinc : ∀ id j, e.incidents.get? id = some j → j.state.rank < 9 →
      (∃ i, d.incidents.get? id = some i ∧ j.state = i.state ∧ e.currentPlan id = d.currentPlan id ∧
        ∀ n r, d.jobs.get? n = some r → r.status ≠ .done → Drives d id i r →
          ∃ s, e.jobs.get? n = some s ∧ SameJob r s ∧ s.status ≠ .done) ∨
      (∃ n s, e.jobs.get? n = some s ∧ s.status ≠ .done ∧ Drives e id j s)) : Driven e := by
  intro id j hj hopen
  rcases hinc id j hj hopen with ⟨i, hi, hst, hp, hjob⟩ | hnew
  · obtain ⟨n, r, hr, hdone, hdrives⟩ := h id i hi (by rw [← hst]; exact hopen)
    obtain ⟨s, hs, hsame, hsd⟩ := hjob n r hr hdone hdrives
    exact ⟨n, s, hs, hsd, hdrives.later hsame hst hp⟩
  · exact hnew

/-! Plans. -/

/-- The last plan of its incident. -/
def Latest (d : Db) (p : ℕ) (row : PlanRow) : Prop :=
  d.plans.get? p = some row ∧ ∀ q r, d.plans.get? q = some r → r.incidentId = row.incidentId → r.seq ≤ row.seq

def Undecided (d : Db) (p : ℕ) : Prop := ∀ n a, d.approvals.get? n = some a → a.planId ≠ p

def Approved (d : Db) (p : ℕ) : Prop :=
  ∃ n a, d.approvals.get? n = some a ∧ a.planId = p ∧ a.decision = .approve

/-- There is a job of the kind that names the plan. -/
def HasJob (d : Db) (kind : Kind) (p : ℕ) : Prop :=
  ∃ n r, d.jobs.get? n = some r ∧ r.kind = kind ∧ r.payload.planId = some p

abbrev HasExecute (d : Db) (p : ℕ) : Prop := HasJob d .execute p

/-- The audit row of `approval_timeout` giving the incident up. -/
def AuditEntry.TimesOut (e : AuditEntry) (id : ℕ) : Prop :=
  e.actor = .policy ∧ e.subject = .incident id ∧
    ∃ v reason, e.event = .incidentTransition .awaitingApproval .escalated v reason

def TimedOut (d : Db) (id : ℕ) : Prop := ∃ e ∈ d.audit, e.TimesOut id

/-- What a decision means for the incident. -/
def Settles (d : Db) (a : Approval) (row : PlanRow) (i : Incident) : Prop :=
  match a.decision with
  | .approve => a.approver ≠ row.proposedBy ∧ 7 ≤ i.state.rank ∧ HasExecute d a.planId
  | .reject => i.state = .escalated

structure ApprovalOk (d : Db) (decided : List (ℕ × Time × ℕ)) (a : Approval) (row : PlanRow) (i : Incident) :
    Prop where
  latest : Latest d a.planId row
  incident : d.incidents.get? row.incidentId = some i
  verdict : row.verdict = .requireApproval
  hash : a.planHash = row.planHash
  inTime : ∃ t k x, (a.planId, t, k) ∈ decided ∧ row.expiresAt = some x ∧ t < x
  settles : Settles d a row i

/-- The plans that the history says timed out are each the last of an incident given up for it by
the plan's own job, and every incident given up has one. -/
structure TimesOk (d : Db) (timedOut : List ℕ) : Prop where
  plan : ∀ p ∈ timedOut, HasJob d .approvalTimeout p ∧ ∃ row, Latest d p row ∧ TimedOut d row.incidentId
  incident : ∀ id, TimedOut d id → ∃ i, d.incidents.get? id = some i ∧ i.state = .escalated ∧
    ∃ p ∈ timedOut, ∃ row, Latest d p row ∧ row.incidentId = id ∧ row.verdict = .requireApproval ∧ Undecided d p

structure PlansOk (d : Db) (h : Hist) : Prop where
  seqs : ∀ p q r s, d.plans.get? p = some r → d.plans.get? q = some s → r.incidentId = s.incidentId →
    r.seq = s.seq → p = q
  incident : ∀ p row, d.plans.get? p = some row →
    ∃ i, d.incidents.get? row.incidentId = some i ∧ 6 ≤ i.state.rank
  expires : ∀ p row, d.plans.get? p = some row → row.verdict = .requireApproval → row.expiresAt.isSome
  allowed : ∀ p row i, d.plans.get? p = some row → d.incidents.get? row.incidentId = some i →
    row.verdict = .allow → Latest d p row ∧ 7 ≤ i.state.rank ∧ HasExecute d p
  denied : ∀ p row i, d.plans.get? p = some row → d.incidents.get? row.incidentId = some i →
    row.verdict = .deny → Latest d p row ∧ i.state = .escalated
  waiting : ∀ id i, d.incidents.get? id = some i → i.state = .awaitingApproval →
    ∃ p row, Latest d p row ∧ row.incidentId = id ∧ row.verdict = .requireApproval ∧ Undecided d p
  approval : ∀ n a, d.approvals.get? n = some a → ∃ row i, ApprovalOk d h.decided a row i
  once : ∀ n m a b, d.approvals.get? n = some a → d.approvals.get? m = some b → a.planId = b.planId → n = m
  execute : ∀ n r p, d.jobs.get? n = some r → r.kind = .execute → r.payload.planId = some p →
    ∃ row, d.plans.get? p = some row ∧ (row.verdict = .allow ∨ Approved d p)
  times : TimesOk d h.timedOut

theorem Latest.unique {d : Db} {k : Hist} (h : PlansOk d k) {p q : ℕ} {r s : PlanRow}
    (hp : Latest d p r) (hq : Latest d q s) (hi : r.incidentId = s.incidentId) : p = q ∧ r = s := by
  have h1 := hp.2 q s hq.1 hi.symm
  have h2 := hq.2 p r hp.1 hi
  obtain rfl := h.seqs p q r s hp.1 hq.1 hi (by omega)
  exact ⟨rfl, Option.some.inj (hp.1.symm.trans hq.1)⟩

/-- `current_plan` returns the last plan. -/
theorem currentPlan_latest {d : Db} {id p : ℕ} {row : PlanRow} (h : d.currentPlan id = some (p, row)) :
    Latest d p row ∧ row.incidentId = id := by
  have hmem := List.argmax_mem (show (p, row) ∈ _ from h)
  rw [Table.mem_select] at hmem
  have hid : row.incidentId = id := by simpa using hmem.2
  refine ⟨⟨hmem.1, fun q r hq hr => ?_⟩, hid⟩
  exact List.le_of_mem_argmax (f := fun x : ℕ × PlanRow => x.2.seq) (a := (q, r))
    (Table.mem_select.mpr ⟨hq, by simp [hr, hid]⟩) h

theorem Latest.current {d : Db} {k : Hist} (h : PlansOk d k) {p : ℕ} {row : PlanRow}
    (hp : Latest d p row) : d.currentPlan row.incidentId = some (p, row) := by
  cases hc : d.currentPlan row.incidentId with
  | none =>
    have hnil := List.argmax_eq_none.mp hc
    have hmem : (p, row) ∈ d.plans.select fun _ r => r.incidentId = row.incidentId :=
      Table.mem_select.mpr ⟨hp.1, by simp⟩
    rw [hnil] at hmem
    cases hmem
  | some x =>
    obtain ⟨q, s⟩ := x
    obtain ⟨hq, hs⟩ := currentPlan_latest hc
    obtain ⟨rfl, rfl⟩ := hp.unique h hq hs.symm
    rfl

theorem HasJob.later {d e : Db} {kind : Kind} {p : ℕ} (h : HasJob d kind p) (hd : d.Later e) : HasJob e kind p := by
  obtain ⟨n, r, hr, hk, hp⟩ := h
  obtain ⟨s, hs, hrs⟩ := hd.jobs _ _ hr
  exact ⟨n, s, hs, hrs.same.kind.trans hk, by rw [hrs.same.payload]; exact hp⟩

theorem Latest.of_plans {d e : Db} {p : ℕ} {row : PlanRow} (h : Latest d p row) (hp : e.plans = d.plans) :
    Latest e p row := by
  unfold Latest
  rw [hp]
  exact h

theorem Settles.later {d e : Db} {a : Approval} {row : PlanRow} {i j : Incident} (h : Settles d a row i)
    (hd : d.Later e) (hij : i.Later j) : Settles e a row j := by
  unfold Settles at h ⊢
  cases hdec : a.decision with
  | approve =>
    simp only [hdec] at h
    exact ⟨h.1, h.2.1.trans hij.rank, h.2.2.later hd⟩
  | reject =>
    simp only [hdec] at h
    exact (hij.closed (by rw [h]; rfl)).trans h

theorem TimedOut.later {d e : Db} {id : ℕ} (h : TimedOut d id) (hd : d.Later e) : TimedOut e id := by
  obtain ⟨x, hx, ht⟩ := h
  exact ⟨x, hd.audit.subset hx, ht⟩

theorem TimedOut.of_none {d e : Db} {id : ℕ} {l : List AuditEntry} (h : TimedOut e id) (he : e.audit = d.audit ++ l)
    (hl : ∀ x ∈ l, ∀ n, ¬ x.TimesOut n) : TimedOut d id := by
  obtain ⟨x, hx, ht⟩ := h
  rw [he, List.mem_append] at hx
  exact ⟨x, hx.resolve_right fun hx => hl x hx id ht, ht⟩

/-- The history of what timed out goes on: a new plan in it is the last of an incident that has
its audit row now. -/
structure TimesNoted (d e : Db) (k k' : Hist) : Prop where
  kept : k.timedOut ⊆ k'.timedOut
  new : ∀ p ∈ k'.timedOut, p ∈ k.timedOut ∨
    HasJob d .approvalTimeout p ∧ ∃ row, Latest d p row ∧ TimedOut e row.incidentId

theorem TimesNoted.of_eq {d e : Db} {k k' : Hist} (h : k'.timedOut = k.timedOut) : TimesNoted d e k k' :=
  ⟨by rw [h]; exact List.Subset.refl _, fun _ hp => Or.inl (h ▸ hp)⟩

/-- Plans and decisions are as they were, nobody waits anew, no execute job is new, and only an
incident that was waiting times out, with its last plan. -/
theorem PlansOk.later {d e : Db} {k k' : Hist} (h : PlansOk d k) (hd : d.Later e) (hk : k.decided ⊆ k'.decided)
    (hplans : e.plans = d.plans) (happr : e.approvals = d.approvals)
    (hwait : ∀ id j, e.incidents.get? id = some j → j.state = .awaitingApproval →
      ∃ i, d.incidents.get? id = some i ∧ i.state = .awaitingApproval)
    (hexec : ∀ n s, e.jobs.get? n = some s → s.kind = .execute → ∃ r, d.jobs.get? n = some r ∧ SameJob r s)
    (hnoted : TimesNoted d e k k')
    (htime : ∀ id, TimedOut e id → TimedOut d id ∨ ∃ i j, d.incidents.get? id = some i ∧
      i.state = .awaitingApproval ∧ e.incidents.get? id = some j ∧ j.state = .escalated ∧
      ∃ p ∈ k'.timedOut, ∃ row, Latest d p row ∧ row.incidentId = id) : PlansOk e k' := by
  have hlater : ∀ {id j}, e.incidents.get? id = some j → ∀ {i}, d.incidents.get? id = some i → i.Later j := by
    intro id j hj i hi
    obtain ⟨j', hj', hij⟩ := hd.incidents _ _ hi
    obtain rfl : j = j' := by rw [hj] at hj'; exact Option.some.inj hj'
    exact hij
  have hund : ∀ {p}, Undecided d p → Undecided e p := by
    intro p hp
    unfold Undecided
    rw [happr]
    exact hp
  refine ⟨?_, ?_, ?_, ?_, ?_, ?_, ?_, ?_, ?_, ?_⟩
  · rw [hplans]; exact h.seqs
  · rw [hplans]
    intro p row hp
    obtain ⟨i, hi, hr⟩ := h.incident p row hp
    obtain ⟨j, hj, hij⟩ := hd.incidents _ _ hi
    exact ⟨j, hj, hr.trans hij.rank⟩
  · rw [hplans]; exact h.expires
  · intro p row j hp hj hv
    rw [hplans] at hp
    obtain ⟨i, hi, -⟩ := h.incident p row hp
    obtain ⟨hl, hr, hx⟩ := h.allowed p row i hp hi hv
    exact ⟨hl.of_plans hplans, hr.trans (hlater hj hi).rank, hx.later hd⟩
  · intro p row j hp hj hv
    rw [hplans] at hp
    obtain ⟨i, hi, -⟩ := h.incident p row hp
    obtain ⟨hl, hs⟩ := h.denied p row i hp hi hv
    exact ⟨hl.of_plans hplans, ((hlater hj hi).closed (by rw [hs]; rfl)).trans hs⟩
  · intro id j hj hs
    obtain ⟨i, hi, his⟩ := hwait id j hj hs
    obtain ⟨p, row, hl, hrow, hv, hu⟩ := h.waiting id i hi his
    exact ⟨p, row, hl.of_plans hplans, hrow, hv, hund hu⟩
  · intro n a ha
    rw [happr] at ha
    obtain ⟨row, i, ho⟩ := h.approval n a ha
    obtain ⟨j, hj, hij⟩ := hd.incidents _ _ ho.incident
    obtain ⟨t, x, y, hmem, hexp, hlt⟩ := ho.inTime
    exact ⟨row, j, ho.latest.of_plans hplans, hj, ho.verdict, ho.hash, ⟨t, x, y, hk hmem, hexp, hlt⟩,
      ho.settles.later hd hij⟩
  · rw [happr]; exact h.once
  · intro n s p hs hkind hpay
    obtain ⟨r, hr, hsame⟩ := hexec n s hs hkind
    obtain ⟨row, hrow, hok⟩ := h.execute n r p hr (hsame.kind ▸ hkind) (by rw [← hsame.payload]; exact hpay)
    refine ⟨row, by rw [hplans]; exact hrow, hok.imp_right ?_⟩
    unfold Approved
    rw [happr]
    exact id
  · refine ⟨fun p hp => ?_, fun id ht => ?_⟩
    · rcases hnoted.new p hp with hp | ⟨hj, row, hl, ht⟩
      · obtain ⟨hj, row, hl, ht⟩ := h.times.plan p hp
        exact ⟨hj.later hd, row, hl.of_plans hplans, ht.later hd⟩
      · exact ⟨hj.later hd, row, hl.of_plans hplans, ht⟩
    · rcases htime id ht with ht | ⟨i, j, hi, hs, hj, hjs, p, hp, row, hl, rfl⟩
      · obtain ⟨i, hi, hs, p, hp, row, hl, hrow, hv, hu⟩ := h.times.incident id ht
        obtain ⟨j, hj, hij⟩ := hd.incidents _ _ hi
        exact ⟨j, hj, (hij.closed (by rw [hs]; rfl)).trans hs, p, hnoted.kept hp, row, hl.of_plans hplans, hrow,
          hv, hund hu⟩
      · obtain ⟨q, row', hl', hrow', hv, hu⟩ := h.waiting _ i hi hs
        obtain ⟨rfl, rfl⟩ := hl.unique h hl' hrow'.symm
        exact ⟨j, hj, hjs, p, hp, row, hl.of_plans hplans, rfl, hv, hund hu⟩

/-! Executions. -/

/-- The rows of a plan, in the order they were inserted. -/
def Db.executionsOf (d : Db) (p : ℕ) : List Execution := d.executions.rows.filter fun e => e.planId = p

def Succeeded (d : Db) (p index : ℕ) : Prop :=
  ∃ n e, d.executions.get? n = some e ∧ e.planId = p ∧ e.actionIndex = index ∧ e.status = .succeeded

/-- The plan and the action whose start (false) or success (true) an audit row records. -/
def Event.outcome : Event → Option (ℕ × ℕ × Bool)
  | .executionStarted planId action .. => some (planId, action, false)
  | .executionSucceeded planId action .. => some (planId, action, true)
  | _ => none

def Db.audited (d : Db) (x : ℕ × ℕ × Bool) : ℕ := d.audit.countP fun e => e.event.outcome = some x

/-- Whether a row calls for the audit row of its start, or of its success. -/
def Execution.Calls (e : Execution) : Bool → Prop
  | false => e.insertedAs = .started
  | true => e.status = .succeeded

def Owes (a : Attempt) (c : Core) : Prop := ∃ x ∈ c.hist.owed, x.1 = a

/-- What an attempt was checked against, and found. Everything was read in the database at some
time since the check began. -/
structure CheckOk (c : Core) (a : Attempt) (id : ℕ) (ch : Checked) : Prop where
  incident : ∃ d, c.dbs[ch.since]? = some d ∧ d.incidents.get? id = some ch.incident
  state : ch.incident.state = .executing
  current : ∃ d ∈ c.dbs.drop ch.since, d.currentPlan id = some (ch.planId, ch.plan)
  row : c.db.plans.get? ch.planId = some ch.plan
  payload : ∃ r, c.db.jobs.get? a.job = some r ∧ r.kind = .execute ∧ r.incidentId = some id ∧
    r.payload.planId = some ch.planId
  stored : ch.plan.verdict ≠ .deny
  context : ∃ d ∈ c.dbs.drop ch.since, ∃ d' ∈ c.dbs.drop ch.since,
    ch.context = Flow.policyContext ch.incident (d'.evidenceOf id) (d.diagnosis id) ch.settings ch.context.now
  decision : ch.decision = Policy.evaluate CATALOGUE ch.plan.plan ch.context
  allowed : ch.decision.verdict ≠ .deny
  approval : ch.plan.verdict = .requireApproval ∨ ch.decision.verdict = .requireApproval →
    ∃ d ∈ c.dbs.drop ch.since, ∃ x, d.approval ch.planId = some x ∧ x.decision = .approve ∧
      x.planHash = ch.plan.planHash ∧ x.approver ≠ ch.plan.proposedBy

/-- What the change of an undo was worked out from. -/
def PreparedOk (c : Core) (action : Action) (p : Prepared) : Prop :=
  ∀ r, action.change = .rolloutUndo r → ∃ k l dep rss note q,
    c.clusters[p.readAt]? = some k ∧ c.clusters[p.listedAt]? = some l ∧
    k.deployments.lookup action.deployment = some dep ∧ K8s.ofDeployment dep l.replicasets = .ok rss ∧
    K8s.undo action.deployment r dep rss note = .ok q ∧
    p = { q with readAt := p.readAt, listedAt := p.listedAt }

structure SentOk (c : Core) (s : Sent) : Prop where
  row : ∃ n e, c.db.executions.get? n = some e ∧ e.planId = s.planId ∧ e.actionIndex = s.index ∧
    e.insertedBy = s.attempt
  before : ∀ j < s.index, Succeeded c.db s.planId j
  checked : s.checked.planId = s.planId ∧ ∃ id, CheckOk c s.attempt id s.checked
  action : s.checked.plan.plan.actions[s.index]? = some s.action
  prepared : PreparedOk c s.action s.prepared
  real : s.prepared.noop = false

/-- An outcome that the answer to the PATCH allows. Only an HTTP status says that it failed. -/
def Sent.Fits (s : Sent) : ExecStatus → Prop
  | .started | .unknown => True
  | .failed => ∃ status detail, s.answer = some (.http status detail)
  | .succeeded => ∃ body, s.answer = some (.ok body)

structure ExecOk (c : Core) : Prop where
  inserted : ∀ n e, c.db.executions.get? n = some e → ∃ r, c.db.jobs.get? e.insertedBy.job = some r ∧
    e.insertedBy.fence ≤ r.fence ∧ r.kind = .execute ∧ r.payload.planId = some e.planId
  unique : ∀ n m e f, c.db.executions.get? n = some e → c.db.executions.get? m = some f →
    e.planId = f.planId → e.actionIndex = f.actionIndex → n = m
  inOrder : ∀ p, (c.db.executionsOf p).map (·.actionIndex) = List.range (c.db.executionsOf p).length
  done : ∀ p, ∀ e ∈ (c.db.executionsOf p).dropLast, e.status = .succeeded
  sent : ∀ s ∈ c.hist.sent, SentOk c s
  once : (c.hist.sent.map fun s => (s.planId, s.index)).Nodup
  fits : ∀ s ∈ c.hist.sent, ∀ n e, c.db.executions.get? n = some e → e.planId = s.planId →
    e.actionIndex = s.index → s.Fits e.status
  owed : ∀ a p i b, (a, p, i, b) ∈ c.hist.owed → ∃ n e, c.db.executions.get? n = some e ∧
    e.planId = p ∧ e.actionIndex = i ∧ e.insertedBy = a ∧ e.Calls b
  audited : ∀ n e b, c.db.executions.get? n = some e → e.Calls b →
    c.db.audited (e.planId, e.actionIndex, b) =
      if (e.insertedBy, e.planId, e.actionIndex, b) ∈ c.hist.owed then 0 else 1
  recorded : ∀ p i b, 0 < c.db.audited (p, i, b) → ∃ n e, c.db.executions.get? n = some e ∧
    e.planId = p ∧ e.actionIndex = i ∧ e.Calls b

theorem Succeeded.later {d e : Db} {p i : ℕ} (h : Succeeded d p i) (hd : d.Later e) : Succeeded e p i := by
  obtain ⟨n, x, hx, hp, hi, hs⟩ := h
  obtain ⟨y, hy, hxy⟩ := hd.executions _ _ hx
  exact ⟨n, y, hy, hxy.planId.trans hp, hxy.actionIndex.trans hi,
    (hxy.status (by rw [hs]; decide)).trans hs⟩

theorem Evolves.since {c c' : Core} (h : Evolves c c') {n : ℕ} {P : Db → Prop}
    (hd : ∃ d ∈ c.dbs.drop n, P d) : ∃ d ∈ c'.dbs.drop n, P d := by
  obtain ⟨d, hd, hp⟩ := hd
  exact ⟨d, (List.IsPrefix.drop h.dbs n).subset hd, hp⟩

theorem prefix_get {α : Type} {l m : List α} (h : l <+: m) {n : ℕ} {a : α} (ha : l[n]? = some a) :
    m[n]? = some a := by
  obtain ⟨t, rfl⟩ := h
  rw [List.getElem?_append_left (List.getElem?_eq_some_iff.mp ha).1, ha]

theorem CheckOk.later {c c' : Core} {a : Attempt} {id : ℕ} {ch : Checked} (h : CheckOk c a id ch)
    (he : Evolves c c') : CheckOk c' a id ch where
  incident := by
    obtain ⟨d, hd, hi⟩ := h.incident
    exact ⟨d, prefix_get he.dbs hd, hi⟩
  state := h.state
  current := he.since h.current
  row := he.db.plans.get h.row
  payload := by
    obtain ⟨r, hr, hk, hi, hp⟩ := h.payload
    obtain ⟨s, hs, hrs⟩ := he.db.jobs _ _ hr
    exact ⟨s, hs, hrs.same.kind.trans hk, hrs.same.incidentId.trans hi, by rw [hrs.same.payload]; exact hp⟩
  stored := h.stored
  context := by
    obtain ⟨d, hd, d', hd', hx⟩ := h.context
    exact ⟨d, (List.IsPrefix.drop he.dbs _).subset hd, d', (List.IsPrefix.drop he.dbs _).subset hd', hx⟩
  decision := h.decision
  allowed := h.allowed
  approval hv := he.since (h.approval hv)

theorem PreparedOk.later {c c' : Core} {action : Action} {p : Prepared} (h : PreparedOk c action p)
    (he : Evolves c c') : PreparedOk c' action p := by
  intro r hr
  obtain ⟨k, l, dep, rss, note, q, hk, hl, hrest⟩ := h r hr
  exact ⟨k, l, dep, rss, note, q, prefix_get he.clusters hk, prefix_get he.clusters hl, hrest⟩

theorem SentOk.later {c c' : Core} {s : Sent} (h : SentOk c s) (he : Evolves c c') : SentOk c' s where
  row := by
    obtain ⟨n, e, hn, hp, hi, ha⟩ := h.row
    obtain ⟨f, hf, hef⟩ := he.db.executions _ _ hn
    exact ⟨n, f, hf, hef.planId.trans hp, hef.actionIndex.trans hi, hef.insertedBy.trans ha⟩
  before j hj := (h.before j hj).later he.db
  checked := by
    obtain ⟨hp, id, hc⟩ := h.checked
    exact ⟨hp, id, hc.later he⟩
  action := h.action
  prepared := h.prepared.later he
  real := h.real

theorem inserted_later {d e : Db} (hd : d.Later e) {a : Attempt} {p : Option ℕ}
    (h : ∃ r, d.jobs.get? a.job = some r ∧ a.fence ≤ r.fence ∧ r.kind = .execute ∧ r.payload.planId = p) :
    ∃ r, e.jobs.get? a.job = some r ∧ a.fence ≤ r.fence ∧ r.kind = .execute ∧ r.payload.planId = p := by
  obtain ⟨r, hr, hf, hk, hp⟩ := h
  obtain ⟨s, hs, hrs⟩ := hd.jobs _ _ hr
  exact ⟨s, hs, hf.trans hrs.fence, hrs.same.kind.trans hk, by rw [hrs.same.payload]; exact hp⟩

/-- No execution changes, nothing is sent, and no outcome is owed or audited. -/
theorem ExecOk.later {c c' : Core} (h : ExecOk c) (he : Evolves c c')
    (hexec : c'.db.executions = c.db.executions) (hsent : c'.hist.sent = c.hist.sent)
    (howed : c'.hist.owed = c.hist.owed) (haudit : ∀ x, c'.db.audited x = c.db.audited x) : ExecOk c' := by
  have hof : ∀ p, c'.db.executionsOf p = c.db.executionsOf p := fun p => by
    unfold Db.executionsOf
    rw [hexec]
  refine ⟨?_, ?_, ?_, ?_, ?_, ?_, ?_, ?_, ?_, ?_⟩
  · rw [hexec]; exact fun n e hn => inserted_later he.db (h.inserted n e hn)
  · rw [hexec]; exact h.unique
  · intro p; rw [hof]; exact h.inOrder p
  · intro p; rw [hof]; exact h.done p
  · rw [hsent]; exact fun s hs => (h.sent s hs).later he
  · rw [hsent]; exact h.once
  · rw [hsent, hexec]; exact h.fits
  · rw [howed, hexec]; exact h.owed
  · rw [hexec, howed]; simp only [haudit]; exact h.audited
  · rw [hexec]; simp only [haudit]; exact h.recorded

structure Inv (c : Core) : Prop where
  jobs : JobsOk c.db
  driven : c.hist.manual = false → Driven c.db
  plans : PlansOk c.db c.hist
  exec : ExecOk c

end Blackboard
