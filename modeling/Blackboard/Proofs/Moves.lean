import Blackboard.Proofs.Transactions

/-! Moving an incident on. A transaction that moves one incident, and adds at most new jobs,
keeps the invariant; what it needs to know is the driver of the new state. -/

namespace Blackboard

open Threads

/-- One incident is at another version, in another state perhaps. -/
structure Moved (d e : Db) (id : ℕ) (i j : Incident) : Prop where
  before : d.incidents.get? id = some i
  after : e.incidents.get? id = some j
  others : ∀ n, n ≠ id → e.incidents.get? n = d.incidents.get? n
  version : i.version < j.version

theorem Moved.trans {d e f : Db} {id : ℕ} {i j k : Incident} (h : Moved d e id i j) (h' : Moved e f id j k) :
    Moved d f id i k :=
  ⟨h.before, h'.after, fun n hn => (h'.others n hn).trans (h.others n hn), h.version.trans h'.version⟩

theorem Moved.keeps {d e : Db} {id : ℕ} {i j : Incident} (h : Moved d e id i j) (hopen : i.state.rank < 9)
    (hrank : i.state.rank ≤ j.state.rank) : Table.Keeps Incident.Later d.incidents e.incidents := by
  intro n x hx
  by_cases hn : n = id
  · subst hn
    obtain rfl : x = i := Option.some.inj (hx.symm.trans h.before)
    have hv := h.version
    exact ⟨j, h.after, hv.le, fun he => absurd he (by omega), hrank, fun hc => absurd hc (by omega)⟩
  · exact ⟨x, by rw [h.others n hn, hx], .refl x⟩

theorem Moved.cases {d e : Db} {id n : ℕ} {i j x : Incident} (h : Moved d e id i j)
    (hx : e.incidents.get? n = some x) : n = id ∧ x = j ∨ n ≠ id ∧ d.incidents.get? n = some x := by
  by_cases hn : n = id
  · subst hn
    exact Or.inl ⟨rfl, Option.some.inj (hx.symm.trans h.after)⟩
  · exact Or.inr ⟨hn, by rw [← h.others n hn, hx]⟩

/-- One move after another, with the audit rows they wrote. -/
structure Walk (d e : Db) (id : ℕ) (i j : Incident) (l : List AuditEntry) : Prop where
  moved : Moved d e id i j
  rest : e = { d with incidents := e.incidents, audit := d.audit ++ l }

theorem transition_walk {now : Time} {m : Transition} {d e : Db} {v : ℕ}
    (h : (Tx.transition now m).run d = .ok (v, e)) :
    ∃ i, i.state = m.fromState ∧ i.version = m.expectedVersion ∧ v = i.version + 1 ∧ i.state.rank < 9 ∧
      Walk d e m.incident i (Incidents.moved now m.toState i)
        [Incidents.transitionEntry m i.tenantId (i.version + 1)] := by
  obtain ⟨hcheck, i, hi, hst, hv, rfl, rfl⟩ := Tx.transition_ok h
  refine ⟨i, hst, hv, rfl, by rw [hst]; exact checkTransition_open hcheck,
    ⟨hi, by simp [hi], fun n hn => Table.get?_modify_ne _ _ hn, Nat.lt_succ_self _⟩, rfl⟩

theorem Walk.transition {now : Time} {m : Transition} {d e f : Db} {id : ℕ} {i j : Incident}
    {l : List AuditEntry} {v : ℕ} (hw : Walk d e id i j l) (h : (Tx.transition now m).run e = .ok (v, f))
    (hid : m.incident = id) :
    v = j.version + 1 ∧ Walk d f id i (Incidents.moved now m.toState j)
      (l ++ [Incidents.transitionEntry m j.tenantId (j.version + 1)]) := by
  subst hid
  obtain ⟨k, -, -, rfl, -, hk⟩ := transition_walk h
  obtain rfl : j = k := Option.some.inj (hw.moved.after.symm.trans hk.moved.before)
  refine ⟨rfl, hw.moved.trans hk.moved, ?_⟩
  rw [hk.rest, hw.rest, List.append_assoc]

/-! New jobs. -/

def NewJob (e : Db) (n : ℕ) (s : JobRow) : Prop :=
  JobOk e s ∧ s.status = .queued ∧ ∀ m t, e.jobs.get? m = some t → t.idempotencyKey = s.idempotencyKey → m = n

theorem insert_job {d e : Db} {r : JobRow} {k : Key} (hj : e.jobs = d.jobs.insert r)
    (hk : r.idempotencyKey = some k) (hf : Jobs.keyTaken d.jobs (some k) = false) (hok : JobOk e r)
    (hs : r.status = .queued) :
    ∀ n s, e.jobs.get? n = some s → d.jobs.get? n = some s ∨ n = d.jobs.size ∧ s = r ∧ NewJob e n s := by
  intro n s hn
  rw [hj, Table.get?_insert] at hn
  split_ifs at hn with hsize
  · obtain rfl := Option.some.inj hn
    refine Or.inr ⟨hsize, rfl, hok, hs, fun m t hm ht => ?_⟩
    rw [hj, Table.get?_insert] at hm
    split_ifs at hm with hsize'
    · rw [hsize, hsize']
    · exact absurd (ht.trans hk) (Jobs.keyTaken_eq_false.mp hf m t hm)
  · exact Or.inl hn

theorem JobsOk.of_new {d e : Db} (h : JobsOk d) (hd : d.Later e)
    (hnew : ∀ n s, e.jobs.get? n = some s → d.jobs.get? n = some s ∨ NewJob e n s) : JobsOk e :=
  h.later hd fun n s hs => by
    rcases hnew n s hs with hold | ⟨hok, hq, hfresh⟩
    · exact Or.inl ⟨s, hold, .refl s, Or.inl⟩
    · exact Or.inr ⟨hok, by rw [hq]; decide, hfresh⟩

/-! Execute jobs. -/

theorem currentPlan_of_plans {d e : Db} (hp : e.plans = d.plans) (id : ℕ) :
    e.currentPlan id = d.currentPlan id := by
  unfold Db.currentPlan
  rw [hp]

/-- An execute job is for the last plan of its incident. -/
theorem execute_latest {c : Core} (h : Inv c) {n p id : ℕ} {r : JobRow} (hr : c.db.jobs.get? n = some r)
    (hk : r.kind = .execute) (hp : r.payload.planId = some p) (hid : r.incidentId = some id) :
    ∃ row, Latest c.db p row ∧ row.incidentId = id ∧ row.verdict ≠ .deny := by
  obtain ⟨id', i, hid', hi, -, hkey⟩ := h.jobs.rows n r hr
  obtain rfl : id = id' := Option.some.inj (hid.symm.trans hid')
  obtain ⟨row, hrow, hok⟩ := h.plans.execute n r p hr hk hp
  have hinc : row.incidentId = id := by
    rcases hkey with ⟨ho, -⟩ | ⟨-, q, s, hq, -, hs, hsid⟩
    · rw [hk] at ho
      cases ho
    · obtain rfl : p = q := Option.some.inj (hp.symm.trans hq)
      obtain rfl : row = s := Option.some.inj (hrow.symm.trans hs)
      exact hsid
  refine ⟨row, ?_, hinc, ?_⟩
  · rcases hok with hv | ⟨m, a, ha, hap, -⟩
    · exact (h.plans.allowed p row i hrow (hinc ▸ hi) hv).1
    · obtain ⟨s, j, ho⟩ := h.plans.approval m a ha
      obtain rfl : row = s := Option.some.inj (hrow.symm.trans (hap ▸ ho.latest.1))
      exact hap ▸ ho.latest
  · rcases hok with hv | ⟨m, a, ha, hap, -⟩
    · rw [hv]
      decide
    · obtain ⟨s, j, ho⟩ := h.plans.approval m a ha
      obtain rfl : row = s := Option.some.inj (hrow.symm.trans (hap ▸ ho.latest.1))
      rw [ho.verdict]
      decide

theorem JobsOk.plan_payload {d : Db} (h : JobsOk d) {n id : ℕ} {r : JobRow} (hr : d.jobs.get? n = some r)
    (ho : r.kind.ofPlan = true) (hid : r.incidentId = some id) :
    ∃ p row, r.payload.planId = some p ∧ d.plans.get? p = some row ∧ row.incidentId = id := by
  obtain ⟨id', -, hid', -, -, ⟨hf, -⟩ | ⟨-, p, row, hp, -, hrow, hi⟩⟩ := h.rows n r hr
  · rw [ho] at hf
    cases hf
  · exact ⟨p, row, hp, hrow, hi.trans (Option.some.inj (hid'.symm.trans hid))⟩

/-- Of one incident there is one execute job. -/
theorem execute_unique {c : Core} (h : Inv c) {n m id : ℕ} {r s : JobRow} (hr : c.db.jobs.get? n = some r)
    (hs : c.db.jobs.get? m = some s) (hkr : r.kind = .execute) (hks : s.kind = .execute)
    (hir : r.incidentId = some id) (his : s.incidentId = some id) : n = m := by
  obtain ⟨p, -, hp, -⟩ := h.jobs.plan_payload hr (by rw [hkr]; rfl) hir
  obtain ⟨q, -, hq, -⟩ := h.jobs.plan_payload hs (by rw [hks]; rfl) his
  obtain ⟨row, hl, hrow, -⟩ := execute_latest h hr hkr hp hir
  obtain ⟨row', hl', hrow', -⟩ := execute_latest h hs hks hq his
  obtain ⟨rfl, -⟩ := hl.unique h.plans hl' (hrow.trans hrow'.symm)
  exact h.jobs.same_plan hr hs (hkr.trans hks.symm) (by rw [hkr]; rfl) hp hq

/-- While an attempt has the execute job of an incident, no other attempt has it. -/
theorem execute_lost {c : Core} (h : Inv c) {a b : Attempt} {id : ℕ} {r s : JobRow} (ha : Holds a c.db)
    (hr : c.db.jobs.get? a.job = some r) (hkr : r.kind = .execute) (hir : r.incidentId = some id)
    (hs : c.db.jobs.get? b.job = some s) (hks : s.kind = .execute) (his : s.incidentId = some id)
    (hf : b.fence ≤ s.fence) (hab : b ≠ a) : Lost b c.db := by
  have hjob := execute_unique h hr hs hkr hks hir his
  exact Claimed.lost ⟨s, hs, hf⟩ fun hb => hab (hb.unique ha hjob.symm)

/-! The effect of a transaction on the audit log. -/

/-- It appends rows; none is the outcome of an action. -/
structure Appends (d e : Db) (l : List AuditEntry) : Prop where
  audit : e.audit = d.audit ++ l
  plain : ∀ x ∈ l, x.event.outcome = none

theorem Appends.audited {d e : Db} {l : List AuditEntry} (h : Appends d e l) (x : ℕ × ℕ × Bool) :
    e.audited x = d.audited x := by
  unfold Db.audited
  rw [h.audit, List.countP_append, Nat.add_eq_left, List.countP_eq_zero]
  intro y hy
  simp [h.plain y hy]

theorem Appends.trans {d e f : Db} {l m : List AuditEntry} (h : Appends d e l) (h' : Appends e f m) :
    Appends d f (l ++ m) where
  audit := by rw [h'.audit, h.audit, List.append_assoc]
  plain x hx := (List.mem_append.mp hx).elim (h.plain x) (h'.plain x)

theorem Appends.kept {d e : Db} {l : List AuditEntry} (h : Appends d e l) : d.audit <+: e.audit :=
  ⟨l, h.audit.symm⟩

/-- A step of the history that a flow transaction takes: it is an API call's write, or nothing. -/
structure Noted (k : Caller) (c : Core) (h : Hist) : Prop where
  sent : h.sent = c.hist.sent
  ready : h.ready = c.hist.ready
  owed : h.owed = c.hist.owed
  manual : h.manual = c.hist.manual
  decided : c.hist.decided ⊆ h.decided
  kept : c.hist.wrote ⊆ h.wrote
  wrote : ∀ n ∈ h.wrote, n ∈ c.hist.wrote ∨ k = .request n
  request : ∀ n, k = .request n → n ∈ h.wrote

theorem Noted.job (a : Attempt) (c : Core) : Noted (.job a) c c.hist :=
  ⟨rfl, rfl, rfl, rfl, List.Subset.refl _, List.Subset.refl _, fun _ h => Or.inl h, fun _ h => by cases h⟩

theorem Noted.evolves {k : Caller} {c : Core} {h : Hist} {e : Db} (hn : Noted k c h) (hd : c.db.Later e) :
    Evolves c { c.write e with hist := h } where
  db := hd
  dbs := List.prefix_append _ _
  clusters := List.prefix_refl _
  decided := hn.decided
  wrote := hn.kept
  auto hm := hn.manual ▸ hm

/-- The guarantee of a transaction that moves the incident `id`: what is left to show is each
part of the invariant, and that the incident was not being executed by anybody else. -/
theorem Guar.of_moved {k : Caller} {c : Core} {e : Db} {h : Hist} {id : ℕ} {i j : Incident} {l : List AuditEntry}
    (hinv : Inv c) (hn : Noted k c h) (hm : Moved c.db e id i j) (hd : c.db.Later e)
    (hl : Appends c.db e l) (hjobs : JobsOk e) (hkeeps : Table.Keeps Eq c.db.jobs e.jobs)
    (hexec : e.executions = c.db.executions) (hplans : PlansOk e h)
    (hdriven : c.hist.manual = false → Driven e)
    (hmine : i.state = .executing → ∃ a r, k = .job a ∧ Holds a c.db ∧ c.db.jobs.get? a.job = some r ∧
      r.kind = .execute ∧ r.incidentId = some id) :
    Guar k c { c.write e with hist := h } := by
  have he : Evolves c { c.write e with hist := h } := hn.evolves hd
  refine .of_flow ⟨hjobs, fun hman => hdriven (hn.manual ▸ hman), hplans, ?_⟩ he hkeeps hexec hn.sent hn.ready
    hn.owed ?_ hn.wrote (fun n hk => Or.inr (hn.request n hk)) hn.manual
  · exact hinv.exec.later he hexec hn.sent hn.owed hl.audited
  · intro b r id' x hb hr hf hk hid hx hs
    by_cases hne : id' = id
    · subst hne
      obtain rfl : x = i := Option.some.inj (hx.symm.trans hm.before)
      obtain ⟨a, s, rfl, ha, hsa, hks, his⟩ := hmine hs
      have hlost := execute_lost hinv ha hsa hks his hr hk hid hf fun hba => hb (by rw [hba])
      exact Or.inr (hlost.later hd)
    · exact Or.inl ⟨x, by rw [← hx]; exact hm.others id' hne, hs⟩

/-- An incident is moved on, its plans and what was decided on them stay. -/
theorem Guar.advance {a : Attempt} {c : Core} {e : Db} {h : Hist} {id : ℕ} {i j : Incident} {l : List AuditEntry}
    (hinv : Inv c) (hn : Noted (.job a) c h) (hnoted : TimesNoted c.db e c.hist h) (hhold : Holds a c.db)
    (hm : Moved c.db e id i j) (hopen : i.state.rank < 9) (hrank : i.state.rank ≤ j.state.rank)
    (hwait : j.state ≠ .awaitingApproval) (hplans : e.plans = c.db.plans) (happr : e.approvals = c.db.approvals)
    (hexec : e.executions = c.db.executions) (hl : Appends c.db e l)
    (htime : ∀ x ∈ l, ∀ n, x.TimesOut n → n = id ∧ i.state = .awaitingApproval ∧
      j.state = .escalated ∧ ∃ p ∈ h.timedOut, ∃ row, Latest c.db p row ∧ row.incidentId = id)
    (hkeeps : Table.Keeps Eq c.db.jobs e.jobs)
    (hnew : ∀ n s, e.jobs.get? n = some s → c.db.jobs.get? n = some s ∨ s.kind ≠ .execute ∧ NewJob e n s)
    (hdrive : c.hist.manual = false → j.state.rank < 9 →
      ∃ n s, e.jobs.get? n = some s ∧ s.status ≠ .done ∧ Drives e id j s)
    (hmine : i.state = .executing → ∃ r, c.db.jobs.get? a.job = some r ∧ r.kind = .execute ∧
      r.incidentId = some id) :
    Guar (.job a) c { c.write e with hist := h } := by
  have hd : c.db.Later e :=
    { incidents := hm.keeps hopen hrank
      jobs := fun n r hr => ⟨r, hkeeps.get hr, .refl r⟩
      plans := by rw [hplans]; exact .refl (fun _ => rfl) _
      planned := fun n _ _ _ _ _ => currentPlan_of_plans hplans n
      approvals := by rw [happr]; exact .refl (fun _ => rfl) _
      executions := by rw [hexec]; exact .refl Execution.Later.refl _
      audit := hl.kept }
  refine Guar.of_moved hinv hn hm hd hl
    (hinv.jobs.of_new hd fun n s hs => (hnew n s hs).imp_right And.right) hkeeps hexec ?_ ?_ ?_
  · refine hinv.plans.later hd hn.decided hplans happr ?_ ?_ hnoted ?_
    · intro n x hx hs
      rcases hm.cases hx with ⟨-, rfl⟩ | ⟨-, hx'⟩
      · exact absurd hs hwait
      · exact ⟨x, hx', hs⟩
    · intro n s hs hk
      rcases hnew n s hs with hold | ⟨hne, -⟩
      · exact ⟨s, hold, .refl s⟩
      · exact absurd hk hne
    · rintro n ⟨x, hx, ht⟩
      rw [hl.audit, List.mem_append] at hx
      rcases hx with hx | hx
      · exact Or.inl ⟨x, hx, ht⟩
      · obtain ⟨rfl, hi, hj, hp⟩ := htime x hx n ht
        exact Or.inr ⟨i, j, hm.before, hi, hm.after, hj, hp⟩
  · intro hman
    refine (hinv.driven hman).later fun n x hx hr => ?_
    rcases hm.cases hx with ⟨rfl, rfl⟩ | ⟨-, hx'⟩
    · exact Or.inr (hdrive hman hr)
    · exact Or.inl ⟨x, hx', rfl, currentPlan_of_plans hplans n, fun m r hr hs _ => ⟨r, hkeeps.get hr, .refl r, hs⟩⟩
  · intro hs
    obtain ⟨r, hr⟩ := hmine hs
    exact ⟨a, r, rfl, hhold, hr⟩

end Blackboard
