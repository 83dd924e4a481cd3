import Blackboard.Proofs.Moves

/-! A job attempt at work: what it knows of its job from the claim on, what it must have come
to when the job is completed, and the rules its handler is verified with. -/

namespace Blackboard

open Threads

/-- What an attempt knows of its job. -/
structure Knows (ctx : JobContext) (c : Core) : Prop where
  row : ∃ r, c.db.jobs.get? ctx.job.id = some r ∧ ctx.job.fence ≤ r.fence ∧ r.kind = ctx.job.kind ∧
    r.incidentId = ctx.job.incidentId ∧ r.payload = ctx.job.payload
  auto : c.hist.manual = false → ctx.settings.autoInvestigate = true ∧ ctx.settings.autoRemediate = true

theorem Knows.later {ctx : JobContext} {c c' : Core} (h : Knows ctx c) (he : Evolves c c') : Knows ctx c' where
  row := by
    obtain ⟨r, hr, hf, hk, hi, hp⟩ := h.row
    obtain ⟨s, hs, hrs⟩ := he.db.jobs _ _ hr
    exact ⟨s, hs, hf.trans hrs.fence, hrs.same.kind.trans hk, hrs.same.incidentId.trans hi,
      hrs.same.payload.trans hp⟩
  auto hm := h.auto (he.auto hm)

/-- The incident of a job exists, and is as far as the job's kind says. -/
theorem Knows.incident {ctx : JobContext} {c : Core} (h : Knows ctx c) (hi : Inv c) {id : ℕ}
    (hid : ctx.job.incidentId = some id) :
    ∃ i, c.db.incidents.get? id = some i ∧ ctx.job.kind.since ≤ i.state.rank := by
  obtain ⟨r, hr, -, hk, hri, -⟩ := h.row
  obtain ⟨id', i, hid', hinc, hrank, -⟩ := hi.jobs.rows _ r hr
  obtain rfl : id = id' := Option.some.inj (hid.symm.trans (hri.symm.trans hid'))
  exact ⟨i, hinc, hk ▸ hrank⟩

theorem Knows.rank {ctx : JobContext} {c : Core} (h : Knows ctx c) (hi : Inv c) {id : ℕ} {i : Incident}
    (hid : ctx.job.incidentId = some id) (hinc : c.db.incidents.get? id = some i) :
    ctx.job.kind.since ≤ i.state.rank := by
  obtain ⟨j, hj, hr⟩ := h.incident hi hid
  obtain rfl : i = j := Option.some.inj (hinc.symm.trans hj)
  exact hr

/-- The attempt owes the audit row of this outcome and no other, or none. -/
def Owing (x : Option (ℕ × ℕ × Bool)) (a : Attempt) (c : Core) : Prop :=
  ∀ y, y.1 = a → (y ∈ c.hist.owed ↔ some y.2 = x)

theorem Owing.later {x : Option (ℕ × ℕ × Bool)} {a : Attempt} {c c' : Core} (h : Owing x a c)
    (hs : Spares a c c') : Owing x a c' :=
  fun y hy => (hs.owed y hy).trans (h y hy)

abbrev Clear (a : Attempt) (c : Core) : Prop := Owing none a c

/-- There is a later plan of the same incident. -/
def Superseded (d : Db) (p : ℕ) : Prop :=
  ∃ row q r, d.plans.get? p = some row ∧ d.plans.get? q = some r ∧ r.incidentId = row.incidentId ∧ row.seq < r.seq

theorem Superseded.later {d e : Db} {p : ℕ} (h : Superseded d p) (hd : d.Later e) : Superseded e p := by
  obtain ⟨row, q, r, hp, hq, hrest⟩ := h
  exact ⟨row, q, r, hd.plans.get hp, hd.plans.get hq, hrest⟩

/-- The incident is beyond what the job drives. -/
def Passed (job : Job) (d : Db) : Prop :=
  ∀ id, job.incidentId = some id → ∃ i, d.incidents.get? id = some i ∧
    (job.kind.upTo < i.state.rank ∨
      job.kind = .approvalTimeout ∧ ∃ p, job.payload.planId = some p ∧ Superseded d p)

theorem Passed.later {job : Job} {d e : Db} (h : Passed job d) (hd : d.Later e) : Passed job e := by
  intro id hid
  obtain ⟨i, hi, hp⟩ := h id hid
  obtain ⟨j, hj, hij⟩ := hd.incidents _ _ hi
  refine ⟨j, hj, hp.imp (fun hr => hr.trans_le hij.rank) ?_⟩
  rintro ⟨hk, p, hp, hs⟩
  exact ⟨hk, p, hp, hs.later hd⟩

theorem Passed.of_rank {job : Job} {d : Db} {id : ℕ} {i : Incident} (hid : job.incidentId = some id)
    (hi : d.incidents.get? id = some i) (hr : job.kind.upTo < i.state.rank) : Passed job d := by
  intro id' hid'
  obtain rfl : id = id' := Option.some.inj (hid.symm.trans hid')
  exact ⟨i, hi, Or.inl hr⟩

/-- What a job that is to be completed has come to. -/
def Over (ctx : JobContext) (c : Core) : Prop := Passed ctx.job c.db ∧ Clear ctx.attempt c

theorem Over.later {ctx : JobContext} {c c' : Core} (h : Over ctx c) (hr : rely (.job ctx.attempt) c c') :
    Over ctx c' :=
  ⟨h.1.later hr.1.db, h.2.later hr.2⟩

/-! The rules. Nothing is promised of an error: the job is not completed then. -/

def Works {α : Type} (ctx : JobContext) (Q : α → Core → Prop) (x : Handler α) (s : Core) : Prop :=
  Does (contract (.job ctx.attempt)) Q (fun _ _ => True) x s

namespace Works

variable {α β : Type} {ctx : JobContext} {Q : β → Core → Prop} {R : α → Core → Prop} {s : Core}

theorem throw {e : Err} : Works ctx Q (MonadExcept.throw e) s := Does.throw fun _ _ _ => trivial

theorem pure {b : β} (h : ∀ t, rely (.job ctx.attempt) s t → Inv t → Q b t) : Works ctx Q (Pure.pure b) s :=
  Does.pure h

theorem passed (h : Over ctx s) : Works ctx (fun (_ : Unit) => Over ctx) (Pure.pure ()) s :=
  Works.pure fun _ ht _ => h.later ht

theorem bind {x : Handler α} {g : α → Handler β} (h : Works ctx R x s)
    (hg : ∀ a t, R a t → Works ctx Q (g a) t) : Works ctx Q (x >>= g) s :=
  Does.bind (Does.mono hg (fun _ _ h => h) h)

/-- What no change of the state undoes is still known afterwards. -/
theorem frame {x : Handler α} {P : Core → Prop} (hP : ∀ c c', Evolves c c' → P c → P c') (h : Works ctx R x s)
    (hs : P s) : Works ctx (fun a t => R a t ∧ P t) x s := by
  have hm : ∀ (p : Prog Core Input (Except Err α)) (s : Core), P s →
      Meets (contract (.job ctx.attempt)) (Ends R fun _ _ => True) p s →
      Meets (contract (.job ctx.attempt)) (Ends (fun a t => R a t ∧ P t) fun _ _ => True) p s := by
    intro p
    induction p with
    | ret r =>
      intro s hs h t ht hi
      have := h t ht hi
      cases r with
      | ok a => exact ⟨this, hP s t ht.1 hs⟩
      | error e => trivial
    | act f next ih =>
      intro s hs h t ht hi i
      obtain ⟨hg, hn⟩ := h t ht hi i
      exact ⟨hg, ih i _ _ (hP _ _ hg.evolves (hP s t ht.1 hs)) hn⟩
  exact hm x.run s hs h

theorem attempt {x : Handler α} {F : Err → Core → Prop} {g : Except Err α → Handler β}
    (h : Does (contract (.job ctx.attempt)) R F x s) (hg : ∀ r t, Ends R F r t → Works ctx Q (g r) t) :
    Works ctx Q (Threads.attempt x >>= g) s :=
  Works.bind (Does.attempt h) hg

theorem look {f : Input → Core → Except Err α} {g : α → Handler β}
    (h : ∀ i a t, rely (.job ctx.attempt) s t → Inv t → f i t = .ok a → Works ctx Q (g a) t) :
    Works ctx Q (look f >>= g) s :=
  look_bind (fun _ _ _ _ => trivial) h

theorem read {f : Input → Core → Except Err β}
    (h : ∀ i b t, rely (.job ctx.attempt) s t → Inv t → f i t = .ok b →
      ∀ u, rely (.job ctx.attempt) t u → Inv u → Q b u) : Works ctx Q (Blackboard.look f) s :=
  look_does (fun _ _ _ _ => trivial) h

theorem select {f : Db → α} {g : α → Handler β}
    (h : ∀ t, rely (.job ctx.attempt) s t → Inv t → Works ctx Q (g (f t.db)) t) :
    Works ctx Q (select f >>= g) s :=
  select_bind (fun _ _ _ _ => trivial) h

theorem clock {g : Time → Handler β}
    (h : ∀ now t, rely (.job ctx.attempt) s t → Inv t → Works ctx Q (g now) t) :
    Works ctx Q (clock >>= g) s :=
  clock_bind (fun _ _ _ _ => trivial) h

theorem assertFence {g : Unit → Handler β} (h : ∀ t, rely (.job ctx.attempt) s t → Inv t → Works ctx Q (g ()) t) :
    Works ctx Q (ctx.assertFence >>= g) s :=
  look fun _ _ t ht hi _ => h t ht hi

/-- A write of the attempt takes effect while it has its job. -/
theorem commit {body : Input → Tx β} {note : Input → β → Core → Hist}
    (h : ∀ i b d t, rely (.job ctx.attempt) s t → Inv t → Holds ctx.attempt t.db → (body i).run t.db = .ok (b, d) →
      Guar (.job ctx.attempt) t { t.write d with hist := note i b t } ∧
        ∀ u, rely (.job ctx.attempt) { t.write d with hist := note i b t } u → Inv u → i.fault = none → Q b u) :
    Works ctx Q (ctx.commit body note) s := by
  refine commit_does (fun _ _ _ _ => trivial) (fun _ _ => trivial) fun i b d t ht hi hrun => ?_
  obtain ⟨u, m, hf, hbody⟩ := Tx.bind_ok.mp hrun
  obtain ⟨hh, rfl⟩ := Tx.assertFence_ok hf
  exact h i b d t ht hi hh hbody

/-- The last write of a handler. -/
theorem finish {body : Input → Tx Unit} {note : Input → Unit → Core → Hist} (hc : Clear ctx.attempt s)
    (hnote : ∀ i b c, (note i b c).owed = c.hist.owed)
    (h : ∀ i b d t, rely (.job ctx.attempt) s t → Inv t → Holds ctx.attempt t.db → (body i).run t.db = .ok (b, d) →
      Guar (.job ctx.attempt) t { t.write d with hist := note i b t } ∧ Passed ctx.job d) :
    Works ctx (fun _ => Over ctx) (ctx.commit body note) s := by
  refine .commit fun i b d t ht hi hh hrun => ?_
  obtain ⟨hg, hp⟩ := h i b d t ht hi hh hrun
  have ho : Over ctx { t.write d with hist := note i b t } :=
    ⟨hp, fun x hx => by
      show x ∈ (note i b t).owed ↔ _
      rw [hnote]
      exact hc.later ht.2 x hx⟩
  exact ⟨hg, fun u hu _ _ => ho.later hu⟩

end Works

/-! Moving the incident of the job on, alone or with the next job. -/

theorem entry_times {m : Transition} {tenant : String} {v n : ℕ}
    (h : (Incidents.transitionEntry m tenant v).TimesOut n) :
    m.actor = .policy ∧ n = m.incident ∧ m.fromState = .awaitingApproval ∧ m.toState = .escalated := by
  obtain ⟨ha, hs, w, r, he⟩ := h
  simp only [Incidents.transitionEntry, Subject.incident.injEq, Event.incidentTransition.injEq] at hs he
  exact ⟨ha, hs.symm, he.1, he.2.1⟩

section Transition

variable {a : Attempt} {c : Core} {d e : Db} {h : Hist} {now : Time} {m : Transition} {v : ℕ} {l : List AuditEntry}
  {x y : State}

/-- One move, after audit rows that are nothing but that. A timeout is noted with its plan. -/
theorem Guar.transition (hinv : Inv c) (hn : Noted (.job a) c h) (hnoted : TimesNoted c.db e c.hist h)
    (hcause : m.actor = .policy → x = .awaitingApproval →
      ∃ p ∈ h.timedOut, ∃ row, Latest c.db p row ∧ row.incidentId = m.incident) (hhold : Holds a c.db)
    (hrun : (Tx.transition now m).run { c.db with audit := c.db.audit ++ l } = .ok (v, e))
    (hpre : ∀ z ∈ l, z.event.outcome = none ∧ ∀ n, ¬ z.TimesOut n)
    (hx : m.fromState = x) (hy : m.toState = y) (hrank : x.rank ≤ y.rank) (hwait : y ≠ .awaitingApproval)
    (hdrive : c.hist.manual = false → ∀ i, c.db.incidents.get? m.incident = some i → i.state = x →
      y.rank < 9 → ∀ j, e.incidents.get? m.incident = some j → j.state = y →
      ∃ n s, e.jobs.get? n = some s ∧ s.status ≠ .done ∧ Drives e m.incident j s)
    (hmine : x = .executing → ∃ r, c.db.jobs.get? a.job = some r ∧ r.kind = .execute ∧
      r.incidentId = some m.incident) :
    Guar (.job a) c { c.write e with hist := h } := by
  subst hx hy
  obtain ⟨i, hst, -, -, hopen, hw⟩ := transition_walk hrun
  have hr := hw.rest
  have hm : Moved c.db e m.incident i (Incidents.moved now m.toState i) :=
    ⟨hw.moved.before, hw.moved.after, hw.moved.others, hw.moved.version⟩
  have hjobs : e.jobs = c.db.jobs := by rw [hr]
  refine Guar.advance (l := l ++ [Incidents.transitionEntry m i.tenantId (i.version + 1)]) hinv hn hnoted hhold hm hopen
    (by rw [hst]; exact hrank) hwait (by rw [hr]) (by rw [hr]) (by rw [hr])
    ⟨by rw [hr, List.append_assoc], fun z hx => ?_⟩ (fun z hx n ht => ?_)
    (by rw [hjobs]; exact .refl (fun _ => rfl) _) (fun n s hs => Or.inl (by rw [← hjobs]; exact hs))
    (fun hman hopen' => hdrive hman i hm.before hst hopen' _ hm.after rfl) fun hx => hmine (hst.symm.trans hx)
  · rcases List.mem_append.mp hx with hx | hx
    · exact (hpre z hx).1
    · obtain rfl := List.mem_singleton.mp hx
      rfl
  · rcases List.mem_append.mp hx with hx | hx
    · exact absurd ht ((hpre z hx).2 n)
    · obtain rfl := List.mem_singleton.mp hx
      obtain ⟨ha, rfl, hfrom, hto⟩ := entry_times ht
      exact ⟨rfl, hst.trans hfrom, hto, hcause ha hfrom⟩

/-- A move with no driver to find: to the end. -/
theorem Guar.close (hinv : Inv c) (hhold : Holds a c.db)
    (hrun : (Tx.transition now m).run { c.db with audit := c.db.audit ++ l } = .ok (v, e))
    (hpre : ∀ z ∈ l, z.event.outcome = none ∧ ∀ n, ¬ z.TimesOut n) (hy : m.toState.rank = 9)
    (hcause : m.actor = .policy → m.fromState ≠ .awaitingApproval)
    (hmine : m.fromState = .executing → ∃ r, c.db.jobs.get? a.job = some r ∧ r.kind = .execute ∧
      r.incidentId = some m.incident) :
    Guar (.job a) c (c.write e) :=
  Guar.transition hinv (.job a c) (.of_eq rfl) (fun hp hx => absurd hx (hcause hp)) hhold hrun hpre rfl rfl
    (by have := m.fromState.rank_le; omega)
    (fun h => by rw [h] at hy; cases hy) (fun _ _ _ _ h => by omega) hmine

/-- A move together with the job that drives the new state. -/
theorem Guar.handOver {r : JobRow} {k : Key} (hinv : Inv c)
    (hcause : m.actor = .policy → x ≠ .awaitingApproval) (hhold : Holds a c.db)
    (hrun : (Tx.transition now m).run c.db = .ok (v, d)) (hr : e = { d with jobs := d.jobs.insert r })
    (hx : m.fromState = x) (hy : m.toState = y) (hrank : x.rank ≤ y.rank) (hwait : y ≠ .awaitingApproval)
    (hk : r.idempotencyKey = some k) (hf : Jobs.keyTaken c.db.jobs (some k) = false)
    (hnot : r.kind ≠ .execute) (hq : r.status = .queued)
    (hok : ∀ j, e.incidents.get? m.incident = some j → j.state = y → JobOk e r ∧ Drives e m.incident j r)
    (hmine : x = .executing → ∃ r, c.db.jobs.get? a.job = some r ∧ r.kind = .execute ∧
      r.incidentId = some m.incident) :
    Guar (.job a) c (c.write e) := by
  subst hx hy
  obtain ⟨i, hst, -, -, hopen, hw⟩ := transition_walk hrun
  have hd := hw.rest
  have hm : Moved c.db e m.incident i (Incidents.moved now m.toState i) := by
    rw [hr]
    exact ⟨hw.moved.before, hw.moved.after, hw.moved.others, hw.moved.version⟩
  have hjobs : e.jobs = c.db.jobs.insert r := by rw [hr, hd]
  obtain ⟨hjob, hdrives⟩ := hok _ hm.after rfl
  refine Guar.advance (l := [Incidents.transitionEntry m i.tenantId (i.version + 1)]) hinv (.job a c)
    (.of_eq rfl) hhold hm hopen
    (by rw [hst]; exact hrank) hwait (by rw [hr, hd]) (by rw [hr, hd]) (by rw [hr, hd])
    ⟨by rw [hr, hd], fun x hx => ?_⟩ (fun x hx n ht => ?_) (by rw [hjobs]; exact .insert (fun _ => rfl) _ r) ?_
    (fun _ _ => ⟨c.db.jobs.size, r, by rw [hjobs, Table.get?_insert, if_pos rfl], by rw [hq]; decide, hdrives⟩)
    fun hx => hmine (hst.symm.trans hx)
  · obtain rfl := List.mem_singleton.mp hx
    rfl
  · obtain rfl := List.mem_singleton.mp hx
    obtain ⟨ha, -, hfrom, -⟩ := entry_times ht
    exact absurd hfrom (hcause ha)
  · intro n s hs
    refine (insert_job hjobs hk hf hjob hq n s hs).imp_right fun ⟨_, hsr, hnew⟩ => ⟨?_, hnew⟩
    rw [hsr]
    exact hnot

end Transition

end Blackboard
