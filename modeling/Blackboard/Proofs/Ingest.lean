import Blackboard.Proofs.Moves

/-! A webhook opens incidents and merges alerts into open ones, any number in one transaction.
No incident moves; every new one gets its triage job. -/

namespace Blackboard

open Threads

/-- What a webhook transaction has done so far. -/
structure Ingested (d e : Db) (l : List AuditEntry) : Prop where
  incidents : Table.Keeps (fun i j => j.state = i.state ∧ j.version = i.version) d.incidents e.incidents
  opened : ∀ n j, e.incidents.get? n = some j → (d.incidents.get? n).isSome ∨ j.state = .received ∧
    ∃ m r, e.jobs.get? m = some r ∧ r.status = .queued ∧ r.kind = .triage ∧ r.incidentId = some n
  jobs : Table.Keeps Eq d.jobs e.jobs
  added : ∀ m s, e.jobs.get? m = some s → d.jobs.get? m = some s ∨ s.kind = .triage
  jobsOk : JobsOk e
  plans : e.plans = d.plans
  approvals : e.approvals = d.approvals
  executions : e.executions = d.executions
  appends : Appends d e l
  noTimeout : ∀ x ∈ l, ∀ n, ¬ x.TimesOut n

theorem Ingested.refl {d : Db} (h : JobsOk d) : Ingested d d [] where
  incidents := .refl (fun _ => ⟨rfl, rfl⟩) _
  opened n j hj := Or.inl (by rw [hj]; rfl)
  jobs := .refl (fun _ => rfl) _
  added _ _ hs := Or.inl hs
  jobsOk := h
  plans := rfl
  approvals := rfl
  executions := rfl
  appends := ⟨(List.append_nil _).symm, by simp⟩
  noTimeout := by simp

theorem Ingested.later {d e : Db} {l : List AuditEntry} (h : Ingested d e l) : d.Later e where
  incidents n i hi := by
    obtain ⟨j, hj, hst, hv⟩ := h.incidents n i hi
    exact ⟨j, hj, by rw [hv], fun _ => hst, by rw [hst], fun _ => hst⟩
  jobs n r hr := ⟨r, h.jobs.get hr, .refl r⟩
  plans := by rw [h.plans]; exact .refl (fun _ => rfl) _
  planned n _ _ _ _ _ := currentPlan_of_plans h.plans n
  approvals := by rw [h.approvals]; exact .refl (fun _ => rfl) _
  executions := by rw [h.executions]; exact .refl Execution.Later.refl _
  audit := h.appends.kept

theorem Ingested.trans {d e f : Db} {l m : List AuditEntry} (h : Ingested d e l) (h' : Ingested e f m) :
    Ingested d f (l ++ m) where
  incidents := .trans (fun _ _ _ h1 h2 => ⟨h2.1.trans h1.1, h2.2.trans h1.2⟩) h.incidents h'.incidents
  opened n j hj := by
    rcases h'.opened n j hj with hn | hn
    · obtain ⟨i, hi⟩ := Option.isSome_iff_exists.mp hn
      refine (h.opened n i hi).imp_right fun ⟨hst, x, r, hr, hrest⟩ => ⟨?_, x, r, h'.jobs.get hr, hrest⟩
      obtain ⟨j', hj', hst', -⟩ := h'.incidents n i hi
      obtain rfl : j = j' := Option.some.inj (hj.symm.trans hj')
      exact hst'.trans hst
    · exact Or.inr hn
  jobs := .trans (R := Eq) (fun _ _ _ => Eq.trans) h.jobs h'.jobs
  added n s hs := (h'.added n s hs).elim (h.added n s) Or.inr
  jobsOk := h'.jobsOk
  plans := h'.plans.trans h.plans
  approvals := h'.approvals.trans h.approvals
  executions := h'.executions.trans h.executions
  appends := h.appends.trans h'.appends
  noTimeout x hx := (List.mem_append.mp hx).elim (h.noTimeout x) (h'.noTimeout x)

theorem mergedIf_state (now : Time) (o : Opening) (i : Incident) :
    (Incidents.mergedIf now o i).state = i.state ∧ (Incidents.mergedIf now o i).version = i.version := by
  unfold Incidents.mergedIf
  split_ifs
  · exact ⟨rfl, rfl⟩
  · exact ⟨rfl, rfl⟩

theorem openOrMerge_ok {now : Time} {o : Opening} {d e : Db} {id : ℕ} {isNew : Bool}
    (h : (Tx.openOrMerge now o).run d = .ok ((id, isNew), e)) :
    isNew = false ∧ e = { d with incidents := d.incidents.update fun _ => Incidents.mergedIf now o } ∨
      isNew = true ∧ id = d.incidents.size ∧
      e = { d with incidents := d.incidents.insert (Incidents.opened now o) } := by
  unfold Tx.openOrMerge Tx.run StateT.run at h
  dsimp only at h
  split_ifs at h
  split at h
  · cases h
    exact Or.inl ⟨rfl, rfl⟩
  · cases h
    exact Or.inr ⟨rfl, rfl, rfl⟩

theorem ingested_merge {now : Time} {o : Opening} {d : Db} (h : JobsOk d) :
    Ingested d { d with incidents := d.incidents.update fun _ => Incidents.mergedIf now o } [] := by
  have hinc : Table.Keeps (fun i j => j.state = i.state ∧ j.version = i.version) d.incidents
      (d.incidents.update fun _ => Incidents.mergedIf now o) := .update fun _ i _ => mergedIf_state now o i
  have hl : d.Later { d with incidents := d.incidents.update fun _ => Incidents.mergedIf now o } :=
    { Db.Later.refl d with
      incidents := fun n i hi => by
        obtain ⟨j, hj, hst, hv⟩ := hinc n i hi
        exact ⟨j, hj, by rw [hv], fun _ => hst, by rw [hst], fun _ => hst⟩
      planned := fun _ _ _ _ _ _ => rfl }
  exact
    { Ingested.refl h with
      incidents := hinc
      opened := fun n j hj => by
        rw [Table.get?_update] at hj
        obtain ⟨i, hi, -⟩ := Option.map_eq_some_iff.mp hj
        exact Or.inl (by rw [hi]; rfl)
      jobsOk := h.of_new hl fun _ _ hs => Or.inl hs
      appends := ⟨(List.append_nil _).symm, by simp⟩ }

/-- A new incident, its triage job and its audit row. -/
theorem ingested_open {now : Time} {o : Opening} {actor : Actor} {settings : Settings} {d e : Db} {u : Unit}
    (h : JobsOk d) (hrun : (Api.created now d.incidents.size o actor settings).run
      { d with incidents := d.incidents.insert (Incidents.opened now o) } = .ok (u, e)) :
    ∃ l, Ingested d e l := by
  unfold Api.created at hrun
  obtain ⟨o', d1, h1, h2⟩ := Tx.bind_ok.mp hrun
  have hfresh : Jobs.keyTaken _ (some (.incident _ .triage)) = false := h.fresh_opened
  obtain rfl := Tx.append_ok.mp h2
  rcases Tx.enqueue_ok h1 with ⟨ht, -⟩ | ⟨-, rfl⟩
  · rw [show (Handlers.job d.incidents.size o.tenantId o.priority .triage settings).idempotencyKey =
      some (.incident d.incidents.size .triage) from rfl, hfresh] at ht
    cases ht
  set r := Jobs.rowOf now (Handlers.job d.incidents.size o.tenantId o.priority .triage settings) with hr
  set x := Api.createdEntry d.incidents.size o actor with hx
  refine ⟨[x], ?_⟩
  have hl : d.Later { d with incidents := d.incidents.insert (Incidents.opened now o), jobs := d.jobs.insert r,
                             audit := d.audit ++ [x] } :=
    { Db.Later.refl d with
      incidents := .insert Incident.Later.refl _ (Incidents.opened now o)
      jobs := .insert JobRow.Later.refl _ r
      planned := fun _ _ _ _ _ _ => rfl
      audit := List.prefix_append _ _ }
  have hnew : (d.incidents.insert (Incidents.opened now o)).get? d.incidents.size = some (Incidents.opened now o) := by
    rw [Table.get?_insert, if_pos rfl]
  have hjob : (d.jobs.insert r).get? d.jobs.size = some r := by rw [Table.get?_insert, if_pos rfl]
  have hok : JobOk { d with incidents := d.incidents.insert (Incidents.opened now o), jobs := d.jobs.insert r,
                            audit := d.audit ++ [x] } r :=
    ⟨d.incidents.size, _, rfl, hnew, Nat.zero_le _, Or.inl ⟨rfl, rfl⟩⟩
  have hadd := insert_job (d := d) rfl rfl hfresh hok rfl
  exact
    { incidents := .insert (fun _ => ⟨rfl, rfl⟩) _ _
      opened := fun n j hj => by
        rw [Table.get?_insert] at hj
        split_ifs at hj with hn
        · obtain rfl := Option.some.inj hj
          exact Or.inr ⟨rfl, d.jobs.size, r, hjob, rfl, rfl, by rw [hn]; rfl⟩
        · exact Or.inl (by rw [hj]; rfl)
      jobs := .insert (fun _ => rfl) _ r
      added := fun m s hs => (hadd m s hs).imp_right fun ⟨_, hsr, _⟩ => by rw [hsr]; rfl
      jobsOk := h.of_new hl fun m s hs => (hadd m s hs).imp_right fun x => x.2.2
      plans := rfl
      approvals := rfl
      executions := rfl
      appends := ⟨rfl, by simp [hx, Api.createdEntry, Event.outcome]⟩
      noTimeout := by simp [hx, Api.createdEntry, AuditEntry.TimesOut] }

theorem ingest_ok {now : Time} {actor : Actor} {settings : Settings} {os : List Opening} {d e : Db}
    {rs : List (ℕ × Bool)} (h : JobsOk d) (hrun : (Api.ingest now actor settings os).run d = .ok (rs, e)) :
    ∃ l, Ingested d e l := by
  induction os generalizing d rs with
  | nil =>
    obtain ⟨-, rfl⟩ := Tx.pure_ok.mp hrun
    exact ⟨[], .refl h⟩
  | cons o os ih =>
    obtain ⟨⟨id, isNew⟩, d1, hopen, hrest⟩ := Tx.bind_ok.mp hrun
    rcases openOrMerge_ok hopen with ⟨rfl, rfl⟩ | ⟨rfl, rfl, rfl⟩
    · obtain ⟨rs', d2, htail, hret⟩ := Tx.bind_ok.mp hrest
      obtain ⟨-, rfl⟩ := Tx.pure_ok.mp hret
      have hm := @ingested_merge now o _ h
      obtain ⟨l, hl⟩ := ih hm.jobsOk htail
      exact ⟨_, hm.trans hl⟩
    · obtain ⟨u, d2, hcreated, hrest'⟩ := Tx.bind_ok.mp hrest
      obtain ⟨rs', d3, htail, hret⟩ := Tx.bind_ok.mp hrest'
      obtain ⟨-, rfl⟩ := Tx.pure_ok.mp hret
      obtain ⟨l, hm⟩ := ingested_open h hcreated
      obtain ⟨m, hl⟩ := ih hm.jobsOk htail
      exact ⟨_, hm.trans hl⟩

theorem Guar.ingested {k : Caller} {c : Core} {e : Db} {h : Hist} {l : List AuditEntry} (hinv : Inv c)
    (hn : Noted k c h) (ht : h.timedOut = c.hist.timedOut) (hi : Ingested c.db e l) :
    Guar k c { c.write e with hist := h } := by
  have hl := hi.later
  have he : Evolves c { c.write e with hist := h } := hn.evolves hl
  have hback : ∀ n j, e.incidents.get? n = some j →
      (∃ i, c.db.incidents.get? n = some i ∧ j.state = i.state) ∨ j.state = .received := by
    intro n j hj
    refine (hi.opened n j hj).imp (fun hs => ?_) And.left
    obtain ⟨i, hi'⟩ := Option.isSome_iff_exists.mp hs
    obtain ⟨j', hj', hst, -⟩ := hi.incidents n i hi'
    obtain rfl : j = j' := Option.some.inj (hj.symm.trans hj')
    exact ⟨i, hi', hst⟩
  refine .of_flow ⟨hi.jobsOk, fun hman => ?_, ?_, hinv.exec.later he hi.executions hn.sent hn.owed hi.appends.audited⟩
    he hi.jobs hi.executions hn.sent hn.ready hn.owed ?_ hn.wrote (fun n hk => Or.inr (hn.request n hk)) hn.manual
  · refine (hinv.driven (hn.manual ▸ hman)).later fun n j hj _ => ?_
    rcases hi.opened n j hj with hs | ⟨hst, m, r, hr, hq, hk, hid⟩
    · obtain ⟨i, hi'⟩ := Option.isSome_iff_exists.mp hs
      obtain ⟨j', hj', hst, -⟩ := hi.incidents n i hi'
      obtain rfl : j = j' := Option.some.inj (hj.symm.trans hj')
      exact Or.inl ⟨i, hi', hst, currentPlan_of_plans hi.plans n, fun m r hr hd _ => ⟨r, hi.jobs.get hr, .refl r, hd⟩⟩
    · refine Or.inr ⟨m, r, hr, by rw [hq]; decide, hid, by rw [hst, hk]; rfl, fun ho => ?_⟩
      rw [hk] at ho
      cases ho
  · refine hinv.plans.later hl hn.decided hi.plans hi.approvals ?_ ?_ (.of_eq ht) ?_
    · intro n j hj hst
      rcases hback n j hj with ⟨i, hi', hs⟩ | hs
      · exact ⟨i, hi', hs.symm.trans hst⟩
      · rw [hs] at hst
        cases hst
    · intro n s hs hk
      rcases hi.added n s hs with hold | ht
      · exact ⟨s, hold, .refl s⟩
      · rw [hk] at ht
        cases ht
    · exact fun n ht => Or.inl (ht.of_none hi.appends.audit hi.noTimeout)
  · intro b r id i _ _ _ _ _ hi' hs
    obtain ⟨j, hj, hst, -⟩ := hi.incidents id i hi'
    exact Or.inl ⟨j, hj, hst.trans hs⟩

end Blackboard
