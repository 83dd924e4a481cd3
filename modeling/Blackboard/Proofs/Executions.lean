import Blackboard.Proofs.Attempts

/-! The rows of `executions` and what goes with them. An action's row is inserted once the
actions before it have succeeded, its status is changed once, and the history keeps the audit
rows that are still to be written. -/

namespace Blackboard

/-! Rows of a plan. -/

theorem mem_executionsOf {d : Db} {p : ℕ} {e : Execution} :
    e ∈ d.executionsOf p ↔ ∃ n, d.executions.get? n = some e ∧ e.planId = p := by
  unfold Db.executionsOf
  rw [List.mem_filter, Table.mem_rows, decide_eq_true_eq]
  exact ⟨fun ⟨⟨n, hn⟩, hp⟩ => ⟨n, hn, hp⟩, fun ⟨n, hn, hp⟩ => ⟨⟨n, hn⟩, hp⟩⟩

theorem executionsOf_insert {d e : Db} {x : Execution} (h : e.executions = d.executions.insert x) (p : ℕ) :
    e.executionsOf p = d.executionsOf p ++ if x.planId = p then [x] else [] := by
  unfold Db.executionsOf
  rw [h, Table.insert, List.filter_append]
  congr 1
  by_cases hp : x.planId = p <;> simp [hp]

theorem Succeeded.row {c : Core} (h : ExecOk c) {p i n : ℕ} (hs : Succeeded c.db p i) {e : Execution}
    (hn : c.db.executions.get? n = some e) (hp : e.planId = p) (hi : e.actionIndex = i) :
    e.status = .succeeded := by
  obtain ⟨m, f, hm, hfp, hfi, hfs⟩ := hs
  obtain rfl := h.unique n m e f hn hm (hp.trans hfp.symm) (hi.trans hfi.symm)
  obtain rfl : e = f := Option.some.inj (hn.symm.trans hm)
  exact hfs

/-- When the actions before have succeeded and there is no row yet, the rows are those actions'. -/
theorem length_executionsOf {c : Core} (h : ExecOk c) {p index : ℕ} (hb : ∀ j < index, Succeeded c.db p j)
    (hno : ∀ n e, c.db.executions.get? n = some e → e.planId = p → e.actionIndex ≠ index) :
    (c.db.executionsOf p).length = index := by
  have hmem : ∀ j, j < (c.db.executionsOf p).length ↔ ∃ e ∈ c.db.executionsOf p, e.actionIndex = j := by
    intro j
    rw [← List.mem_range, ← h.inOrder p, List.mem_map]
  apply Nat.le_antisymm
  · by_contra hlt
    obtain ⟨e, he, hi⟩ := (hmem index).mp (by omega)
    obtain ⟨n, hn, hp⟩ := mem_executionsOf.mp he
    exact hno n e hn hp hi
  · cases index with
    | zero => exact Nat.zero_le _
    | succ j =>
      obtain ⟨n, e, hn, hp, hi, -⟩ := hb j (Nat.lt_succ_self j)
      exact (hmem j).mpr ⟨e, mem_executionsOf.mpr ⟨n, hn, hp⟩, hi⟩

/-! The guarantee of an action of the executor. -/

/-- Only the executions, the audit log and the history change. -/
structure ExecStep (a : Attempt) (c c' : Core) : Prop where
  incidents : c'.db.incidents = c.db.incidents
  jobs : c'.db.jobs = c.db.jobs
  plans : c'.db.plans = c.db.plans
  approvals : c'.db.approvals = c.db.approvals
  executions : Table.Keeps Execution.Later c.db.executions c'.db.executions
  audit : ∃ l, c'.db.audit = c.db.audit ++ l ∧ ∀ x ∈ l, ∀ n, ¬ x.TimesOut n
  dbs : c.dbs <+: c'.dbs
  clusters : c'.clusters = c.clusters
  decided : c'.hist.decided = c.hist.decided
  timedOut : c'.hist.timedOut = c.hist.timedOut
  wrote : c'.hist.wrote = c.hist.wrote
  manual : c'.hist.manual = c.hist.manual
  /-- What the other attempts have is left alone. -/
  ready : ∀ b ≠ a, b ∈ c.hist.ready ↔ b ∈ c'.hist.ready
  owed : ∀ x, x.1 ≠ a → (x ∈ c'.hist.owed ↔ x ∈ c.hist.owed)

theorem ExecStep.later {a : Attempt} {c c' : Core} (h : ExecStep a c c') : c.db.Later c'.db where
  incidents := by rw [h.incidents]; exact .refl Incident.Later.refl _
  jobs := by rw [h.jobs]; exact .refl JobRow.Later.refl _
  plans := by rw [h.plans]; exact .refl (fun _ => rfl) _
  planned n _ _ _ _ _ := currentPlan_of_plans h.plans n
  approvals := by rw [h.approvals]; exact .refl (fun _ => rfl) _
  executions := h.executions
  audit := by
    obtain ⟨l, hl, -⟩ := h.audit
    exact ⟨l, hl.symm⟩

theorem ExecStep.evolves {a : Attempt} {c c' : Core} (h : ExecStep a c c') : Evolves c c' where
  db := h.later
  dbs := h.dbs
  clusters := by rw [h.clusters]
  decided := by rw [h.decided]; exact List.Subset.refl _
  wrote := by rw [h.wrote]; exact List.Subset.refl _
  auto hm := h.manual ▸ hm

theorem Holds.of_jobs {a : Attempt} {d e : Db} (h : Holds a d) (hj : e.jobs = d.jobs) : Holds a e := by
  unfold Holds
  rw [hj]
  exact h

theorem Guar.of_exec {a : Attempt} {c c' : Core} (hinv : Inv c) (h : ExecStep a c c') (hexec : ExecOk c')
    (hrows : ∀ b ≠ a, ∀ r n e, c.db.jobs.get? b.job = some r → b.fence ≤ r.fence → r.kind = .execute →
      r.payload.planId = some e.planId → c.db.executions.get? n = some e →
      c'.db.executions.get? n = some e ∨ Lost b c'.db)
    (hout : ∀ n e f, c.db.executions.get? n = some e → e.insertedBy ≠ a → c'.db.executions.get? n = some f →
      f.status = e.status ∨ f.status = .unknown)
    (hmine : a ∈ c'.hist.ready → a ∈ c.hist.ready ∨ Holds a c.db)
    (howes : Owes a c' → Owes a c ∨ Holds a c.db)
    (hsends : c'.hist.sent = c.hist.sent ∨ ∃ s, s.attempt = a ∧ c'.hist.sent = c.hist.sent ++ [s] ∧ c'.db = c.db ∧
      a ∈ c.hist.ready ∧
      (Holds a c.db → s.held = true ∧ s.state = some .executing)) :
    Guar (.job a) c c' where
  inv :=
    { jobs := hinv.jobs.later h.later fun n s hs => Or.inl ⟨s, by rw [← h.jobs]; exact hs, .refl s, Or.inl⟩
      driven := fun hman => (hinv.driven (h.manual ▸ hman)).later fun n j hj _ =>
        Or.inl ⟨j, by rw [← h.incidents]; exact hj, rfl, currentPlan_of_plans h.plans n,
          fun m r hr hs _ => ⟨r, by rw [h.jobs]; exact hr, .refl r, hs⟩⟩
      plans := hinv.plans.later h.later (by rw [h.decided]; exact List.Subset.refl _) h.plans h.approvals
        (fun n j hj hs => ⟨j, by rw [← h.incidents]; exact hj, hs⟩)
        (fun n s hs _ => ⟨s, by rw [← h.jobs]; exact hs, .refl s⟩) (.of_eq h.timedOut) fun n ht => by
          obtain ⟨l, hl, hno⟩ := h.audit
          exact Or.inl (ht.of_none hl hno)
      exec := hexec }
  evolves := h.evolves
  apart j hj := by
    cases j with
    | request m =>
      intro hm
      rw [h.wrote] at hm
      exact hm
    | job b =>
      have hba : b ≠ a := fun he => hj (by rw [he])
      refine ⟨fun s hs hsb => ?_, (h.ready b hba).mp, fun x hx => h.owed x (hx ▸ hba),
        fun n e f he hb hf => hout n e f he (by rw [hb]; exact hba) hf, hrows b hba,
        fun r id i _ _ _ _ hi hst => Or.inl ⟨i, by rw [h.incidents]; exact hi, hst⟩⟩
      rcases hsends with he | ⟨s', hs', he, -⟩
      · exact he ▸ hs
      · rw [he, List.mem_append, List.mem_singleton] at hs
        exact hs.resolve_right fun hss => hba (by rw [← hsb, hss, hs'])
  ready b hb := by
    refine ⟨?_, fun hh => hh.of_jobs h.jobs⟩
    by_cases hba : b = a
    · subst hba
      exact (hmine hb).imp_right fun hh => hh.of_jobs h.jobs
    · exact Or.inl ((h.ready b hba).mpr hb)
  sends := hsends.imp_right fun ⟨s, hs, he, hrest⟩ => ⟨a, s, rfl, hs, he, hrest⟩
  owes b hb := by
    by_cases hba : b = a
    · subst hba
      exact (howes hb).imp_right fun hh => hh.of_jobs h.jobs
    · obtain ⟨x, hx, rfl⟩ := hb
      exact Or.inl ⟨x, (h.owed x hba).mp hx, rfl⟩
  settled b _ hh r hr := (hh.of_jobs h.jobs).not_done hr
  wrote n hk := by cases hk
  manual := h.manual

/-- While the attempt has its execute job, another attempt at an execute job of the plan has not. -/
theorem lost_of_plan {c : Core} (hinv : Inv c) {a b : Attempt} {ra r : JobRow} {p : ℕ} (hh : Holds a c.db)
    (hra : c.db.jobs.get? a.job = some ra) (hka : ra.kind = .execute) (hpa : ra.payload.planId = some p)
    (hr : c.db.jobs.get? b.job = some r) (hf : b.fence ≤ r.fence) (hk : r.kind = .execute)
    (hp : r.payload.planId = some p) (hba : b ≠ a) : Lost b c.db := by
  have hjob := hinv.jobs.same_plan hr hra (hk.trans hka.symm) (by rw [hk]; rfl) hp hpa
  exact Claimed.lost ⟨r, hr, hf⟩ fun hb => hba (hb.unique hh hjob)

/-! What each action does to the rows. -/

/-- INSERT of an action's row, started or failed. -/
theorem ExecOk.insert {c c' : Core} {x : Execution} (h : ExecOk c) (he : Evolves c c')
    (hexec : c'.db.executions = c.db.executions.insert x) (haudit : ∀ q, c'.db.audited q = c.db.audited q)
    (hsent : c'.hist.sent = c.hist.sent)
    (howed : c'.hist.owed = if x.status = .started then
      (x.insertedBy, x.planId, x.actionIndex, false) :: c.hist.owed else c.hist.owed)
    (hno : ∀ n e, c.db.executions.get? n = some e → e.planId = x.planId → e.actionIndex ≠ x.actionIndex)
    (hb : ∀ j < x.actionIndex, Succeeded c.db x.planId j)
    (hclaim : ∃ r, c.db.jobs.get? x.insertedBy.job = some r ∧ x.insertedBy.fence ≤ r.fence ∧ r.kind = .execute ∧
      r.payload.planId = some x.planId)
    (has : x.insertedAs = x.status) (hs : x.status ≠ .succeeded) : ExecOk c' := by
  have hrow : ∀ {n e}, c'.db.executions.get? n = some e →
      n = c.db.executions.size ∧ e = x ∨ c.db.executions.get? n = some e := by
    intro n e hn
    rw [hexec, Table.get?_insert] at hn
    split_ifs at hn with hsize
    · exact Or.inl ⟨hsize, (Option.some.inj hn).symm⟩
    · exact Or.inr hn
  have hold : ∀ {n e}, c.db.executions.get? n = some e → c'.db.executions.get? n = some e := fun hn => by
    rw [hexec]
    exact Table.get?_insert_of_some _ hn
  have hnew : c'.db.executions.get? c.db.executions.size = some x := by rw [hexec, Table.get?_insert, if_pos rfl]
  have hkey : ∀ {n e b}, c.db.executions.get? n = some e →
      ((e.insertedBy, e.planId, e.actionIndex, b) ∈ c'.hist.owed ↔
        (e.insertedBy, e.planId, e.actionIndex, b) ∈ c.hist.owed) := by
    intro n e b hn
    rw [howed]
    split_ifs
    · rw [List.mem_cons, or_iff_right]
      intro heq
      simp only [Prod.mk.injEq] at heq
      exact hno n e hn heq.2.1 heq.2.2.1
    · rfl
  refine ⟨?_, ?_, ?_, ?_, ?_, ?_, ?_, ?_, ?_, ?_⟩
  · intro n e hn
    rcases hrow hn with ⟨-, rfl⟩ | hn
    · exact inserted_later he.db hclaim
    · exact inserted_later he.db (h.inserted n e hn)
  · intro n m e f hn hm hp hi
    rcases hrow hn with ⟨rfl, rfl⟩ | hn
    · rcases hrow hm with ⟨rfl, -⟩ | hm
      · rfl
      · exact absurd hi.symm (hno m f hm hp.symm)
    · rcases hrow hm with ⟨rfl, rfl⟩ | hm
      · exact absurd hi (hno n e hn hp)
      · exact h.unique n m e f hn hm hp hi
  · intro p
    rw [executionsOf_insert hexec]
    split_ifs with hp
    · subst hp
      rw [List.map_append, h.inOrder, length_executionsOf h hb hno]
      simp [length_executionsOf h hb hno, List.range_succ]
    · rw [List.append_nil]
      exact h.inOrder p
  · intro p e hmem
    rw [executionsOf_insert hexec] at hmem
    split_ifs at hmem with hp
    · subst hp
      rw [List.dropLast_concat] at hmem
      obtain ⟨n, hn, hep⟩ := mem_executionsOf.mp hmem
      have hlt : e.actionIndex ∈ List.range (c.db.executionsOf x.planId).length := by
        rw [← h.inOrder]
        exact List.mem_map_of_mem hmem
      rw [List.mem_range, length_executionsOf h hb hno] at hlt
      exact (hb _ hlt).row h hn hep rfl
    · rw [List.append_nil] at hmem
      exact h.done p e hmem
  · rw [hsent]
    exact fun s hs => (h.sent s hs).later he
  · rw [hsent]
    exact h.once
  · rw [hsent]
    intro t ht n e hn hp hi
    rcases hrow hn with ⟨-, rfl⟩ | hn
    · obtain ⟨m, f, hm, hfp, hfi, -⟩ := (h.sent t ht).row
      exact absurd (hfi.trans hi.symm) (hno m f hm (hfp.trans hp.symm))
    · exact h.fits t ht n e hn hp hi
  · intro a p i b hmem
    rw [howed] at hmem
    have hOld : (a, p, i, b) ∈ c.hist.owed → ∃ n e, c'.db.executions.get? n = some e ∧ e.planId = p ∧
        e.actionIndex = i ∧ e.insertedBy = a ∧ e.Calls b := by
      intro hmem
      obtain ⟨n, e, hn, hrest⟩ := h.owed a p i b hmem
      exact ⟨n, e, hold hn, hrest⟩
    split_ifs at hmem with hst
    · rcases List.mem_cons.mp hmem with heq | hmem
      · simp only [Prod.mk.injEq] at heq
        obtain ⟨rfl, rfl, rfl, rfl⟩ := heq
        exact ⟨_, x, hnew, rfl, rfl, rfl, has.trans hst⟩
      · exact hOld hmem
    · exact hOld hmem
  · intro n e b hn hcalls
    rw [haudit]
    rcases hrow hn with ⟨-, rfl⟩ | hn
    · cases b with
      | true => exact absurd hcalls hs
      | false =>
        have hst : e.status = .started := has.symm.trans hcalls
        rw [if_pos (by rw [howed, if_pos hst]; exact List.mem_cons_self)]
        by_contra hpos
        obtain ⟨m, f, hm, hp, hi, -⟩ := h.recorded _ _ _ (Nat.pos_of_ne_zero hpos)
        exact hno m f hm hp hi
    · rw [h.audited n e b hn hcalls]
      exact if_congr (hkey hn).symm rfl rfl
  · intro p i b hpos
    rw [haudit] at hpos
    obtain ⟨n, e, hn, hrest⟩ := h.recorded p i b hpos
    exact ⟨n, e, hold hn, hrest⟩

/-- UPDATE of a row that is started, with its outcome. -/
theorem ExecOk.update {c c' : Core} {f : Execution → Execution} {n : ℕ} {x : Execution} (h : ExecOk c)
    (he : Evolves c c') (hn : c.db.executions.get? n = some x) (hst : x.status = .started)
    (hexec : c'.db.executions = c.db.executions.update fun _ => Execution.updated x.planId x.actionIndex f)
    (hf : ∀ e, (f e).planId = e.planId ∧ (f e).actionIndex = e.actionIndex ∧ (f e).insertedBy = e.insertedBy ∧
      (f e).insertedAs = e.insertedAs)
    (hout : (f x).status ≠ .started) (haudit : ∀ q, c'.db.audited q = c.db.audited q)
    (hsent : c'.hist.sent = c.hist.sent)
    (hfits : ∀ s ∈ c.hist.sent, s.planId = x.planId → s.index = x.actionIndex → s.Fits (f x).status)
    (howed : c'.hist.owed = if (f x).status = .succeeded then
      (x.insertedBy, x.planId, x.actionIndex, true) :: c.hist.owed else c.hist.owed) : ExecOk c' := by
  set g := Execution.updated x.planId x.actionIndex f with hg
  have hgx : g x = f x := by simp [hg, Execution.updated]
  have hgid : ∀ {m e}, c.db.executions.get? m = some e → m ≠ n → g e = e := by
    intro m e hm hne
    rw [hg, Execution.updated, if_neg]
    rintro ⟨hp, hi⟩
    exact hne (h.unique m n e x hm hn hp hi)
  have hgkey : ∀ e, (g e).planId = e.planId ∧ (g e).actionIndex = e.actionIndex ∧ (g e).insertedBy = e.insertedBy ∧
      (g e).insertedAs = e.insertedAs := by
    intro e
    rw [hg, Execution.updated]
    split_ifs
    · exact hf e
    · exact ⟨rfl, rfl, rfl, rfl⟩
  have hrow : ∀ {m e}, c'.db.executions.get? m = some e →
      ∃ e₀, c.db.executions.get? m = some e₀ ∧ e = g e₀ := by
    intro m e hm
    rw [hexec, Table.get?_update] at hm
    obtain ⟨e₀, he₀, hge⟩ := Option.map_eq_some_iff.mp hm
    exact ⟨e₀, he₀, hge.symm⟩
  have hput : ∀ {m e}, c.db.executions.get? m = some e → c'.db.executions.get? m = some (g e) := by
    intro m e hm
    rw [hexec, Table.get?_update, hm]
    rfl
  have hof : ∀ p, c'.db.executionsOf p = (c.db.executionsOf p).map g := by
    intro p
    unfold Db.executionsOf
    rw [hexec, Table.rows_update, List.filter_map]
    congr 1
    exact List.filter_congr fun e _ => by simp [(hgkey e).1]
  -- a row is the one updated, with what it was called for, or it is as it was
  have hcases : ∀ {m e}, c.db.executions.get? m = some e → m = n ∧ e = x ∨ m ≠ n ∧ g e = e := by
    intro m e hm
    by_cases hmn : m = n
    · subst hmn
      exact Or.inl ⟨rfl, Option.some.inj (hm.symm.trans hn)⟩
    · exact Or.inr ⟨hmn, hgid hm hmn⟩
  refine ⟨?_, ?_, ?_, ?_, ?_, ?_, ?_, ?_, ?_, ?_⟩
  · intro m y hm
    obtain ⟨e, hm₀, rfl⟩ := hrow hm
    rw [(hgkey e).1, (hgkey e).2.2.1]
    exact inserted_later he.db (h.inserted m e hm₀)
  · intro m k y z hm hk hp hi
    obtain ⟨e, hm₀, rfl⟩ := hrow hm
    obtain ⟨e', hk₀, rfl⟩ := hrow hk
    rw [(hgkey e).1, (hgkey e').1] at hp
    rw [(hgkey e).2.1, (hgkey e').2.1] at hi
    exact h.unique m k e e' hm₀ hk₀ hp hi
  · intro p
    rw [hof, List.map_map, List.length_map, ← h.inOrder p]
    exact List.map_congr_left fun e _ => (hgkey e).2.1
  · intro p y hmem
    rw [hof, ← List.map_dropLast] at hmem
    obtain ⟨e, hmem₀, rfl⟩ := List.mem_map.mp hmem
    have hs := h.done p e hmem₀
    obtain ⟨m, hm, -⟩ := mem_executionsOf.mp (List.dropLast_subset _ hmem₀)
    rcases hcases hm with ⟨-, rfl⟩ | ⟨-, hge⟩
    · rw [hst] at hs
      cases hs
    · rw [hge]
      exact hs
  · rw [hsent]
    exact fun s hs => (h.sent s hs).later he
  · rw [hsent]
    exact h.once
  · rw [hsent]
    intro s hs m y hm₀ hp hi
    obtain ⟨e, hm, rfl⟩ := hrow hm₀
    rw [(hgkey e).1] at hp
    rw [(hgkey e).2.1] at hi
    rcases hcases hm with ⟨-, rfl⟩ | ⟨-, hge⟩
    · rw [hgx]
      exact hfits s hs hp.symm hi.symm
    · rw [hge]
      exact h.fits s hs m e hm hp hi
  · intro a p i b hmem
    rw [howed] at hmem
    have hOld : (a, p, i, b) ∈ c.hist.owed → ∃ n e, c'.db.executions.get? n = some e ∧ e.planId = p ∧
        e.actionIndex = i ∧ e.insertedBy = a ∧ e.Calls b := by
      intro hmem
      obtain ⟨m, e, hm, hp, hi, ha, hc⟩ := h.owed a p i b hmem
      refine ⟨m, g e, hput hm, (hgkey e).1.trans hp, (hgkey e).2.1.trans hi, (hgkey e).2.2.1.trans ha, ?_⟩
      rcases hcases hm with ⟨-, rfl⟩ | ⟨-, hge⟩
      · cases b with
        | true => exact absurd (hst.symm.trans hc) (by decide)
        | false => exact (hgkey e).2.2.2.trans hc
      · rw [hge]
        exact hc
    split_ifs at hmem with hsucc
    · rcases List.mem_cons.mp hmem with heq | hmem
      · simp only [Prod.mk.injEq] at heq
        obtain ⟨rfl, rfl, rfl, rfl⟩ := heq
        exact ⟨n, g x, hput hn, (hgkey x).1, (hgkey x).2.1, (hgkey x).2.2.1, by rw [hgx]; exact hsucc⟩
      · exact hOld hmem
    · exact hOld hmem
  · intro m y b hm₀ hcalls
    obtain ⟨e, hm, rfl⟩ := hrow hm₀
    rw [haudit, (hgkey e).1, (hgkey e).2.1, (hgkey e).2.2.1]
    have hkeep : e ≠ x ∨ b = false → ((e.insertedBy, e.planId, e.actionIndex, b) ∈ c'.hist.owed ↔
        (e.insertedBy, e.planId, e.actionIndex, b) ∈ c.hist.owed) := by
      intro hne
      rw [howed]
      split_ifs
      · rw [List.mem_cons, or_iff_right]
        intro heq
        simp only [Prod.mk.injEq] at heq
        rcases hne with hne | rfl
        · rcases hcases hm with ⟨-, hex⟩ | ⟨hmn, -⟩
          · exact hne hex
          · exact hmn (h.unique m n e x hm hn heq.2.1 heq.2.2.1)
        · exact absurd heq.2.2.2 (by decide)
      · rfl
    rcases hcases hm with ⟨-, rfl⟩ | ⟨hmn, hge⟩
    · cases b with
      | false =>
        rw [h.audited m e false hm ((hgkey e).2.2.2.symm.trans hcalls)]
        exact if_congr (hkeep (Or.inr rfl)).symm rfl rfl
      | true =>
        rw [if_pos]
        · by_contra hpos
          obtain ⟨k, y, hk, hp, hi, hc⟩ := h.recorded _ _ _ (Nat.pos_of_ne_zero hpos)
          obtain rfl := h.unique k n y e hk hn hp hi
          obtain rfl : y = e := Option.some.inj (hk.symm.trans hn)
          exact absurd (hst.symm.trans hc) (by decide)
        · rw [hgx] at hcalls
          rw [howed, if_pos (show (f e).status = .succeeded from hcalls)]
          exact List.mem_cons_self
    · rw [hge] at hcalls
      rw [h.audited m e b hm hcalls]
      refine if_congr (hkeep (Or.inl fun hex => ?_)).symm rfl rfl
      subst hex
      exact hmn (h.unique m n e e hm hn rfl rfl)
  · intro p i b hpos
    rw [haudit] at hpos
    obtain ⟨m, e, hm, hp, hi, hc⟩ := h.recorded p i b hpos
    refine ⟨m, g e, hput hm, (hgkey e).1.trans hp, (hgkey e).2.1.trans hi, ?_⟩
    rcases hcases hm with ⟨-, rfl⟩ | ⟨-, hge⟩
    · cases b with
      | true => exact absurd (hst.symm.trans hc) (by decide)
      | false => exact (hgkey e).2.2.2.trans hc
    · rw [hge]
      exact hc

/-- The audit row of an outcome that is owed. -/
theorem ExecOk.audit {c c' : Core} {a : Attempt} {p i : ℕ} {b : Bool} {x : AuditEntry} (h : ExecOk c)
    (he : Evolves c c') (hexec : c'.db.executions = c.db.executions) (hsent : c'.hist.sent = c.hist.sent)
    (haudit : c'.db.audit = c.db.audit ++ [x]) (hx : x.event.outcome = some (p, i, b))
    (hmem : (a, p, i, b) ∈ c.hist.owed) (howed : c'.hist.owed = c.hist.owed.filter (· ≠ (a, p, i, b))) :
    ExecOk c' := by
  obtain ⟨n, e₀, hn, rfl, rfl, rfl, hcalls⟩ := h.owed a p i b hmem
  have hcount : ∀ q, c'.db.audited q = c.db.audited q + if q = (e₀.planId, e₀.actionIndex, b) then 1 else 0 := by
    intro q
    unfold Db.audited
    rw [haudit, List.countP_append]
    congr 1
    simp only [List.countP_singleton, hx, Option.some.injEq, decide_eq_true_eq]
    exact if_congr eq_comm rfl rfl
  have hof : ∀ q, c'.db.executionsOf q = c.db.executionsOf q := fun q => by
    unfold Db.executionsOf
    rw [hexec]
  refine ⟨?_, ?_, ?_, ?_, ?_, ?_, ?_, ?_, ?_, ?_⟩
  · rw [hexec]; exact fun m e hm => inserted_later he.db (h.inserted m e hm)
  · rw [hexec]; exact h.unique
  · intro q; rw [hof]; exact h.inOrder q
  · intro q; rw [hof]; exact h.done q
  · rw [hsent]; exact fun s hs => (h.sent s hs).later he
  · rw [hsent]; exact h.once
  · rw [hsent, hexec]; exact h.fits
  · rw [hexec, howed]
    exact fun a p i b hm => h.owed a p i b (List.mem_filter.mp hm).1
  · rw [hexec, howed]
    intro m e b' hm hc
    rw [hcount, h.audited m e b' hm hc]
    by_cases hkey : (e.planId, e.actionIndex, b') = (e₀.planId, e₀.actionIndex, b)
    · simp only [Prod.mk.injEq] at hkey
      obtain ⟨hp, hi, rfl⟩ := hkey
      obtain rfl := h.unique m n e e₀ hm hn hp hi
      obtain rfl : e = e₀ := Option.some.inj (hm.symm.trans hn)
      simp [hmem]
    · have hne : (e.insertedBy, e.planId, e.actionIndex, b') ≠ (e₀.insertedBy, e₀.planId, e₀.actionIndex, b) :=
        fun heq => hkey (by simp only [Prod.mk.injEq] at heq ⊢; exact heq.2)
      rw [if_neg hkey, Nat.add_zero]
      refine if_congr ?_ rfl rfl
      simp [List.mem_filter, hne]
  · rw [hexec]
    intro q j b' hpos
    rw [hcount] at hpos
    by_cases hkey : (q, j, b') = (e₀.planId, e₀.actionIndex, b)
    · simp only [Prod.mk.injEq] at hkey
      obtain ⟨rfl, rfl, rfl⟩ := hkey
      exact ⟨n, e₀, hn, rfl, rfl, hcalls⟩
    · rw [if_neg hkey, Nat.add_zero] at hpos
      exact h.recorded q j b' hpos

/-- The PATCH of an action that was not sent before. -/
theorem ExecOk.send {c c' : Core} {s : Sent} (h : ExecOk c) (he : Evolves c c') (hdb : c'.db = c.db)
    (hsent : c'.hist.sent = c.hist.sent ++ [s]) (howed : c'.hist.owed = c.hist.owed) (hs : SentOk c s)
    (hnew : ∀ t ∈ c.hist.sent, t.attempt = s.attempt → (t.planId, t.index) ≠ (s.planId, s.index))
    (hfits : ∀ n e, c.db.executions.get? n = some e → e.planId = s.planId → e.actionIndex = s.index →
      s.Fits e.status) : ExecOk c' := by
  have hunsent : ∀ t ∈ c.hist.sent, (t.planId, t.index) ≠ (s.planId, s.index) := by
    intro t ht heq
    obtain ⟨n, e, hn, hp, hi, ha⟩ := (h.sent t ht).row
    obtain ⟨m, f, hm, hp', hi', ha'⟩ := hs.row
    simp only [Prod.mk.injEq] at heq
    obtain rfl := h.unique n m e f hn hm (by rw [hp, hp', heq.1]) (by rw [hi, hi', heq.2])
    obtain rfl : e = f := Option.some.inj (hn.symm.trans hm)
    exact hnew t ht (ha.symm.trans ha') (by rw [heq.1, heq.2])
  refine ⟨?_, ?_, ?_, ?_, ?_, ?_, ?_, ?_, ?_, ?_⟩
  · rw [hdb]; exact h.inserted
  · rw [hdb]; exact h.unique
  · rw [hdb]; exact h.inOrder
  · rw [hdb]; exact h.done
  · rw [hsent]
    intro t ht
    rcases List.mem_append.mp ht with ht | ht
    · exact (h.sent t ht).later he
    · obtain rfl := List.mem_singleton.mp ht
      exact hs.later he
  · rw [hsent, List.map_append, List.nodup_append]
    refine ⟨h.once, by simp, fun k hk l hl => ?_⟩
    obtain ⟨t, ht, rfl⟩ := List.mem_map.mp hk
    obtain rfl := List.mem_singleton.mp hl
    exact hunsent t ht
  · rw [hsent, hdb]
    intro t ht n e hn hp hi
    rcases List.mem_append.mp ht with ht | ht
    · exact h.fits t ht n e hn hp hi
    · obtain rfl := List.mem_singleton.mp ht
      exact hfits n e hn hp hi
  · rw [hdb, howed]; exact h.owed
  · rw [hdb, howed]; exact h.audited
  · rw [hdb]; exact h.recorded

end Blackboard
