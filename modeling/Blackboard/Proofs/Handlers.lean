import Blackboard.Proofs.Attempts
import Blackboard.Proofs.Submission

/-! The worker's handlers. Whatever way one returns, its incident is beyond what the job drives;
it moved it on itself, or finds that somebody did. -/

namespace Blackboard

open Threads

variable {ctx : JobContext} {s : Core}

/-- A job of the incident, as the handlers enqueue it. -/
theorem enqueue_incident {now : Time} {id : ℕ} {tenant : String} {priority : ℕ} {kind : Kind} {settings : Settings}
    {d e : Db} {o : Option ℕ} (h : (Handlers.enqueue now id tenant priority kind settings).run d = .ok (o, e))
    (hf : Jobs.keyTaken d.jobs (some (.incident id kind)) = false) :
    e = { d with jobs := d.jobs.insert (Jobs.rowOf now (Handlers.job id tenant priority kind settings)) } := by
  rcases Tx.enqueue_ok h with ⟨ht, -⟩ | ⟨-, he⟩
  · rw [show (Handlers.job id tenant priority kind settings).idempotencyKey = some (.incident id kind) from rfl,
      hf] at ht
    cases ht
  · exact he

/-- The move of triage and of a diagnosis: with automation on, the next job comes with it. -/
theorem Guar.next {a : Attempt} {c : Core} {d e : Db} {now : Time} {m : Transition} {v : ℕ} {kind : Kind}
    {tenant : String} {priority : ℕ} {settings : Settings} {o : Option ℕ} (hinv : Inv c) (hhold : Holds a c.db)
    (hrun : (Tx.transition now m).run c.db = .ok (v, d))
    (henq : (Handlers.enqueue now m.incident tenant priority kind settings).run d = .ok (o, e))
    (hkind : kind = .investigate ∧ m.fromState = .received ∧ m.toState = .triaged ∨
      kind = .plan ∧ m.fromState = .investigating ∧ m.toState = .diagnosed) :
    Guar (.job a) c (c.write e) := by
  obtain ⟨-, i, hi, hst, -, -, rfl⟩ := Tx.transition_ok hrun
  have hrank : i.state.rank < kind.since := by
    rw [hst]
    rcases hkind with ⟨rfl, hfrom, -⟩ | ⟨rfl, hfrom, -⟩ <;> rw [hfrom] <;> decide
  have hf := hinv.jobs.fresh_incident hi hrank
  have he := enqueue_incident henq hf
  have hto : m.fromState.rank ≤ m.toState.rank ∧ m.toState ≠ .awaitingApproval ∧ kind ≠ .execute ∧
      kind.ofPlan = false ∧ m.toState.driver = some kind ∧ kind.since ≤ m.toState.rank ∧ m.fromState ≠ .executing ∧
      m.fromState ≠ .awaitingApproval := by
    rcases hkind with ⟨rfl, hfrom, ht⟩ | ⟨rfl, hfrom, ht⟩ <;> rw [hfrom, ht] <;> decide
  obtain ⟨h1, h2, h3, h4, h5, h6, h7, h8⟩ := hto
  refine Guar.handOver hinv (fun _ => h8) hhold hrun he rfl rfl h1 h2 rfl hf h3 rfl
    (fun j hj hjs => ⟨?_, ?_⟩) fun h => absurd h h7
  · exact ⟨m.incident, j, rfl, hj, by rw [hjs]; exact h6, Or.inl ⟨h4, rfl⟩⟩
  · exact ⟨rfl, by rw [hjs]; exact h5, fun ho => by
      rw [show (Jobs.rowOf now _).kind = kind from rfl, h4] at ho; cases ho⟩

/-- The same with automation off: there is no job for the new state. -/
theorem Guar.stop {a : Attempt} {c : Core} {e : Db} {now : Time} {m : Transition} {v : ℕ}
    (hinv : Inv c) (hhold : Holds a c.db) (hrun : (Tx.transition now m).run c.db = .ok (v, e))
    (hmanual : c.hist.manual = true)
    (hkind : m.fromState = .received ∧ m.toState = .triaged ∨ m.fromState = .investigating ∧ m.toState = .diagnosed) :
    Guar (.job a) c (c.write e) := by
  have hto : m.fromState.rank ≤ m.toState.rank ∧ m.toState ≠ .awaitingApproval ∧ m.fromState ≠ .executing ∧
      m.fromState ≠ .awaitingApproval := by
    rcases hkind with ⟨hfrom, ht⟩ | ⟨hfrom, ht⟩ <;> rw [hfrom, ht] <;> decide
  refine Guar.transition (l := []) hinv (.job a c) (.of_eq rfl) (fun _ h => absurd h hto.2.2.2) hhold
    (by rw [List.append_nil]; exact hrun) (by simp) rfl rfl hto.1 hto.2.1 (fun h => ?_) fun h => absurd h hto.2.2.1
  rw [hmanual] at h
  cases h

theorem moved_passed {now : Time} {m : Transition} {d e : Db} {v : ℕ} {job : Job} {kind : Kind} {y : State}
    (hrun : (Tx.transition now m).run d = .ok (v, e)) (hid : job.incidentId = some m.incident)
    (hk : job.kind = kind) (hy : m.toState = y) (hr : kind.upTo < y.rank) : Passed job e := by
  subst hk hy
  obtain ⟨i, -, -, -, -, hw⟩ := transition_walk hrun
  exact .of_rank hid hw.moved.after hr

theorem enqueue_passed {now : Time} {x : Enqueue} {d e : Db} {o : Option ℕ} {job : Job}
    (h : (Tx.enqueue now x).run d = .ok (o, e)) (hp : Passed job d) : Passed job e := by
  rcases Tx.enqueue_ok h with ⟨-, rfl⟩ | ⟨-, rfl⟩
  · exact hp
  · exact hp

theorem triage_works (hk : Knows ctx s) (hc : Clear ctx.attempt s) (hkind : ctx.job.kind = .triage) :
    Works ctx (fun _ => Over ctx) (Handlers.triage ctx) s := by
  unfold Handlers.triage
  cases hid : ctx.job.incidentId with
  | none => exact .throw
  | some id =>
    refine .assertFence fun t ht hi => .select fun u hu hiu => ?_
    have hk := (hk.later ht.1).later hu.1
    have hc := (hc.later ht.2).later hu.2
    cases hinc : u.db.incidents.get? id with
    | none => exact .throw
    | some incident =>
      dsimp only
      split_ifs with hst hauto
      · refine .passed ⟨.of_rank hid hinc ?_, hc⟩
        rw [hkind]
        cases hs : incident.state <;> first | exact absurd hs hst | decide
      · refine .finish hc (fun _ _ _ => rfl) fun i b d w hw hiw hh hrun => ?_
        obtain ⟨v, d1, h1, h2⟩ := Tx.bind_ok.mp hrun
        obtain ⟨o, d2, h3, h4⟩ := Tx.bind_ok.mp h2
        obtain ⟨-, rfl⟩ := Tx.pure_ok.mp h4
        refine ⟨Guar.next hiw hh h1 h3 (Or.inl ⟨rfl, rfl, rfl⟩), ?_⟩
        exact enqueue_passed h3 (moved_passed (y := .triaged) h1 hid hkind rfl (by decide))
      · refine .finish hc (fun _ _ _ => rfl) fun i b d w hw hiw hh hrun => ?_
        obtain ⟨v, d1, h1, h2⟩ := Tx.bind_ok.mp hrun
        obtain ⟨-, rfl⟩ := Tx.pure_ok.mp h2
        refine ⟨Guar.stop hiw hh h1 ?_ (Or.inl ⟨rfl, rfl⟩), moved_passed (y := .triaged) h1 hid hkind rfl (by decide)⟩
        by_contra hman
        exact hauto ((hk.later hw.1).auto (by simpa using hman)).1

theorem startInvestigation_works {id : ℕ} (hk : Knows ctx s) (hc : Clear ctx.attempt s)
    (hkind : ctx.job.kind = .investigate) (hid : ctx.job.incidentId = some id) :
    Works ctx (fun r c => Clear ctx.attempt c ∧ (r = none → Passed ctx.job c.db))
      (Handlers.startInvestigation ctx id) s := by
  unfold Handlers.startInvestigation
  refine .assertFence fun t ht hi => .select fun u hu hiu => ?_
  have hc := (hc.later ht.2).later hu.2
  cases hinc : u.db.incidents.get? id with
  | none => exact .throw
  | some incident =>
    dsimp only
    split_ifs with h1 h2
    · refine .bind (R := fun _ => Clear ctx.attempt) (.commit fun i b d w hw hiw hh hrun => ⟨?_, fun x hx _ _ => ?_⟩)
        fun v t hc => .pure fun _ ht _ => ⟨hc.later ht.2, fun h => by cases h⟩
      on_goal 2 => exact Owing.later (c := w.write d) (fun y hy => hc.later hw.2 y hy) hx.2
      refine Guar.transition (l := []) (x := .triaged) (y := .investigating) hiw (.job _ w) (.of_eq rfl)
        (fun _ h => by cases h) hh (by rw [List.append_nil]; exact hrun) (by simp) rfl rfl (by decide)
        (by decide) (fun hman j hj hjs _ j' hj' hjs' => ?_) (fun h => by cases h)
      -- the job that drove TRIAGED drives INVESTIGATING
      obtain ⟨n, r, hr, hdone, hd⟩ := hiw.driven hman id j hj (by rw [hjs]; decide)
      have hkr : r.kind = .investigate := by
        have := hd.kind
        rw [hjs] at this
        exact (Option.some.inj this).symm
      obtain ⟨-, i', -, -, -, -, rfl⟩ := Tx.transition_ok hrun
      exact ⟨n, r, hr, hdone, hd.incident, by rw [hjs', hkr]; rfl, fun ho => by rw [hkr] at ho; cases ho⟩
    · exact .pure fun _ ht _ => ⟨hc.later ht.2, fun h => by cases h⟩
    · refine .pure fun w hw _ => ⟨hc.later hw.2, fun _ => Passed.later (.of_rank hid hinc ?_) hw.1.db⟩
      rw [hkind]
      have hr := ((hk.later ht.1).later hu.1).rank hiu hid hinc
      rw [hkind] at hr
      cases hs : incident.state <;> rw [hs] at hr <;>
        first | exact absurd hs h1 | exact absurd hs h2 | exact absurd hr (by decide) | decide

theorem investigate_works (hk : Knows ctx s) (hc : Clear ctx.attempt s) (hkind : ctx.job.kind = .investigate) :
    Works ctx (fun _ => Over ctx) (Handlers.investigate ctx) s := by
  unfold Handlers.investigate
  cases hid : ctx.job.incidentId with
  | none => exact .throw
  | some id =>
    refine .bind ((startInvestigation_works hk hc hkind hid).frame (fun _ _ he hk => hk.later he) hk)
      fun r t ⟨⟨hc, hnone⟩, hk⟩ => ?_
    cases r with
    | none => exact .passed ⟨hnone rfl, hc⟩
    | some x =>
      obtain ⟨incident, version⟩ := x
      refine .look fun i outcome u hu hiu _ => .assertFence fun w hw hiw => ?_
      have hk := (hk.later hu.1).later hw.1
      have hc := (hc.later hu.2).later hw.2
      split
      · split_ifs with hauto
        · refine .finish hc (fun _ _ _ => rfl) fun i b d x hx hix hh hrun => ?_
          obtain ⟨v, d1, h1, h2⟩ := Tx.bind_ok.mp hrun
          obtain ⟨o, d2, h3, h4⟩ := Tx.bind_ok.mp h2
          obtain ⟨-, rfl⟩ := Tx.pure_ok.mp h4
          exact ⟨Guar.next hix hh h1 h3 (Or.inr ⟨rfl, rfl, rfl⟩),
            enqueue_passed h3 (moved_passed (y := .diagnosed) h1 hid hkind rfl (by decide))⟩
        · refine .finish hc (fun _ _ _ => rfl) fun i b d x hx hix hh hrun => ?_
          obtain ⟨v, d1, h1, h2⟩ := Tx.bind_ok.mp hrun
          obtain ⟨-, rfl⟩ := Tx.pure_ok.mp h2
          refine ⟨Guar.stop hix hh h1 ?_ (Or.inr ⟨rfl, rfl⟩),
            moved_passed (y := .diagnosed) h1 hid hkind rfl (by decide)⟩
          by_contra hman
          exact hauto ((hk.later hx.1).auto (by simpa using hman)).2
      · exact .throw
      · refine .finish hc (fun _ _ _ => rfl) fun i b d x hx hix hh hrun => ?_
        obtain ⟨v, d1, h1, h2⟩ := Tx.bind_ok.mp hrun
        obtain ⟨-, rfl⟩ := Tx.pure_ok.mp h2
        refine ⟨?_, moved_passed (y := .escalated) h1 hid hkind rfl (by decide)⟩
        exact Guar.close (l := []) hix hh (by rw [List.append_nil]; exact h1) (by simp) rfl (fun _ h => by cases h)
          fun h => by cases h

/-! Submitting a plan. -/

/-- The incident is at the version that was read, or beyond. -/
def AtLeast (d : Db) (id v : ℕ) : Prop := ∃ i, d.incidents.get? id = some i ∧ v ≤ i.version

theorem AtLeast.later {d e : Db} {id v : ℕ} (h : AtLeast d id v) (hd : d.Later e) : AtLeast e id v := by
  obtain ⟨i, hi, hv⟩ := h
  obtain ⟨j, hj, hij⟩ := hd.incidents _ _ hi
  exact ⟨j, hj, hv.trans hij.version⟩

/-- At the version that was read, the plans are those that were read after it. -/
theorem AtLeast.currentPlan {d e : Db} {id : ℕ} {i : Incident} (h : AtLeast d id i.version) (hd : d.Later e)
    (hi : e.incidents.get? id = some i) : e.currentPlan id = d.currentPlan id := by
  obtain ⟨j, hj, hv⟩ := h
  obtain ⟨i', hi', hji⟩ := hd.incidents _ _ hj
  obtain rfl : i = i' := Option.some.inj (hi.symm.trans hi')
  have := hji.version
  exact hd.planned id j i hj hi (by omega)

/-- What a submission comes to in the state it commits in. -/
def SubmitsTo (id : ℕ) (st : State) (d e : Db) : Prop :=
  ∃ i j row v l, Submitted d e id i j row v l ∧ i.state = st ∧ row.incidentId = id ∧
    row.seq = 1 + d.maxSeq id ∧ row.verdict = v ∧ (v = .requireApproval → row.expiresAt.isSome)

theorem submit_does {k : Caller} {Q : ℕ × State → Core → Prop} {E : Err → Core → Prop} {sha256 : String → String}
    {id : ℕ} {incident : Incident} {plan : RemediationPlan} {proposedBy actor : Actor} {settings : Settings}
    {finish : (Input → Tx (ℕ × State)) → Handler (ℕ × State)}
    (hE : ∀ e t, rely k s t → Inv t → E e t) (hv : AtLeast s.db id incident.version)
    (h : ∀ body t, rely k s t → Inv t →
      (∀ i a d u, rely k t u → Inv u → (body i).run u.db = .ok (a, d) → SubmitsTo id incident.state u.db d) →
      Does (contract k) Q E (finish body) t) :
    Does (contract k) Q E (Flow.submit sha256 id incident plan proposedBy actor settings finish) s := by
  unfold Flow.submit
  refine review_bind hE (Nat.zero_le _) fun context t ht hi _ => ?_
  have hE := fun e u (hu : rely k t u) => hE e u (rely_trans k _ _ _ ht hu)
  refine select_bind hE fun u hu hiu => ?_
  have hE := fun e w (hw : rely k u w) => hE e w (rely_trans k _ _ _ hu hw)
  refine clock_bind hE fun expires w hw hiw => ?_
  refine h _ w (rely_trans k _ _ _ (rely_trans k _ _ _ ht hu) hw) hiw fun i a d x hx hix hrun => ?_
  obtain ⟨p, st⟩ := a
  obtain ⟨j, j', l, hs, hst, hver⟩ := submitted_ok hix.jobs hrun
  refine ⟨j, j', _, _, l, hs, hst, rfl, ?_, rfl, fun hreq => by simp [hreq]⟩
  have hle := (hv.later ht.1.db).later hu.1.db
  rw [← hver] at hle
  unfold Db.maxSeq
  rw [hle.currentPlan (hw.1.db.trans hx.1.db) hs.moved.before]

theorem plan_works {sha256 : String → String} (hk : Knows ctx s) (hc : Clear ctx.attempt s)
    (hkind : ctx.job.kind = .plan) : Works ctx (fun _ => Over ctx) (Handlers.plan sha256 ctx) s := by
  unfold Handlers.plan
  cases hid : ctx.job.incidentId with
  | none => exact .throw
  | some id =>
    -- a plan job finds its incident diagnosed, or further on
    have hdone : ∀ {c : Core} {i : Incident}, Knows ctx c → Inv c → c.db.incidents.get? id = some i →
        i.state ≠ .diagnosed → Passed ctx.job c.db := by
      intro c i hk hi hinc hst
      refine .of_rank hid hinc ?_
      have hr := hk.rank hi hid hinc
      rw [hkind] at hr ⊢
      cases hs : i.state <;> rw [hs] at hr <;>
        first | exact absurd hs hst | exact absurd hr (by decide) | decide
    refine .select fun t ht hi => ?_
    have hk := hk.later ht.1
    have hc := hc.later ht.2
    cases hinc : t.db.incidents.get? id with
    | none => exact .throw
    | some incident =>
      dsimp only
      split_ifs with hst
      · exact .passed ⟨hdone hk hi hinc hst, hc⟩
      refine .select fun u hu hiu => ?_
      have hk := hk.later hu.1
      have hc := hc.later hu.2
      refine .bind (R := fun _ c => Knows ctx c ∧ Clear ctx.attempt c) ?_ fun proposal w ⟨hk, hc⟩ => ?_
      · cases u.db.diagnosis id with
        | none => exact .pure fun _ hw _ => ⟨hk.later hw.1, hc.later hw.2⟩
        | some dx =>
          exact .read fun _ _ w hw _ _ x hx _ => ⟨(hk.later hw.1).later hx.1, (hc.later hw.2).later hx.2⟩
      refine .assertFence fun x hx hix => .select fun y hy hiy => ?_
      have hk := (hk.later hx.1).later hy.1
      have hc := (hc.later hx.2).later hy.2
      cases hinc : y.db.incidents.get? id with
      | none =>
        obtain ⟨i, hi, -⟩ := hk.incident hiy hid
        rw [hinc] at hi
        cases hi
      | some incident =>
        dsimp only
        split_ifs with hst
        · exact .passed ⟨hdone hk hiy hinc hst, hc⟩
        cases proposal.plan with
        | none =>
          refine .finish hc (fun _ _ _ => rfl) fun i b d z hz hiz hh hrun => ?_
          obtain ⟨v, d1, h1, h2⟩ := Tx.bind_ok.mp hrun
          obtain ⟨-, rfl⟩ := Tx.pure_ok.mp h2
          refine ⟨?_, moved_passed (y := .escalated) h1 hid hkind rfl (by decide)⟩
          exact Guar.close (l := []) hiz hh (by rw [List.append_nil]; exact h1) (by simp) rfl (fun _ h => by cases h)
            fun h => by cases h
        | some p =>
          refine Does.bind (submit_does (fun _ _ _ _ => trivial) ⟨incident, hinc, le_rfl⟩ fun body z hz hiz hbody => ?_)
          refine Works.commit fun i a d w hw hiw hh hrun => ?_
          obtain ⟨j, j', row, v, l, hs, hst', hinc', hseq, hv, hexp⟩ := hbody i a d w hw hiw hrun
          have hstate : j.state = .diagnosed := hst'.trans (by simpa using hst)
          refine ⟨Guar.submitted hiw (.job _ w) rfl hs (Or.inl hstate) hinc' hseq hv hexp, fun x hx hix _ => ?_⟩
          refine Works.passed (Over.later (c := w.write d) ⟨.of_rank hid hs.moved.after ?_, ?_⟩ hx)
          · rw [hkind, hs.outcome]
            cases v <;> decide
          · exact fun y hy => (hc.later hz.2).later hw.2 y hy

theorem approval_row {d : Db} {p : ℕ} {a : Approval} (h : d.approval p = some a) :
    ∃ n, d.approvals.get? n = some a ∧ a.planId = p := by
  obtain ⟨n, hn⟩ := Table.mem_rows.mp (List.mem_of_find?_eq_some h)
  exact ⟨n, hn, by simpa using List.find?_some h⟩

theorem approvalTimeout_works (hk : Knows ctx s) (hc : Clear ctx.attempt s)
    (hkind : ctx.job.kind = .approvalTimeout) :
    Works ctx (fun _ => Over ctx) (Handlers.approvalTimeout ctx) s := by
  unfold Handlers.approvalTimeout
  cases hid : ctx.job.incidentId with
  | none => exact .throw
  | some id =>
    refine .assertFence fun t ht hi => .select fun u hu hiu => ?_
    have hk := (hk.later ht.1).later hu.1
    have hc := (hc.later ht.2).later hu.2
    cases hinc : u.db.incidents.get? id with
    | none =>
      obtain ⟨i, hi, -⟩ := hk.incident hiu hid
      rw [hinc] at hi
      cases hi
    | some incident =>
      dsimp only
      split_ifs with hst
      · refine .passed ⟨.of_rank hid hinc ?_, hc⟩
        have hr := hk.rank hiu hid hinc
        rw [hkind] at hr ⊢
        cases hs : incident.state <;> rw [hs] at hr <;>
          first | exact absurd hs hst | exact absurd hr (by decide) | decide
      have hst : incident.state = .awaitingApproval := by simpa using hst
      refine .select fun w hw hiw => ?_
      have hk := hk.later hw.1
      have hc := hc.later hw.2
      obtain ⟨r, hr, -, hkr, hir, hpay⟩ := hk.row
      obtain ⟨p, row, hp, hrow, hrid⟩ := hiw.jobs.plan_payload hr (by rw [hkr, hkind]; rfl) (hir.trans hid)
      rw [hpay] at hp
      cases hcur : w.db.currentPlan id with
      | none =>
        have hmem : (p, row) ∈ w.db.plans.select fun _ r => r.incidentId = id :=
          Table.mem_select.mpr ⟨hrow, by simp [hrid]⟩
        rw [List.argmax_eq_none.mp hcur] at hmem
        cases hmem
      | some x =>
        obtain ⟨q, plan⟩ := x
        obtain ⟨hlat, hqid⟩ := currentPlan_latest hcur
        dsimp only
        split_ifs with hpq
        · -- the incident has a later plan than the job's
          obtain ⟨i, hi', -⟩ := hk.incident hiw hid
          refine .passed ⟨fun id' hid' => ?_, hc⟩
          obtain rfl : id = id' := Option.some.inj (hid.symm.trans hid')
          refine ⟨i, hi', Or.inr ⟨hkind, p, hp, row, q, plan, hrow, hlat.1, hqid.trans hrid.symm, ?_⟩⟩
          have hle := hlat.2 p row hrow (hrid.trans hqid.symm)
          have hne : row.seq ≠ plan.seq := fun he => hpq (by
            rw [hp, hiw.plans.seqs p q row plan hrow hlat.1 (hrid.trans hqid.symm) he])
          omega
        refine .select fun x hx hix => ?_
        have hk := hk.later hx.1
        have hc := hc.later hx.2
        split_ifs with hsome
        · -- a decision has moved the incident on
          obtain ⟨a, ha⟩ := Option.isSome_iff_exists.mp hsome
          obtain ⟨n, hn, hap⟩ := approval_row ha
          obtain ⟨row', i, ho⟩ := hix.plans.approval n a hn
          obtain rfl : plan = row' := Option.some.inj ((hx.1.db.plans.get hlat.1).symm.trans (hap ▸ ho.latest.1))
          refine .passed ⟨.of_rank hid (hqid ▸ ho.incident) ?_, hc⟩
          rw [hkind]
          have hs := ho.settles
          unfold Settles at hs
          cases hdec : a.decision with
          | approve =>
            simp only [hdec] at hs
            exact hs.2.1
          | reject =>
            simp only [hdec] at hs
            rw [hs]
            decide
        · have hpq : ctx.job.payload.planId = some q := not_not.mp hpq
          refine .finish hc (fun _ _ _ => rfl) fun i b d y hy hiy hh hrun => ?_
          obtain ⟨v, d1, h1, h2⟩ := Tx.bind_ok.mp hrun
          obtain ⟨-, rfl⟩ := Tx.pure_ok.mp h2
          refine ⟨?_, moved_passed (y := .escalated) h1 hid hkind rfl (by decide)⟩
          -- the version of the move is the one read first, so the plan is still the last
          obtain ⟨j, -, hver, -, -, hwalk⟩ := transition_walk h1
          have hwy := hx.1.db.trans hy.1.db
          have hat : AtLeast w.db id j.version := hver ▸ .later ⟨incident, hinc, le_rfl⟩ hw.1.db
          obtain ⟨hlat', -⟩ := currentPlan_latest ((hat.currentPlan hwy hwalk.moved.before).trans hcur)
          have htimed : TimedOut d1 plan.incidentId := by
            rw [hwalk.rest, hqid]
            exact ⟨_, List.mem_append_right _ (List.mem_singleton_self _), rfl, rfl, _, _, rfl⟩
          have hjob : HasJob y.db .approvalTimeout q := by
            obtain ⟨r, hr, -, hkr, -, hpay⟩ := (hk.later hy.1).row
            exact ⟨_, r, hr, hkr.trans hkind, by rw [hpay]; exact hpq⟩
          rw [hpq]
          exact Guar.transition (l := []) (x := .awaitingApproval) (y := .escalated) hiy
            ⟨rfl, rfl, rfl, rfl, List.Subset.refl _, List.Subset.refl _, fun _ h => Or.inl h, fun _ h => by cases h⟩
            ⟨List.subset_cons_self _ _, fun r hr => (List.mem_cons.mp hr).elim
              (fun h => Or.inr ⟨h ▸ hjob, plan, h ▸ hlat', htimed⟩) Or.inl⟩
            (fun _ _ => ⟨q, List.mem_cons_self, plan, hlat', hqid⟩) hh (by rw [List.append_nil]; exact h1) (by simp)
            rfl rfl (by decide) (by decide) (fun _ _ _ _ h => absurd h (by decide)) fun h => by cases h

/-! Verification. -/

theorem verifying_passed {c : Core} {id : ℕ} {i : Incident} (hk : Knows ctx c) (hi : Inv c)
    (hkind : ctx.job.kind = .verify) (hid : ctx.job.incidentId = some id) (hinc : c.db.incidents.get? id = some i)
    (hst : i.state ≠ .verifying) : Passed ctx.job c.db := by
  refine .of_rank hid hinc ?_
  have hr := hk.rank hi hid hinc
  rw [hkind] at hr ⊢
  cases hs : i.state <;> rw [hs] at hr <;> first | exact absurd hs hst | exact absurd hr (by decide) | decide

theorem verified_works {id : ℕ} {ok : Bool} {reason : String} {samples : List Sample} {plan : Option (ℕ × PlanRow)}
    (hk : Knows ctx s) (hc : Clear ctx.attempt s) (hkind : ctx.job.kind = .verify)
    (hid : ctx.job.incidentId = some id) :
    Works ctx (fun _ => Over ctx) (Handlers.verified ctx id ok reason samples plan) s := by
  unfold Handlers.verified
  refine .assertFence fun t ht hi => .select fun u hu hiu => ?_
  have hk := (hk.later ht.1).later hu.1
  have hc := (hc.later ht.2).later hu.2
  cases hinc : u.db.incidents.get? id with
  | none =>
    obtain ⟨i, hi, -⟩ := hk.incident hiu hid
    rw [hinc] at hi
    cases hi
  | some incident =>
    dsimp only
    by_cases hst : incident.state ≠ .verifying
    · rw [if_pos hst]
      exact .passed ⟨verifying_passed hk hiu hkind hid hinc hst, hc⟩
    · rw [if_neg hst]
      refine .finish hc (fun _ _ _ => rfl) fun i b d w hw hiw hh hrun => ?_
      obtain ⟨x, d1, h1, h2⟩ := Tx.bind_ok.mp hrun
      obtain rfl := Tx.append_ok.mp h1
      obtain ⟨v, d2, h3, h4⟩ := Tx.bind_ok.mp h2
      obtain ⟨-, rfl⟩ := Tx.pure_ok.mp h4
      have hto : (if ok then State.resolved else .escalated).rank = 9 := by cases ok <;> rfl
      refine ⟨Guar.close hiw hh h3 ?_ hto (fun _ h => by cases h) (fun h => by cases h),
        moved_passed h3 hid hkind rfl (by rw [hto]; decide)⟩
      simp [Event.outcome, AuditEntry.TimesOut]

theorem watch_works {id : ℕ} {service : String} {check : Handlers.SliCheck} {deadline : Time}
    {plan : Option (ℕ × PlanRow)} {rounds : ℕ} {samples : List Sample} {streak : ℕ}
    (hk : Knows ctx s) (hc : Clear ctx.attempt s) (hkind : ctx.job.kind = .verify)
    (hid : ctx.job.incidentId = some id) :
    Works ctx (fun _ => Over ctx) (Handlers.watch ctx id service check deadline plan rounds samples streak) s := by
  induction rounds generalizing samples streak s with
  | zero => exact .throw
  | succ rounds ih =>
    unfold Handlers.watch
    refine .look fun i x t ht hi _ => ?_
    have hk := hk.later ht.1
    have hc := hc.later ht.2
    dsimp only
    generalize (if x.1.any (Sli.below check.healthyBelow) = true then streak + 1 else 0) = n
    split_ifs with hs
    · exact verified_works hk hc hkind hid
    · refine .clock fun now u hu hiu => ?_
      split_ifs with hd
      · exact verified_works (hk.later hu.1) (hc.later hu.2) hkind hid
      · exact ih (hk.later hu.1) (hc.later hu.2)

theorem verify_works {prometheus : Bool} (hk : Knows ctx s) (hc : Clear ctx.attempt s)
    (hkind : ctx.job.kind = .verify) : Works ctx (fun _ => Over ctx) (Handlers.verify ctx prometheus) s := by
  unfold Handlers.verify
  cases hid : ctx.job.incidentId with
  | none => exact .throw
  | some id =>
    refine .select fun t ht hi => ?_
    have hk := hk.later ht.1
    have hc := hc.later ht.2
    cases hinc : t.db.incidents.get? id with
    | none =>
      obtain ⟨i, hi, -⟩ := hk.incident hi hid
      rw [hinc] at hi
      cases hi
    | some incident =>
      dsimp only
      by_cases hst : incident.state ≠ .verifying
      · rw [if_pos hst]
        exact .passed ⟨verifying_passed hk hi hkind hid hinc hst, hc⟩
      rw [if_neg hst]
      refine .select fun u hu hiu => ?_
      have hk := hk.later hu.1
      have hc := hc.later hu.2
      cases Handlers.checkFor incident.labels with
      | none => exact verified_works hk hc hkind hid
      | some check =>
        dsimp only
        split_ifs
        · refine .look fun i rounds w hw hiw _ => ?_
          exact watch_works (hk.later hw.1) (hc.later hw.2) hkind hid
        · exact verified_works hk hc hkind hid

end Blackboard
