import Blackboard.Proofs.Executions
import Blackboard.Proofs.Handlers
import Blackboard.Proofs.Patch

/-! The execute job. An attempt that has checked the plan works through its actions: as long as it
has its job the incident is executing, the rows are its own, and what it sent is what they say. -/

namespace Blackboard

open Threads

variable {ctx : JobContext} {s : Core} {id : ℕ} {ch : Checked}

/-! What an attempt knows while it works through the plan. -/

structure Running (ctx : JobContext) (id : ℕ) (ch : Checked) (c : Core) : Prop where
  knows : Knows ctx c
  incident : ctx.job.incidentId = some id
  check : CheckOk c ctx.attempt id ch
  here : (∃ i, c.db.incidents.get? id = some i ∧ i.state = .executing) ∨ Lost ctx.attempt c.db

/-- The row of the job. -/
theorem Running.job {c : Core} (h : Running ctx id ch c) : ∃ r, c.db.jobs.get? ctx.attempt.job = some r ∧
    ctx.attempt.fence ≤ r.fence ∧ r.kind = .execute ∧ r.incidentId = some id ∧ r.payload.planId = some ch.planId := by
  obtain ⟨r, hr, hk, hi, hp⟩ := h.check.payload
  obtain ⟨t, ht, hf, -⟩ := h.knows.row
  obtain rfl : r = t := Option.some.inj (hr.symm.trans ht)
  exact ⟨r, hr, hf, hk, hi, hp⟩

theorem Running.kind {c : Core} (h : Running ctx id ch c) : ctx.job.kind = .execute := by
  obtain ⟨r, hr, hk, -⟩ := h.check.payload
  obtain ⟨t, ht, -, hkt, -⟩ := h.knows.row
  obtain rfl : r = t := Option.some.inj (hr.symm.trans ht)
  exact hkt.symm.trans hk

theorem Running.later {c c' : Core} (h : Running ctx id ch c) (hr : rely (.job ctx.attempt) c c') :
    Running ctx id ch c' where
  knows := h.knows.later hr.1
  incident := h.incident
  check := h.check.later hr.1
  here := by
    rcases h.here with ⟨i, hi, hs⟩ | hl
    · obtain ⟨r, hj, hf, hk, hri, -⟩ := h.job
      exact hr.2.executing r id i hj hf hk hri hi hs
    · exact Or.inr (hl.later hr.1.db)

/-- The attempt inserted the row of the action, and nobody has written to it while it has its job. -/
def Mine (a : Attempt) (p index : ℕ) (c : Core) : Prop :=
  ∃ n e, c.db.executions.get? n = some e ∧ e.planId = p ∧ e.actionIndex = index ∧ e.insertedBy = a ∧
    (e.status = .started ∨ e.status = .unknown ∧ Lost a c.db)

theorem Mine.later {c c' : Core} {index : ℕ} (h : Mine ctx.attempt ch.planId index c) (hrun : Running ctx id ch c)
    (hr : rely (.job ctx.attempt) c c') : Mine ctx.attempt ch.planId index c' := by
  obtain ⟨n, e, hn, hp, hi, ha, hst⟩ := h
  obtain ⟨f, hf, hef⟩ := hr.1.db.executions _ _ hn
  refine ⟨n, f, hf, hef.planId.trans hp, hef.actionIndex.trans hi, hef.insertedBy.trans ha, ?_⟩
  have hout := hr.2.outcome n e f hn ha hf
  rcases hst with hst | ⟨hst, hl⟩
  · rcases hout with hout | hout
    · exact Or.inl (hout.trans hst)
    · obtain ⟨r, hj, hfence, hk, -, hpay⟩ := hrun.job
      rcases hr.2.rows r n e hj hfence hk (by rw [hp]; exact hpay) hn with hsame | hl
      · obtain rfl : e = f := Option.some.inj (hsame.symm.trans hf)
        exact Or.inl hst
      · exact Or.inr ⟨hout, hl⟩
  · exact Or.inr ⟨hout.elim (fun ho => ho.trans hst) (fun ho => ho), hl.later hr.1.db⟩

theorem Mine.own {a : Attempt} {p index : ℕ} {c c' : Core} (h : Mine a p index c)
    (he : c'.db.executions = c.db.executions) (hj : c'.db.jobs = c.db.jobs) : Mine a p index c' := by
  obtain ⟨n, e, hn, hp, hi, ha, hst⟩ := h
  refine ⟨n, e, by rw [he]; exact hn, hp, hi, ha, ?_⟩
  unfold Lost
  rw [hj]
  exact hst

/-- Nothing of the plan was sent from this action on. -/
def Unsent (a : Attempt) (p index : ℕ) (c : Core) : Prop :=
  ∀ x ∈ c.hist.sent, x.attempt = a → x.planId = p → x.index < index

theorem Unsent.later {a : Attempt} {p index : ℕ} {c c' : Core} (h : Unsent a p index c) (hs : Spares a c c') :
    Unsent a p index c' := fun x hx ha => h x (hs.sent x hx ha) ha

theorem Unsent.own {a : Attempt} {p index : ℕ} {c u : Core} (h : Unsent a p index c) (hs : u.hist.sent = c.hist.sent) :
    Unsent a p index u := fun x hx => h x (hs ▸ hx)

/-- If the PATCH of the action was sent, its answer allows the outcome; no later one was sent. -/
def Sends (a : Attempt) (p index : ℕ) (st : ExecStatus) (c : Core) : Prop :=
  ∀ x ∈ c.hist.sent, x.attempt = a → x.planId = p → x.index ≤ index ∧ (x.index = index → x.Fits st)

theorem Sends.later {a : Attempt} {p index : ℕ} {st : ExecStatus} {c c' : Core} (h : Sends a p index st c)
    (hs : Spares a c c') : Sends a p index st c' := fun x hx ha => h x (hs.sent x hx ha) ha

theorem Sends.unsent {a : Attempt} {p index : ℕ} {st : ExecStatus} {c : Core} (h : Sends a p index st c) :
    Unsent a p (index + 1) c := fun x hx ha hp => Nat.lt_succ_of_le (h x hx ha hp).1

theorem Unsent.sends {a : Attempt} {p index : ℕ} {c : Core} (h : Unsent a p index c) (st : ExecStatus) :
    Sends a p index st c := fun x hx ha hp => ⟨(h x hx ha hp).le, fun hi => absurd (h x hx ha hp) (by omega)⟩

/-- Between two actions. -/
structure Between (ctx : JobContext) (id : ℕ) (ch : Checked) (index : ℕ) (c : Core) : Prop where
  running : Running ctx id ch c
  clear : Clear ctx.attempt c
  before : ∀ j < index, Succeeded c.db ch.planId j
  unsent : Unsent ctx.attempt ch.planId index c

theorem Between.later {c c' : Core} {index : ℕ} (h : Between ctx id ch index c) (hr : rely (.job ctx.attempt) c c') :
    Between ctx id ch index c' where
  running := h.running.later hr
  clear := h.clear.later hr.2
  before j hj := (h.before j hj).later hr.1.db
  unsent := h.unsent.later hr.2

/-- The intent of an action is committed and audited. -/
structure Acting (ctx : JobContext) (id : ℕ) (ch : Checked) (index : ℕ) (c : Core) : Prop where
  running : Running ctx id ch c
  clear : Clear ctx.attempt c
  before : ∀ j < index, Succeeded c.db ch.planId j
  mine : Mine ctx.attempt ch.planId index c

theorem Acting.later {c c' : Core} {index : ℕ} (h : Acting ctx id ch index c) (hr : rely (.job ctx.attempt) c c') :
    Acting ctx id ch index c' where
  running := h.running.later hr
  clear := h.clear.later hr.2
  before j hj := (h.before j hj).later hr.1.db
  mine := h.mine.later h.running hr

/-! Actions that only read. What they return is known besides what the others keep. -/

section Reads

variable {α β : Type} {k : Caller} {Q : β → Core → Prop}

/-- The program writes nothing: what holds after it is what the others leave. -/
def Reads (k : Caller) (R : α → Core → Prop) (x : Handler α) (s : Core) : Prop :=
  Does (contract k) (fun a t => rely k s t ∧ R a t) (fun _ t => rely k s t) x s

theorem Reads.look {f : Input → Core → Except Err α} {R : α → Core → Prop}
    (h : ∀ i a t, rely k s t → Inv t → f i t = .ok a → ∀ u, rely k t u → Inv u → R a u) : Reads k R (look f) s :=
  look_does (fun _ _ ht _ => ht) fun i a t ht hi ha u hu hiu => ⟨rely_trans k _ _ _ ht hu, h i a t ht hi ha u hu hiu⟩

theorem Reads.bind {x : Handler α} {g : α → Handler β} {R : α → Core → Prop} (h : Reads k R x s)
    (hg : ∀ a t, rely k s t → R a t → Reads k Q (g a) t) : Reads k Q (x >>= g) s :=
  Does.bind <| Does.mono (fun a t ⟨ht, ha⟩ => Does.mono (fun _ _ ⟨hu, hq⟩ => ⟨rely_trans k _ _ _ ht hu, hq⟩)
    (fun _ _ hu => rely_trans k _ _ _ ht hu) (hg a t ht ha)) (fun _ _ h => h) h

theorem Reads.pure {b : β} (h : ∀ t, rely k s t → Inv t → Q b t) : Reads k Q (Pure.pure b) s :=
  Does.pure fun t ht hi => ⟨ht, h t ht hi⟩

theorem Reads.ofExcept {x : Except Err β} (h : ∀ b, x = .ok b → ∀ t, rely k s t → Inv t → Q b t) :
    Reads k Q (K8s.ofExcept x) s := by
  intro t ht hi
  cases x with
  | ok b => exact ⟨ht, h b rfl t ht hi⟩
  | error e => exact ht

theorem Reads.select {f : Db → α} {g : α → Handler β}
    (h : ∀ t, rely k s t → Inv t → Reads k Q (g (f t.db)) t) : Reads k Q (Blackboard.select f >>= g) s :=
  Does.bind <| look_does (fun _ _ ht _ => ht) fun _ a t ht hi ha u hu _ => by
    cases ha
    exact Does.later (Does.mono (fun _ _ ⟨hv, hq⟩ => ⟨rely_trans k _ _ _ ht hv, hq⟩)
      (fun _ _ hv => rely_trans k _ _ _ ht hv) (h t ht hi)) hu

end Reads

/-! Preparing an action. -/

theorem clusters_now (c : Core) : c.clusters[c.past.length]? = some c.cluster := by
  rw [Core.clusters, List.getElem?_append_right le_rfl, Nat.sub_self]
  rfl

/-- The Deployment as it was read. -/
def ReadDeployment (name : String) (x : Json × ℕ) (c : Core) : Prop :=
  ∃ k, c.clusters[x.2]? = some k ∧ k.deployments.lookup name = some x.1

theorem ReadDeployment.later {name : String} {x : Json × ℕ} {c c' : Core} (h : ReadDeployment name x c)
    (he : Evolves c c') : ReadDeployment name x c' := by
  obtain ⟨k, hk, hd⟩ := h
  exact ⟨k, prefix_get he.clusters hk, hd⟩

theorem deployment_reads {k : Caller} (ns name : String) :
    Reads k (ReadDeployment name) (K8s.deployment ns name) s := by
  refine Reads.look fun i x t _ _ hx u hu _ => ?_
  refine ReadDeployment.later (c := t) ?_ hu.1
  obtain ⟨-, -, hx⟩ := K8s.bind_ok hx
  split at hx
  · rename_i d hd
    obtain rfl := Except.ok.inj hx
    exact ⟨t.cluster, clusters_now t, hd⟩
  · cases hx

theorem replicasets_reads {k : Caller} (ns : String) (dep : Json) : Reads k (fun x c => ∃ l, c.clusters[x.2]? = some l ∧
    K8s.ofDeployment dep l.replicasets = .ok x.1) (K8s.replicasets ns dep) s := by
  refine Reads.look fun i x t _ _ hx u hu _ => ?_
  obtain ⟨-, -, hx⟩ := K8s.bind_ok hx
  obtain ⟨rss, hrss, hx⟩ := K8s.bind_ok hx
  obtain rfl := Except.ok.inj hx
  exact ⟨t.cluster, prefix_get hu.1.clusters (clusters_now t), hrss⟩

theorem prepare_reads {k : Caller} (ns : String) (a : Action) (note : String) :
    Reads k (fun p c => PreparedOk c a p) (K8s.prepare ns a note) s := by
  unfold K8s.prepare
  refine (deployment_reads ns a.deployment).bind fun x t _ hx => ?_
  obtain ⟨dep, readAt⟩ := x
  refine Reads.bind (R := fun _ _ => True) (.ofExcept fun _ _ _ _ _ => trivial) fun _ u hu _ => ?_
  have hx := hx.later hu.1
  split
  · rename_i r hr
    refine (replicasets_reads ns dep).bind fun y v hv hy => ?_
    obtain ⟨rss, listedAt⟩ := y
    refine Reads.bind (R := fun q _ => K8s.undo a.deployment r dep rss note = .ok q) (.ofExcept fun q hq _ _ _ => hq)
      fun q w hw hq => .pure fun z hz _ => ?_
    intro r' hr'
    obtain rfl : r = r' := Change.rolloutUndo.inj (hr.symm.trans hr')
    obtain ⟨k, hk, hd⟩ := ((hx.later hv.1).later hw.1).later hz.1
    obtain ⟨l, hl, ho⟩ := hy
    exact ⟨k, l, dep, rss, note, q, hk, prefix_get hz.1.clusters (prefix_get hw.1.clusters hl), hd, ho, hq, rfl⟩
  · rename_i hne
    refine Reads.bind (R := fun _ _ => True) (.look fun _ _ _ _ _ _ _ _ _ => trivial) fun _ _ _ _ => ?_
    refine Reads.bind (R := fun _ _ => True) (.ofExcept fun _ _ _ _ _ => trivial) fun _ _ _ _ => .pure fun _ _ _ => ?_
    exact fun r hr => absurd hr (hne r)

theorem prepareDry_reads {k : Caller} (ns : String) (a : Action) (note : String) :
    Reads k (fun x c => PreparedOk c a x.1) (Executor.prepare ns a note) s := by
  unfold Executor.prepare
  refine (prepare_reads ns a note).bind fun p t _ hp => ?_
  split_ifs
  · exact .pure fun u hu _ => hp.later hu.1
  · exact Reads.bind (R := fun _ _ => True) (.look fun _ _ _ _ _ _ _ _ _ => trivial) fun _ u hu _ =>
      .pure fun v hv _ => (hp.later hu.1).later hv.1

/-! Checking the plan. -/

theorem dbs_now (c : Core) : c.dbs[c.log.length]? = some c.db := by
  rw [Core.dbs, List.getElem?_append_right le_rfl, Nat.sub_self]
  rfl

theorem badApproval_none {plan : PlanRow} {x : Option Approval} (h : Executor.badApproval plan x = none) :
    ∃ a, x = some a ∧ a.decision = .approve ∧ a.planHash = plan.planHash ∧ a.approver ≠ plan.proposedBy := by
  cases x with
  | none => cases h
  | some a =>
    unfold Executor.badApproval at h
    dsimp only at h
    split_ifs at h with h1 h2 h3
    exact ⟨a, rfl, not_not.1 h1, not_not.1 h2, h3⟩

/-- The incident as the attempt read it, the first of what it reads. -/
structure ReadIncident (id : ℕ) (i : Incident) (since : ℕ) (c : Core) : Prop where
  read : ∃ d, c.dbs[since]? = some d ∧ d.incidents.get? id = some i
  bound : since ≤ c.log.length

theorem ReadIncident.later {i : Incident} {since : ℕ} {c c' : Core} (h : ReadIncident id i since c)
    (he : Evolves c c') :
    ReadIncident id i since c' where
  read := by
    obtain ⟨d, hd, hi⟩ := h.read
    exact ⟨d, prefix_get he.dbs hd, hi⟩
  bound := h.bound.trans he.log

theorem Reads.trans {α : Type} {k : Caller} {R : α → Core → Prop} {x : Handler α} {t : Core} (ht : rely k s t)
    (h : Reads k R x t) : Does (contract k) (fun a u => rely k s u ∧ R a u) (fun _ u => rely k s u) x t :=
  Does.mono (fun _ _ ⟨hu, hr⟩ => ⟨rely_trans k _ _ _ ht hu, hr⟩) (fun _ _ hu => rely_trans k _ _ _ ht hu) h

theorem refusal_reads {k : Caller} {incident : Incident} {since : ℕ} {plan : Option (ℕ × PlanRow)}
    (hi : ReadIncident id incident since s) (hst : incident.state = .executing)
    (hplan : ∀ x, plan = some x → (∃ d ∈ s.dbs.drop since, d.currentPlan id = some x) ∧ s.db.plans.get? x.1 = some x.2)
    (hkind : ctx.job.kind = .execute) (hid : ctx.job.incidentId = some id) (hk : Knows ctx s) :
    Reads k (fun r c => ∀ ch, r = .ok ch → CheckOk c ctx.attempt id ch)
    (Executor.refusal ctx id incident since plan) s := by
  have hrefused {t : Core} (why : String) :
    Reads k (fun (r : Except String Checked) c => ∀ ch, r = .ok ch → CheckOk c ctx.attempt id ch)
      (Pure.pure (.error why)) t := .pure fun _ _ _ ch h => by cases h
  cases plan with
  | none => exact hrefused _
  | some x =>
    obtain ⟨planId, plan⟩ := x
    obtain ⟨⟨d, hd, hcurrent⟩, hrow⟩ := hplan _ rfl
    unfold Executor.refusal
    dsimp only
    split_ifs with hpay hdeny
    · exact hrefused _
    · exact hrefused _
    refine review_bind (fun _ _ ht _ => ht) hi.bound fun context t ht hit hcontext => Reads.trans ht ?_
    dsimp only
    -- everything but the approval
    have hok : ∀ c, rely k t c → ∀ approval, (plan.verdict = .requireApproval ∨
        (Policy.evaluate CATALOGUE plan.plan context).verdict = .requireApproval → ∃ d ∈ c.dbs.drop since, ∃ x,
        d.approval planId = some x ∧ x.decision = .approve ∧ x.planHash = plan.planHash ∧
          x.approver ≠ plan.proposedBy) →
        (Policy.evaluate CATALOGUE plan.plan context).verdict ≠ .deny →
        CheckOk c ctx.attempt id { since, incident, planId, plan, settings := ctx.settings, context,
                                   decision := Policy.evaluate CATALOGUE plan.plan context, approval } := by
      intro c hc approval happroval hallowed
      have he := ht.1.trans hc.1
      obtain ⟨r, hr, -, hrk, hri, hrp⟩ := (hk.later he).row
      obtain ⟨x, hx, y, hy, now, rfl⟩ := hcontext
      exact
        { incident := (hi.later he).read
          state := hst
          current := ⟨d, (List.IsPrefix.drop he.dbs _).subset hd, hcurrent⟩
          row := he.db.plans.get hrow
          payload := ⟨r, hr, hrk.trans hkind, hri.trans hid, by rw [hrp]; exact not_not.1 hpay⟩
          stored := hdeny
          context := ⟨x, (List.IsPrefix.drop hc.1.dbs _).subset hx, y,
            (List.IsPrefix.drop hc.1.dbs _).subset hy, rfl⟩
          decision := rfl
          allowed := hallowed
          approval := happroval }
    split_ifs with hnow hreq
    · exact hrefused _
    · refine .select fun u hu hiu => ?_
      cases hbad : Executor.badApproval plan (u.db.approval planId) with
      | some why => exact hrefused _
      | none =>
        obtain ⟨a, ha, hdec, hhash, hother⟩ := badApproval_none hbad
        refine .pure fun v hv _ ch hch => ?_
        obtain rfl := Except.ok.inj hch
        refine hok v (rely_trans k _ _ _ hu hv) _ (fun _ => ?_) hnow
        have hmem : u.db ∈ u.dbs.drop since := mem_since (hi.bound.trans (ht.1.trans hu.1).log)
        exact ⟨u.db, (List.IsPrefix.drop hv.1.dbs _).subset hmem, a, ha, hdec, hhash, hother⟩
    · refine .pure fun v hv _ ch hch => ?_
      obtain rfl := Except.ok.inj hch
      exact hok v hv _ (fun h => absurd h hreq) hnow

/-! What the attempt writes. -/

theorem Knows.executes {c : Core} (hk : Knows ctx c) (hkind : ctx.job.kind = .execute)
    (hid : ctx.job.incidentId = some id) :
    ∃ r, c.db.jobs.get? ctx.attempt.job = some r ∧ r.kind = .execute ∧ r.incidentId = some id := by
  obtain ⟨r, hr, -, hrk, hri, -⟩ := hk.row
  exact ⟨r, hr, hrk.trans hkind, hri.trans hid⟩

theorem escalate_works {actor : Actor} {reason : String} {plan : Bool} (hactor : actor ≠ .policy) (hk : Knows ctx s)
    (hc : Clear ctx.attempt s) (hkind : ctx.job.kind = .execute) (hid : ctx.job.incidentId = some id) :
    Works ctx (fun _ => Over ctx) (Executor.escalate ctx id actor reason plan) s := by
  unfold Executor.escalate
  refine .assertFence fun t ht hi => .select fun u hu hiu => ?_
  have hk := (hk.later ht.1).later hu.1
  have hc := (hc.later ht.2).later hu.2
  cases hinc : u.db.incidents.get? id with
  | none =>
    obtain ⟨i, hi, -⟩ := hk.incident hiu hid
    rw [hinc] at hi
    cases hi
  | some current =>
    dsimp only
    have hcommit {w : Core} (plan : Option (ℕ × PlanRow)) (hk : Knows ctx w) (hc : Clear ctx.attempt w) :
        Works ctx (fun _ => Over ctx) (ctx.commit fun i => do
          let _ ← Tx.transition i.now ⟨id, current.state, .escalated, current.version, actor,
            cut 500 (Executor.withUndo reason plan)⟩) w :=
      .finish hc (fun _ _ _ => rfl) fun i b d x hx hix hh hrun => by
        obtain ⟨v, d1, h1, h2⟩ := Tx.bind_ok.mp hrun
        obtain ⟨-, rfl⟩ := Tx.pure_ok.mp h2
        refine ⟨?_, moved_passed (y := .escalated) h1 hid hkind rfl (by decide)⟩
        exact Guar.close (l := []) hix hh (by rw [List.append_nil]; exact h1) (by simp) rfl
          (fun h => absurd h hactor) fun _ =>
          (hk.later hx.1).executes hkind hid
    split_ifs with hterm hplan
    · refine .passed ⟨.of_rank hid hinc ?_, hc⟩
      rw [State.terminal_iff.mp hterm, hkind]
      decide
    · exact .select fun w hw _ => hcommit _ (hk.later hw.1) (hc.later hw.2)
    · exact .bind (R := fun _ c => Knows ctx c ∧ Clear ctx.attempt c)
        (.pure fun w hw _ => ⟨hk.later hw.1, hc.later hw.2⟩) fun plan w ⟨hk, hc⟩ => hcommit plan hk hc

/-- Only rows, audit entries and the history change in a commit of the executor. -/
theorem ExecStep.commit {a : Attempt} {c : Core} {e : Db} {h : Hist}
    (hdb : e = { c.db with executions := e.executions, audit := e.audit })
    (hexec : Table.Keeps Execution.Later c.db.executions e.executions) (haudit : ∃ l, e.audit = c.db.audit ++ l ∧
      ∀ x ∈ l, ∀ n, ¬ x.TimesOut n)
    (hdecided : h.decided = c.hist.decided) (htimed : h.timedOut = c.hist.timedOut)
    (hwrote : h.wrote = c.hist.wrote) (hmanual : h.manual = c.hist.manual)
    (hready : ∀ b ≠ a, b ∈ c.hist.ready ↔ b ∈ h.ready) (howed : ∀ x, x.1 ≠ a → (x ∈ h.owed ↔ x ∈ c.hist.owed)) :
    ExecStep a c { c.write e with hist := h } where
  incidents := by rw [hdb]; rfl
  jobs := by rw [hdb]; rfl
  plans := by rw [hdb]; rfl
  approvals := by rw [hdb]; rfl
  executions := hexec
  audit := haudit
  dbs := List.prefix_append _ _
  clusters := rfl
  decided := hdecided
  timedOut := htimed
  wrote := hwrote
  manual := hmanual
  ready := hready
  owed := howed

theorem Running.own {c c' : Core} (h : Running ctx id ch c) (hs : ExecStep ctx.attempt c c') :
    Running ctx id ch c' where
  knows := h.knows.later hs.evolves
  incident := h.incident
  check := h.check.later hs.evolves
  here := by
    rw [hs.incidents]
    exact h.here.imp_right fun hl => hl.later hs.later

/-- A commit of the executor that writes a row of its plan only. -/
theorem Guar.of_row {c c' : Core} {p : ℕ} (hinv : Inv c) (hrun : Running ctx id ch c) (hh : Holds ctx.attempt c.db)
    (h : ExecStep ctx.attempt c c') (hexec : ExecOk c') (hp : p = ch.planId)
    (hrows : ∀ n e, c.db.executions.get? n = some e → e.planId ≠ p → c'.db.executions.get? n = some e)
    (hout : ∀ n e f, c.db.executions.get? n = some e → e.insertedBy ≠ ctx.attempt → c'.db.executions.get? n = some f →
      f.status = e.status ∨ f.status = .unknown)
    (hsent : c'.hist.sent = c.hist.sent) : Guar (.job ctx.attempt) c c' := by
  refine .of_exec hinv h hexec (fun b hb r n e hr hf hk hpay hn => ?_) hout (fun _ => Or.inr hh) (fun _ => Or.inr hh)
    (Or.inl hsent)
  by_cases he : e.planId = p
  · obtain ⟨ra, hra, -, hka, -, hpa⟩ := hrun.job
    have hl := lost_of_plan hinv hh hra hka hpa hr hf hk (by rw [hpay, he, hp]) hb
    exact Or.inr (hl.later h.later)
  · exact Or.inl (hrows n e hn he)

/-- INSERT of the row of an action. -/
theorem record_works {index : ℕ} {action : Action} {status : ExecStatus} {dryRun before : Json} {error : Option String}
    (hb : Between ctx id ch index s) (hs : status ≠ .succeeded) :
    Works ctx (fun _ c => Running ctx id ch c ∧ (∀ j < index, Succeeded c.db ch.planId j) ∧
      Unsent ctx.attempt ch.planId index c ∧
      Owing (if status = .started then some (ch.planId, index, false) else none) ctx.attempt c ∧
      (status = .started → Mine ctx.attempt ch.planId index c))
      (Executor.record ctx ch id index action status dryRun before error) s := by
  unfold Executor.record
  refine .commit fun i b d t ht hi hh hrun => ?_
  have hb := hb.later ht
  obtain ⟨hno, rfl⟩ := Tx.insertExecution_ok hrun
  set x : Execution :=
    { tenantId := ch.incident.tenantId, incidentId := id, planId := ch.planId, actionIndex := index, action, status,
      executor := .executor ctx.workerId, dryRun, before, after := .null, error, startedAt := i.now,
      finishedAt := if status = .started then none else some i.now, insertedBy := ctx.attempt,
        insertedAs := status } with hx
  set h : Hist := if status = .started
    then { t.hist with owed := (ctx.attempt, ch.planId, index, false) :: t.hist.owed } else t.hist with hh'
  have howed : h.owed = if status = .started then (ctx.attempt, ch.planId, index, false) :: t.hist.owed
      else t.hist.owed := by
    rw [hh']
    split_ifs <;> rfl
  have hrest : h.decided = t.hist.decided ∧ h.timedOut = t.hist.timedOut ∧ h.wrote = t.hist.wrote ∧
    h.manual = t.hist.manual ∧ h.ready = t.hist.ready ∧
      h.sent = t.hist.sent := by
    rw [hh']
    split_ifs <;> exact ⟨rfl, rfl, rfl, rfl, rfl, rfl⟩
  obtain ⟨hdecided, htimed, hwrote, hmanual, hready, hsent⟩ := hrest
  have hstep : ExecStep ctx.attempt t
      { t.write { t.db with executions := t.db.executions.insert x } with hist := h } := by
    refine .commit rfl (.insert Execution.Later.refl _ x)
      ⟨[], (List.append_nil _).symm, fun _ h => absurd h List.not_mem_nil⟩
      hdecided htimed hwrote hmanual (fun b _ => by rw [hready]) fun y hy => ?_
    rw [howed]
    split_ifs
    · rw [List.mem_cons, or_iff_right fun he => hy (by rw [he])]
    · rfl
  have hold : ∀ n e, t.db.executions.get? n = some e → (t.db.executions.insert x).get? n = some e := fun n e hn =>
    Table.get?_insert_of_some x hn
  obtain ⟨r, hr, hf, hk, -, hp⟩ := hb.running.job
  refine ⟨.of_row hi hb.running hh hstep ?_ rfl (fun n e hn _ => hold n e hn) (fun n e f hn _ hf => ?_) hsent,
    fun u hu hiu _ => ?_⟩
  · exact hi.exec.insert hstep.evolves rfl (fun _ => rfl) hsent howed hno hb.before ⟨r, hr, hf, hk, hp⟩ rfl hs
  · exact Or.inl (congrArg Execution.status (Option.some.inj (hf.symm.trans (hold n e hn))))
  have hrun := hb.running.own hstep
  refine ⟨hrun.later hu, fun j hj => ((hb.before j hj).later hstep.later).later hu.1.db, ?_, ?_, fun hst => ?_⟩
  · exact (hb.unsent.own
      (u := { t.write { t.db with executions := t.db.executions.insert x } with hist := h }) hsent).later hu.2
  · refine Owing.later (c := { t.write { t.db with executions := t.db.executions.insert x } with hist := h })
      (fun y hy => ?_) hu.2
    change y ∈ h.owed ↔ _
    rw [howed]
    split_ifs
    · rw [List.mem_cons, or_iff_left fun hmem => by simpa using (hb.clear y hy).1 hmem, Option.some.injEq]
      obtain ⟨y1, y2⟩ := y
      subst hy
      rw [Prod.mk.injEq, and_iff_right rfl]
    · exact (hb.clear y hy).trans (by simp)
  · refine Mine.later (c := { t.write { t.db with executions := t.db.executions.insert x } with hist := h })
      ⟨t.db.executions.size, x, ?_, rfl, rfl, rfl, Or.inl hst⟩ hrun hu
    exact (Table.get?_insert _ x _).trans (if_pos rfl)

/-- The audit row of an outcome that is owed, and whatever the history notes of the attempt's readiness. -/
theorem audit_works {p index : ℕ} {b : Bool} {entry : AuditEntry} {note : Input → Unit → Core → Hist}
    (hrun : Running ctx id ch s) (ho : Owing (some (p, index, b)) ctx.attempt s)
    (he : entry.event.outcome = some (p, index, b)) (ht : ∀ n, ¬ entry.TimesOut n)
    (hnote : ∀ i c, (note i () c).owed = c.hist.owed.filter (· ≠ (ctx.attempt, p, index, b)) ∧
      (note i () c).decided = c.hist.decided ∧ (note i () c).timedOut = c.hist.timedOut ∧
      (note i () c).wrote = c.hist.wrote ∧ (note i () c).manual = c.hist.manual ∧
      (note i () c).sent = c.hist.sent ∧ ∀ b ≠ ctx.attempt, b ∈ c.hist.ready ↔ b ∈ (note i () c).ready) :
    Works ctx (fun _ c => Clear ctx.attempt c ∧ ∃ i t u, rely (.job ctx.attempt) s t ∧ i.fault = none ∧
      ExecStep ctx.attempt t u ∧
        u.db.executions = t.db.executions ∧ u.hist = note i () t ∧ rely (.job ctx.attempt) u c)
      (ctx.commit (fun _ => Tx.append entry) note) s := by
  refine .commit fun i u d t hst hi hh hrun' => ?_
  obtain rfl := Tx.append_ok.mp hrun'
  obtain ⟨howed, hdecided, htimed, hwrote, hmanual, hsent, hready⟩ := hnote i t
  have ho := ho.later hst.2
  have hrun := hrun.later hst
  have hstep : ExecStep ctx.attempt t
      { t.write { t.db with audit := t.db.audit ++ [entry] } with hist := note i () t } := by
    refine .commit rfl (.refl Execution.Later.refl _)
      ⟨[entry], rfl, fun x hx => ?_⟩ hdecided htimed hwrote hmanual hready
      fun y hy => ?_
    · rw [List.mem_singleton.1 hx]
      exact ht
    · rw [howed, List.mem_filter, and_iff_left]
      simpa using fun he => hy (by rw [he])
  have hmem : (ctx.attempt, p, index, b) ∈ t.hist.owed := (ho _ rfl).2 rfl
  refine ⟨.of_row hi hrun hh hstep ?_ rfl (fun n e hn _ => hn) (fun n e f hn _ hf => ?_) hsent,
    fun w hw hiw hfault => ?_⟩
  · exact hi.exec.audit hstep.evolves rfl hsent rfl he hmem howed
  · exact Or.inl (congrArg Execution.status (Option.some.inj (hf.symm.trans hn)))
  refine ⟨?_, i, t, _, hst, hfault, hstep, rfl, rfl, hw⟩
  refine Owing.later (c := { t.write { t.db with audit := t.db.audit ++ [entry] } with hist := note i () t })
    (fun y hy => ?_) hw.2
  change y ∈ (note i () t).owed ↔ _
  rw [howed, List.mem_filter, ho y hy]
  obtain ⟨y1, y2⟩ := y
  subst hy
  simp

theorem auditStarted_works {index : ℕ} {p : Prepared} {dryRun : Json} (hrun : Running ctx id ch s)
    (hbefore : ∀ j < index, Succeeded s.db ch.planId j) (hmine : Mine ctx.attempt ch.planId index s)
    (hunsent : Unsent ctx.attempt ch.planId index s) (ho : Owing (some (ch.planId, index, false)) ctx.attempt s) :
    Works ctx (fun _ c => Acting ctx id ch index c ∧ Unsent ctx.attempt ch.planId index c ∧
      (p.noop = false → ctx.attempt ∈ c.hist.ready))
      (Executor.auditStarted ctx ch id index p dryRun) s := by
  unfold Executor.auditStarted
  refine Does.mono (fun _ c h => ?_) (fun _ _ h => h) (audit_works (p := ch.planId) (b := false) hrun ho rfl ?_ ?_)
  · obtain ⟨hclear, i, t, u, ht, hfault, hstep, hexec, hhist, hc⟩ := h
    have hm := (hmine.later hrun ht).own hexec hstep.jobs
    have hu := (hunsent.later ht.2).own (u := u) (by rw [hhist])
    have hrun := (hrun.later ht).own hstep
    refine ⟨⟨hrun.later hc, hclear, fun j hj => (((hbefore j hj).later ht.1.db).later hstep.later).later hc.1.db,
      hm.later hrun hc⟩, hu.later hc.2, fun hnoop => hc.2.ready ?_⟩
    rw [hhist]
    simp [hnoop, hfault]
  · exact fun n h => by cases h.1
  · intro i c
    refine ⟨rfl, rfl, rfl, rfl, rfl, rfl, fun b hb => ?_⟩
    dsimp only
    split_ifs
    · rfl
    · rw [List.mem_cons, or_iff_right hb]

/-! The PATCH. -/

theorem ExecStep.hist {a : Attempt} {c : Core} {h : Hist} (hdecided : h.decided = c.hist.decided)
    (htimed : h.timedOut = c.hist.timedOut) (hwrote : h.wrote = c.hist.wrote) (hmanual : h.manual = c.hist.manual)
    (hready : ∀ b ≠ a, b ∈ c.hist.ready ↔ b ∈ h.ready) (howed : h.owed = c.hist.owed) :
    ExecStep a c { c with hist := h } where
  incidents := rfl
  jobs := rfl
  plans := rfl
  approvals := rfl
  executions := .refl Execution.Later.refl _
  audit := ⟨[], (List.append_nil _).symm, fun _ h => absurd h List.not_mem_nil⟩
  dbs := List.prefix_refl _
  clusters := rfl
  decided := hdecided
  timedOut := htimed
  wrote := hwrote
  manual := hmanual
  ready := hready
  owed x _ := by rw [howed]

theorem Acting.own {c c' : Core} {index : ℕ} (h : Acting ctx id ch index c) (hs : ExecStep ctx.attempt c c')
    (he : c'.db.executions = c.db.executions) (ho : c'.hist.owed = c.hist.owed) : Acting ctx id ch index c' where
  running := h.running.own hs
  clear y hy := by
    rw [ho]
    exact h.clear y hy
  before j hj := (h.before j hj).later hs.later
  mine := h.mine.own he hs.jobs

/-- The history of an attempt that is not ready to send any more, and has sent `xs`. -/
def sentNow (a : Attempt) (xs : List Sent) (h : Hist) : Hist :=
  { h with ready := h.ready.filter (· ≠ a), sent := h.sent ++ xs }

theorem sentNow_step {a : Attempt} {c : Core} (xs : List Sent) : ExecStep a c { c with hist := sentNow a xs c.hist } :=
  .hist rfl rfl rfl rfl (fun b hb => by simp [sentNow, hb]) rfl

theorem Guar.quiet {a : Attempt} {c : Core} (hinv : Inv c) :
    Guar (.job a) c { c with hist := sentNow a [] c.hist } := by
  refine .of_exec hinv (sentNow_step []) ?_ (fun _ _ _ _ _ _ _ _ _ hn => Or.inl hn)
    (fun n e f hn _ hf => Or.inl (congrArg Execution.status (Option.some.inj (hf.symm.trans hn)))) (fun h => ?_) Or.inl
    (Or.inl (List.append_nil _))
  · exact hinv.exec.later (sentNow_step []).evolves rfl (List.append_nil _) rfl fun _ => rfl
  · simp [sentNow] at h

theorem Guar.send {c : Core} {index : ℕ} {action : Action} {p : Prepared} {x : Sent} (hinv : Inv c)
    (ha : Acting ctx id ch index c) (hu : Unsent ctx.attempt ch.planId index c) (hready : ctx.attempt ∈ c.hist.ready)
    (haction : ch.plan.plan.actions[index]? = some action) (hp : PreparedOk c action p) (hnoop : p.noop = false)
    (hx : x = { attempt := ctx.attempt, planId := ch.planId, index, action, prepared := p, checked := ch,
                held := Jobs.holds ctx.job c.db.jobs, state := (c.db.incidents.get? id).map Incident.state,
                answer := x.answer }) :
    Guar (.job ctx.attempt) c { c with hist := sentNow ctx.attempt [x] c.hist } := by
  obtain ⟨n, e, hn, hep, hei, hea, hst⟩ := ha.mine
  have hattempt : x.attempt = ctx.attempt := by rw [hx]
  have hplan : x.planId = ch.planId := by rw [hx]
  have hindex : x.index = index := by rw [hx]
  have hok : SentOk c x :=
    { row := ⟨n, e, hn, hep.trans hplan.symm, hei.trans hindex.symm, hea.trans hattempt.symm⟩
      before := fun j hj => by
        rw [hplan]
        exact ha.before j (by rw [← hindex]; exact hj)
      checked := by
        rw [hx]
        exact ⟨rfl, id, ha.running.check⟩
      action := by
        rw [hx]
        exact haction
      prepared := by
        rw [hx]
        exact hp
      real := by
        rw [hx]
        exact hnoop }
  refine .of_exec hinv (sentNow_step [x]) ?_ (fun _ _ _ _ _ _ _ _ _ hn => Or.inl hn)
    (fun n e f hn _ hf => Or.inl (congrArg Execution.status (Option.some.inj (hf.symm.trans hn)))) (fun h => ?_) Or.inl
    (Or.inr ⟨x, hattempt, rfl, rfl, hready, fun hh => ?_⟩)
  · refine hinv.exec.send (sentNow_step [x]).evolves rfl rfl rfl hok (fun y hy hya heq => ?_) fun m f hm hfp hfi => ?_
    · obtain ⟨h1, h2⟩ := Prod.mk.inj heq
      have := hu y hy (hya.trans hattempt) (h1.trans hplan)
      omega
    · obtain rfl := hinv.exec.unique m n f e hm hn (hfp.trans (hplan.trans hep.symm))
        (hfi.trans (hindex.trans hei.symm))
      obtain rfl : f = e := Option.some.inj (hm.symm.trans hn)
      rcases hst with hst | ⟨hst, -⟩ <;> rw [hst] <;> trivial
  · simp [sentNow] at h
  · refine ⟨by rw [hx]; exact holds_job.mpr hh, ?_⟩
    rcases ha.running.here with ⟨i, hi, hs⟩ | hl
    · rw [hx]
      dsimp only
      rw [hi, Option.map_some, hs]
    · exact absurd hl hh.not_lost

theorem Sends.sentNow {c : Core} {index : ℕ} {st : ExecStatus} {x : Sent} {a : Attempt} {p : ℕ}
    (hu : Unsent a p index c) (hi : x.index = index) (hf : x.Fits st) :
    Sends a p index st { c with hist := sentNow a [x] c.hist } := by
  intro y hy hya hyp
  rcases List.mem_append.1 hy with hy | hy
  · have := hu y hy hya hyp
    exact ⟨this.le, fun h => by omega⟩
  · rw [List.mem_singleton.1 hy]
    exact ⟨hi.le, fun _ => hf⟩

/-- What an exception says of the PATCH. -/
def Failing (a : Attempt) (p index : ℕ) (e : Err) (c : Core) : Prop :=
  ∀ m applied, e = .execError m applied → Sends a p index (if applied = none then .unknown else .failed) c

theorem patch_does {index : ℕ} {action : Action} {p : Prepared} (ha : Acting ctx id ch index s)
    (hu : Unsent ctx.attempt ch.planId index s) (hready : ctx.attempt ∈ s.hist.ready)
    (haction : ch.plan.plan.actions[index]? = some action) (hp : PreparedOk s action p) (hnoop : p.noop = false) :
    Does (contract (.job ctx.attempt)) (fun _ c => Acting ctx id ch index c ∧
      Sends ctx.attempt ch.planId index .succeeded c)
      (fun e c => Acting ctx id ch index c ∧ Failing ctx.attempt ch.planId index e c)
      (Executor.patch ctx ch id index action p) s := by
  refine Does.lift fun t ht hi i => ?_
  have ha := ha.later ht
  have hu := hu.later ht.2
  have hacting (xs : List Sent) : Acting ctx id ch index { t with hist := sentNow ctx.attempt xs t.hist } :=
    ha.own (sentNow_step xs) rfl rfl
  set x : Sent :=
    { attempt := ctx.attempt, planId := ch.planId, index, action, prepared := p, checked := ch,
      held := Jobs.holds ctx.job t.db.jobs, state := (t.db.incidents.get? id).map Incident.state,
      answer := if i.fault.isSome then none else some i.reply } with hx
  have hsend : Guar (.job ctx.attempt) t { t with hist := sentNow ctx.attempt [x] t.hist } :=
    .send hi ha hu (ht.2.ready hready) haction (hp.later ht.1) hnoop rfl
  have hsends {o : ExecStatus} (hf : x.Fits o) :
      Sends ctx.attempt ch.planId index o { t with hist := sentNow ctx.attempt [x] t.hist } :=
    .sentNow hu rfl hf
  cases hfault : i.fault with
  | none =>
    have hanswer : x.answer = some i.reply := by rw [hx, hfault]; rfl
    refine ⟨hsend, fun u hru hiu => ?_⟩
    have ha := (hacting [x]).later hru
    cases hreply : i.reply with
    | ok body =>
      exact ⟨ha, Sends.later (hsends (o := .succeeded) ⟨body, by rw [hanswer, hreply]⟩) hru.2⟩
    | http status detail =>
      refine ⟨ha, fun m applied he => ?_⟩
      simp only [Err.execError.injEq] at he
      rw [← he.2, if_neg (by simp)]
      exact Sends.later (hsends (o := .failed) ⟨status, detail, by rw [hanswer, hreply]⟩) hru.2
    | noAnswer m =>
      refine ⟨ha, fun m applied he => ?_⟩
      simp only [Err.execError.injEq, if_true] at he
      rw [← he.2, if_pos rfl]
      exact Sends.later (hsends (o := .unknown) trivial) hru.2
  | some y =>
    have hnot (c : Core) : Failing ctx.attempt ch.planId index y.err c := fun m applied he => by cases y <;> cases he
    cases hlate : i.late with
    | true => exact ⟨hsend, fun u hru hiu => ⟨(hacting [x]).later hru, hnot u⟩⟩
    | false =>
      have hquiet : ({ t with hist := { t.hist with ready := t.hist.ready.filter (· ≠ ctx.attempt) } } : Core) =
          { t with hist := sentNow ctx.attempt [] t.hist } := by rw [sentNow, List.append_nil]
      have hg : Guar (.job ctx.attempt) t
          { t with hist := { t.hist with ready := t.hist.ready.filter (· ≠ ctx.attempt) } } := by
        rw [hquiet]
        exact .quiet hi
      refine ⟨hg, fun u hru hiu => ⟨(hacting []).later ?_, hnot u⟩⟩
      rw [← hquiet]
      exact hru

/-- A change that needs no PATCH was not sent; of any other one the answer is known. -/
theorem apply_does {index : ℕ} {action : Action} {p : Prepared} (ha : Acting ctx id ch index s)
    (hu : Unsent ctx.attempt ch.planId index s) (hready : p.noop = false → ctx.attempt ∈ s.hist.ready)
    (haction : ch.plan.plan.actions[index]? = some action) (hp : PreparedOk s action p) :
    Does (contract (.job ctx.attempt)) (fun _ c => Acting ctx id ch index c ∧
      Sends ctx.attempt ch.planId index .succeeded c)
      (fun e c => Acting ctx id ch index c ∧ Failing ctx.attempt ch.planId index e c)
      (Executor.apply ctx ch id index action p) s := by
  unfold Executor.apply
  split_ifs with hnoop
  · exact Does.pure fun t ht hi => ⟨ha.later ht, (hu.later ht.2).sends _⟩
  refine Does.bind (Does.mono (fun result t ⟨ha, hs⟩ => ?_) (fun _ _ h => h)
    (patch_does ha hu (hready (by simpa using hnoop)) haction hp (by simpa using hnoop)))
  -- from here on only the rollout is watched
  have hnot {e : Err} (he : ∀ m applied, e ≠ .execError m applied) {c : Core} :
      Failing ctx.attempt ch.planId index e c :=
    fun m applied h => absurd h (he m applied)
  refine Does.bind ?_
  have hgeneration : Does (contract (.job ctx.attempt))
    (fun _ c => Acting ctx id ch index c ∧ Sends ctx.attempt ch.planId index .succeeded c)
      (fun e c => Acting ctx id ch index c ∧ Failing ctx.attempt ch.planId index e c)
      (K8s.ofExcept (K8s.need result ["metadata", "generation"])) t := by
    intro u hu hi
    unfold K8s.need
    split
    · exact ⟨ha.later hu, hs.later hu.2⟩
    · exact ⟨ha.later hu, hnot fun _ _ h => by cases h⟩
  refine Does.mono (fun generation u ⟨ha, hs⟩ => ?_) (fun _ _ h => h) hgeneration
  refine Does.bind <| Does.lift fun w hw hi i => ?_
  have ha := ha.later hw
  have hs := hs.later hw.2
  have hdone (j : Json) (x : Core) (hx : rely (.job ctx.attempt) w x) :=
    Does.pure (C := contract (.job ctx.attempt)) (a := j) (s := x)
    (Q := fun _ c => Acting ctx id ch index c ∧ Sends ctx.attempt ch.planId index .succeeded c)
    (E := fun e c => Acting ctx id ch index c ∧ Failing ctx.attempt ch.planId index e c)
    (ι := Input) fun y hy _ => ⟨(ha.later hx).later hy, (hs.later hx.2).later hy.2⟩
  cases hfault : i.fault with
  | some y => exact ⟨.refl hi, fun x hx _ => ⟨ha.later hx, hnot fun m applied h => by cases y <;> cases h⟩⟩
  | none =>
    refine ⟨.refl hi, fun x hx _ => ?_⟩
    dsimp only
    cases i.reply with
    | ok body => exact hdone _ x hx
    | http status detail => exact hdone _ x hx
    | noAnswer m => exact hdone _ x hx

/-! The outcome of an action. -/

/-- The row of an action is there, and started. -/
structure StartedRow (c : Core) (p index n : ℕ) (x : Execution) : Prop where
  row : c.db.executions.get? n = some x
  plan : x.planId = p
  index : x.actionIndex = index
  started : x.status = .started

/-- What an UPDATE of the row may set. -/
structure Finishes (f : Execution → Execution) (st : ExecStatus) : Prop where
  key : ∀ e, (f e).planId = e.planId ∧ (f e).actionIndex = e.actionIndex ∧ (f e).insertedBy = e.insertedBy ∧
    (f e).insertedAs = e.insertedAs
  status : ∀ e, (f e).status = st
  final : st ≠ .started

def noteOutcome (a : Attempt) (p index : ℕ) (st : ExecStatus) (h : Hist) : Hist :=
  if st = .succeeded then { h with owed := (a, p, index, true) :: h.owed } else h

theorem noteOutcome_rest (a : Attempt) (p index : ℕ) (st : ExecStatus) (h : Hist) :
    (noteOutcome a p index st h).decided = h.decided ∧ (noteOutcome a p index st h).timedOut = h.timedOut ∧
      (noteOutcome a p index st h).wrote = h.wrote ∧
      (noteOutcome a p index st h).manual = h.manual ∧ (noteOutcome a p index st h).ready = h.ready ∧
      (noteOutcome a p index st h).sent = h.sent ∧
      (noteOutcome a p index st h).owed = if st = .succeeded then (a, p, index, true) :: h.owed else h.owed := by
  unfold noteOutcome
  split_ifs <;> exact ⟨rfl, rfl, rfl, rfl, rfl, rfl, rfl⟩

theorem updated_later {c : Core} {p index n : ℕ} {x : Execution} {f : Execution → Execution} {st : ExecStatus}
    (hexec : ExecOk c) (hx : StartedRow c p index n x) (hf : Finishes f st) {m : ℕ} {e : Execution}
    (hm : c.db.executions.get? m = some e) :
    e.Later (Execution.updated p index f e) := by
  unfold Execution.updated
  split_ifs with hkey
  · obtain rfl := hexec.unique m n e x hm hx.row (hkey.1.trans hx.plan.symm) (hkey.2.trans hx.index.symm)
    obtain rfl : e = x := Option.some.inj (hm.symm.trans hx.row)
    obtain ⟨h1, h2, h3, h4⟩ := hf.key e
    exact ⟨h1, h2, h3, h4, fun h => absurd hx.started h⟩
  · exact .refl e

/-- The state after the UPDATE. -/
def Core.finished (c : Core) (a : Attempt) (p index : ℕ) (f : Execution → Execution) (st : ExecStatus) : Core :=
  { c.write { c.db with executions := c.db.executions.update fun _ => Execution.updated p index f } with
    hist := noteOutcome a p index st c.hist }

theorem Guar.outcome {c : Core} {index n : ℕ} {x : Execution} {f : Execution → Execution} {st : ExecStatus}
    (hinv : Inv c) (hrun : Running ctx id ch c) (hh : Holds ctx.attempt c.db) (hx : StartedRow c ch.planId index n x)
    (hf : Finishes f st) (hmine : x.insertedBy = ctx.attempt ∨ st = .unknown)
    (hfits : ∀ s ∈ c.hist.sent, s.planId = x.planId → s.index = x.actionIndex → s.Fits st) :
    ExecStep ctx.attempt c (c.finished ctx.attempt ch.planId index f st) ∧
      Guar (.job ctx.attempt) c (c.finished ctx.attempt ch.planId index f st) := by
  obtain ⟨hdecided, htimed, hwrote, hmanual, hready, hsent, howed⟩ :=
    noteOutcome_rest ctx.attempt ch.planId index st c.hist
  have hstep : ExecStep ctx.attempt c (c.finished ctx.attempt ch.planId index f st) := by
    refine .commit rfl (.update fun _ e he => updated_later hinv.exec hx hf he)
      ⟨[], (List.append_nil _).symm, fun _ h => absurd h List.not_mem_nil⟩ hdecided htimed hwrote hmanual
      (fun b _ => by rw [hready]) fun y hy => ?_
    rw [howed]
    split_ifs
    · rw [List.mem_cons, or_iff_right fun he => hy (by rw [he])]
    · rfl
  refine ⟨hstep, .of_row hinv hrun hh hstep ?_ rfl (fun m e hm hp => ?_) (fun m e g hm hne hg => ?_) hsent⟩
  · refine hinv.exec.update (x := x) (f := f) hstep.evolves hx.row hx.started (by rw [hx.plan, hx.index]; rfl) hf.key
      (by rw [hf.status]; exact hf.final) (fun _ => rfl) hsent (by rw [hf.status]; exact hfits) ?_
    rw [hf.status, hx.plan, hx.index]
    refine howed.trans ?_
    rcases hmine with hmine | hmine
    · rw [hmine]
    · rw [hmine, if_neg (by decide), if_neg (by decide)]
  · change (c.db.executions.update fun _ => Execution.updated ch.planId index f).get? m = some e
    rw [Table.get?_update, hm, Option.map_some, Execution.updated, if_neg fun h => hp h.1]
  · change (c.db.executions.update fun _ => Execution.updated ch.planId index f).get? m = some g at hg
    rw [Table.get?_update, hm, Option.map_some, Execution.updated] at hg
    split_ifs at hg with hkey
    · obtain rfl := Option.some.inj hg
      obtain rfl := hinv.exec.unique m n e x hm hx.row (hkey.1.trans hx.plan.symm) (hkey.2.trans hx.index.symm)
      obtain rfl : e = x := Option.some.inj (hm.symm.trans hx.row)
      exact Or.inr ((hf.status e).trans (hmine.resolve_left hne))
    · rw [Option.some.inj hg]
      exact Or.inl rfl

theorem Acting.row {c : Core} {index : ℕ} (h : Acting ctx id ch index c) (hh : Holds ctx.attempt c.db) :
    ∃ n x, StartedRow c ch.planId index n x ∧ x.insertedBy = ctx.attempt := by
  obtain ⟨n, e, hn, hp, hi, ha, hst⟩ := h.mine
  rcases hst with hst | ⟨-, hl⟩
  · exact ⟨n, e, ⟨hn, hp, hi, hst⟩, ha⟩
  · exact absurd hl hh.not_lost

theorem finish_works {index : ℕ} {status : ExecStatus} {after : Json} {error : Option String}
    (ha : Acting ctx id ch index s) (hs : Sends ctx.attempt ch.planId index status s) (hst : status ≠ .started) :
    Works ctx (fun _ c => Running ctx id ch c ∧ (∀ j < index, Succeeded c.db ch.planId j) ∧
      Unsent ctx.attempt ch.planId (index + 1) c ∧
      Owing (if status = .succeeded then some (ch.planId, index, true) else none) ctx.attempt c ∧
      (status = .succeeded → Succeeded c.db ch.planId index))
      (Executor.finish ctx ch.planId index status after error) s := by
  unfold Executor.finish
  refine .commit fun i b d t ht hi hh hrun => ?_
  obtain rfl := Tx.updateExecution_ok.mp hrun
  have ha := ha.later ht
  have hs := hs.later ht.2
  obtain ⟨n, x, hx, hmine⟩ := ha.row hh
  set f : Execution → Execution := fun e => { e with status, after, error, finishedAt := some i.now }
  have hf : Finishes f status := ⟨fun _ => ⟨rfl, rfl, rfl, rfl⟩, fun _ => rfl, hst⟩
  obtain ⟨hstep, hg⟩ := Guar.outcome hi ha.running hh hx hf (Or.inl hmine) fun y hy hp hidx => by
    obtain ⟨m, e, hm, hep, hei, hea⟩ := (hi.exec.sent y hy).row
    obtain rfl := hi.exec.unique m n e x hm hx.row (hep.trans hp) (hei.trans hidx)
    obtain rfl : e = x := Option.some.inj (hm.symm.trans hx.row)
    exact (hs y hy (hea.symm.trans hmine) (hp.trans hx.plan)).2 (hidx.trans hx.index)
  refine ⟨hg, fun u hu hiu _ => ?_⟩
  obtain ⟨-, -, -, -, -, hsent, howed⟩ := noteOutcome_rest ctx.attempt ch.planId index status t.hist
  have hrun := ha.running.own hstep
  have hunsent := hs.unsent.own (u := t.finished ctx.attempt ch.planId index f status) hsent
  refine ⟨hrun.later hu, fun j hj => ((ha.before j hj).later hstep.later).later hu.1.db, hunsent.later hu.2, ?_,
    fun hsucc => ?_⟩
  · refine Owing.later (c := t.finished ctx.attempt ch.planId index f status) (fun y hy => ?_) hu.2
    change y ∈ (noteOutcome ctx.attempt ch.planId index status t.hist).owed ↔ _
    rw [howed]
    split_ifs
    · rw [List.mem_cons, or_iff_left fun hmem => by simpa using (ha.clear y hy).1 hmem, Option.some.injEq]
      obtain ⟨y1, y2⟩ := y
      subst hy
      rw [Prod.mk.injEq, and_iff_right rfl]
    · exact (ha.clear y hy).trans (by simp)
  · refine Succeeded.later (d := (t.finished ctx.attempt ch.planId index f status).db)
      ⟨n, f x, ?_, hx.plan, hx.index, hsucc⟩ hu.1.db
    change (t.db.executions.update fun _ => Execution.updated ch.planId index f).get? n = some _
    rw [Table.get?_update, hx.row, Option.map_some, Execution.updated, if_pos ⟨hx.plan, hx.index⟩]

theorem markUnknown_works {index n : ℕ} {x : Execution} (hb : Between ctx id ch index s)
    (hx : StartedRow s ch.planId index n x) :
    Works ctx (fun _ c => Knows ctx c ∧ Clear ctx.attempt c) (Executor.markUnknown ctx ch.planId index) s := by
  unfold Executor.markUnknown
  refine .commit fun i b d t ht hi hh hrun => ?_
  obtain rfl := Tx.updateExecution_ok.mp hrun
  obtain ⟨r, hr, hfence, hk, -, hp⟩ := hb.running.job
  have hrow := (ht.2.rows r n x hr hfence hk (by rw [hx.plan]; exact hp) hx.row).resolve_right hh.not_lost
  have hb := hb.later ht
  set f : Execution → Execution := fun e =>
    { e with status := .unknown, finishedAt := some i.now,
             error := some "the executor stopped while the change was being sent" }
  have hf : Finishes f .unknown := ⟨fun _ => ⟨rfl, rfl, rfl, rfl⟩, fun _ => rfl, by decide⟩
  obtain ⟨hstep, hg⟩ :=
    Guar.outcome hi hb.running hh ⟨hrow, hx.plan, hx.index, hx.started⟩ hf (Or.inr rfl) fun _ _ _ _ => trivial
  refine ⟨hg, fun u hu hiu _ => ⟨(hb.running.own hstep).knows.later hu.1, ?_⟩⟩
  exact Owing.later (c := t.finished ctx.attempt ch.planId index f .unknown) (fun y hy => hb.clear y hy) hu.2

theorem auditSucceeded_works {index : ℕ} {p : Prepared} {after : Json} (hrun : Running ctx id ch s)
    (hbefore : ∀ j < index + 1, Succeeded s.db ch.planId j) (hunsent : Unsent ctx.attempt ch.planId (index + 1) s)
    (ho : Owing (some (ch.planId, index, true)) ctx.attempt s) :
    Works ctx (fun _ c => Between ctx id ch (index + 1) c) (Executor.auditSucceeded ctx ch id index p after) s := by
  unfold Executor.auditSucceeded
  refine Does.mono (fun _ c h => ?_) (fun _ _ h => h) (audit_works (p := ch.planId) (b := true) hrun ho rfl ?_ ?_)
  · obtain ⟨hclear, i, t, u, ht, -, hstep, -, hhist, hc⟩ := h
    have hu := (hunsent.later ht.2).own (u := u) (by rw [hhist])
    have hrun := (hrun.later ht).own hstep
    exact ⟨hrun.later hc, hclear, fun j hj => (((hbefore j hj).later ht.1.db).later hstep.later).later hc.1.db,
      hu.later hc.2⟩
  · exact fun n h => by cases h.1
  · exact fun i c => ⟨rfl, rfl, rfl, rfl, rfl, rfl, fun b hb => Iff.rfl⟩

/-! One action, and all of them. -/

theorem execution_row {d : Db} {p index : ℕ} {x : Execution} (h : d.execution p index = some x) :
    ∃ n, d.executions.get? n = some x ∧ x.planId = p ∧ x.actionIndex = index := by
  obtain ⟨n, hn⟩ := Table.mem_rows.mp (List.mem_of_find?_eq_some h)
  have hkey := List.find?_some h
  simp only [Bool.and_eq_true, decide_eq_true_eq] at hkey
  exact ⟨n, hn, hkey⟩

/-- Whether the executor goes on to the next action, or is done. -/
def Gone (ctx : JobContext) (id : ℕ) (ch : Checked) (index : ℕ) (go : Bool) (c : Core) : Prop :=
  if go then Between ctx id ch index c else Over ctx c

theorem giveUp_works {index : ℕ} {actor : Actor} {reason : String} {plan : Bool} (hactor : actor ≠ .policy)
    (hkind : ctx.job.kind = .execute) (hid : ctx.job.incidentId = some id) (hk : Knows ctx s)
    (hc : Clear ctx.attempt s) :
    Works ctx (Gone ctx id ch index) (do Executor.escalate ctx id actor reason plan; return false) s :=
  .bind (escalate_works hactor hk hc hkind hid) fun _ _ ho => .pure fun _ hu _ => ho.later hu

/-- The intent, the change and its outcome. -/
theorem act_works {index : ℕ} {action : Action} {p : Prepared} {dryRun : Json} (hb : Between ctx id ch index s)
    (haction : ch.plan.plan.actions[index]? = some action) (hp : PreparedOk s action p) :
    Works ctx (Gone ctx id ch (index + 1)) (do
      Executor.record ctx ch id index action .started dryRun p.before none
      Executor.auditStarted ctx ch id index p dryRun
      match ← attempt (Executor.apply ctx ch id index action p) with
      | .error (.execError e applied) =>
        let status := if applied = none then ExecStatus.unknown else .failed
        Executor.finish ctx ch.planId index status .null (some e)
        Executor.escalate ctx id (.executor ctx.workerId)
          (p.summary ++ ": " ++ (if applied = none then "unknown" else "failed") ++ ": " ++ e) true
        return false
      | .error e => throw e
      | .ok after =>
        Executor.finish ctx ch.planId index .succeeded after none
        Executor.auditSucceeded ctx ch id index p after
        return true) s := by
  have hkind := hb.running.kind
  have hid := hb.running.incident
  refine .bind ((record_works hb (by decide)).frame (fun _ _ he h => PreparedOk.later h he) hp)
    fun _ t ⟨⟨hrun, hbefore, hunsent, ho, hmine⟩, hp⟩ => ?_
  refine .bind ((auditStarted_works hrun hbefore (hmine rfl) hunsent ho).frame
    (fun _ _ he h => PreparedOk.later h he) hp)
    fun _ t ⟨⟨ha, hunsent, hready⟩, hp⟩ => ?_
  refine .attempt (apply_does ha hunsent hready haction hp) fun r u hr => ?_
  cases r with
  | ok after =>
    obtain ⟨ha, hs⟩ := hr
    refine .bind (finish_works ha hs (by decide)) fun _ v ⟨hrun, hbefore, hunsent, ho, hsucc⟩ => ?_
    refine .bind (auditSucceeded_works hrun (fun j hj => ?_) hunsent ho) fun _ w hb => .pure fun x hx _ => hb.later hx
    rcases Nat.lt_succ_iff_lt_or_eq.1 hj with hj | rfl
    · exact hbefore j hj
    · exact hsucc rfl
  | error e =>
    obtain ⟨ha, hs⟩ := hr
    cases e with
    | execError m applied =>
      have hst : (if applied = none then ExecStatus.unknown else .failed) ≠ .started ∧
          (if applied = none then ExecStatus.unknown else .failed) ≠ .succeeded := by
        split_ifs <;> decide
      refine .bind (finish_works ha (hs m applied rfl) hst.1) fun _ v ⟨hrun, _, _, ho, _⟩ => ?_
      rw [if_neg hst.2] at ho
      exact giveUp_works nofun hkind hid hrun.knows ho
    | _ => exact .throw

theorem runAction_works {index : ℕ} {action : Action} {note : String} (hb : Between ctx id ch index s)
    (haction : ch.plan.plan.actions[index]? = some action) :
    Works ctx (Gone ctx id ch (index + 1)) (Executor.runAction ctx ch id index action note) s := by
  have hkind := hb.running.kind
  have hid := hb.running.incident
  unfold Executor.runAction
  refine .select fun t ht hi => ?_
  have hb := hb.later ht
  cases he : t.db.execution ch.planId index with
  | none =>
    refine .attempt (prepareDry_reads _ action note) fun r u hr => ?_
    cases r with
    | ok x =>
      obtain ⟨hu, hp⟩ := hr
      exact act_works (hb.later hu) haction hp
    | error e =>
      cases e with
      | execError m applied =>
        refine .bind (record_works (hb.later hr) (by decide)) fun _ v ⟨hrun, _, _, ho, _⟩ => ?_
        exact giveUp_works nofun hkind hid hrun.knows ho
      | _ => exact .throw
  | some x =>
    obtain ⟨n, hn, hp, hidx⟩ := execution_row he
    have hstop {c : Core} {actor : Actor} {reason : String} {plan : Bool} (hactor : actor ≠ .policy)
        (hk : Knows ctx c) (hc : Clear ctx.attempt c) :
        Works ctx (Gone ctx id ch (index + 1)) (do Executor.escalate ctx id actor reason plan; return false) c :=
      giveUp_works hactor hkind hid hk hc
    cases hst : x.status with
    | succeeded =>
      rw [Option.map_some, hst]
      refine .pure fun u hu _ => ?_
      have hb := hb.later hu
      refine ⟨hb.running, hb.clear, fun j hj => ?_, fun y hy ha hyp => Nat.lt_succ_of_lt (hb.unsent y hy ha hyp)⟩
      rcases Nat.lt_succ_iff_lt_or_eq.1 hj with hj | rfl
      · exact hb.before j hj
      · exact Succeeded.later ⟨n, x, hn, hp, hidx, hst⟩ hu.1.db
    | started =>
      rw [Option.map_some, hst]
      exact .bind (markUnknown_works hb ⟨hn, hp, hidx, hst⟩) fun _ u ⟨hk, hc⟩ => hstop nofun hk hc
    | failed =>
      rw [Option.map_some, hst]
      exact hstop nofun hb.running.knows hb.clear
    | unknown =>
      rw [Option.map_some, hst]
      exact hstop nofun hb.running.knows hb.clear

/-- The induction is on the actions that are left. -/
theorem runActions_works {note : String} {index : ℕ} {rest : List Action} (hb : Between ctx id ch index s)
    (hrest : ch.plan.plan.actions.drop index = rest) :
    Works ctx (fun go c => if go then Running ctx id ch c ∧ Clear ctx.attempt c else Over ctx c)
      (Executor.runActions ctx ch id note (rest.zipIdx index)) s := by
  induction rest generalizing index s with
  | nil => exact .pure fun t ht _ => ⟨(hb.later ht).running, (hb.later ht).clear⟩
  | cons action rest ih =>
    have haction : ch.plan.plan.actions[index]? = some action := by
      rw [← List.head?_drop, hrest]
      rfl
    refine .bind (runAction_works hb haction) fun go t hgo => ?_
    cases go with
    | true => exact ih hgo (by rw [← List.tail_drop, hrest]; rfl)
    | false => exact .pure fun u hu _ => Over.later hgo hu

/-! The end of the execute job. -/

theorem executing_passed {c : Core} {i : Incident} (hk : Knows ctx c) (hi : Inv c) (hkind : ctx.job.kind = .execute)
    (hid : ctx.job.incidentId = some id) (hinc : c.db.incidents.get? id = some i) (hst : i.state ≠ .executing) :
    Passed ctx.job c.db := by
  refine .of_rank hid hinc ?_
  have hr := hk.rank hi hid hinc
  rw [hkind] at hr ⊢
  cases hs : i.state <;> rw [hs] at hr <;> first | exact absurd hs hst | exact absurd hr (by decide) | decide

theorem executed_works (hrun : Running ctx id ch s) (hc : Clear ctx.attempt s) :
    Works ctx (fun _ => Over ctx) (Executor.executed ctx ch id) s := by
  have hkind := hrun.kind
  have hid := hrun.incident
  unfold Executor.executed
  refine .assertFence fun t ht hi => .select fun u hu hiu => ?_
  have hrun := (hrun.later ht).later hu
  have hc := (hc.later ht.2).later hu.2
  cases hinc : u.db.incidents.get? id with
  | none =>
    obtain ⟨i, hi, -⟩ := hrun.knows.incident hiu hid
    rw [hinc] at hi
    cases hi
  | some current =>
    dsimp only
    split_ifs with hst
    · exact .passed ⟨executing_passed hrun.knows hiu hkind hid hinc hst, hc⟩
    refine .finish hc (fun _ _ _ => rfl) fun i b d w hw hiw hh hrun' => ?_
    have hrun := hrun.later hw
    obtain ⟨v, d1, h1, h2⟩ := Tx.bind_ok.mp hrun'
    obtain ⟨o, d2, h3, h4⟩ := Tx.bind_ok.mp h2
    obtain ⟨-, rfl⟩ := Tx.pure_ok.mp h4
    obtain ⟨-, j, hj, hjs, -, -, hd1⟩ := Tx.transition_ok h1
    obtain ⟨r, hr, -, hrk, hri, hrp⟩ := hrun.job
    obtain ⟨row, hlatest, hrow, -⟩ := execute_latest hiw hr hrk hrp hri
    have hfresh : Jobs.keyTaken w.db.jobs (some (.plan ch.planId .verify)) = false := by
      refine hiw.jobs.fresh_plan fun row' i' hrow' hi' => ?_
      obtain rfl : row = row' := Option.some.inj (hlatest.1.symm.trans hrow')
      rw [hrow, hj] at hi'
      rw [← Option.some.inj hi', hjs]
      exact (by decide : State.executing.rank < Kind.verify.since)
    obtain ⟨r', hjob, hd⟩ := enqueue_plan h3 (by rw [hd1]; exact hfresh)
    have hpassed := moved_passed (y := .verifying) h1 hid hkind rfl (by decide)
    refine ⟨?_, by rw [hd]; exact hpassed⟩
    refine Guar.handOver (e := d2) (x := .executing) (y := .verifying) hiw (fun _ h => by cases h) hh h1 hd rfl rfl
      (by decide) (by decide)
      hjob.key hfresh (by rw [hjob.kind]; decide) hjob.status (fun k hk hks => ⟨?_, ?_⟩) fun _ => ⟨r, hr, hrk, hri⟩
    · refine hjob.ok rfl hk (by rw [hks]; decide) ?_ hrow
      rw [hd, hd1]
      exact hlatest.1
    · refine ⟨hjob.incident, by rw [hks, hjob.kind]; rfl, fun _ => ⟨ch.planId, row, ?_, hjob.payload⟩⟩
      rw [currentPlan_of_plans (d := w.db) (by rw [hd, hd1]), ← hrow]
      exact hlatest.current hiw.plans

theorem execute_works (hk : Knows ctx s) (hc : Clear ctx.attempt s) (hkind : ctx.job.kind = .execute)
    (hfresh : ∀ x ∈ s.hist.sent, x.attempt ≠ ctx.attempt) : Works ctx (fun _ => Over ctx) (Executor.execute ctx) s := by
  unfold Executor.execute
  cases hid : ctx.job.incidentId with
  | none => exact .throw
  | some id =>
    refine .look fun i x t ht hi hx => ?_
    obtain rfl := Except.ok.inj hx
    have hk := hk.later ht.1
    have hc := hc.later ht.2
    have hfresh : ∀ x ∈ t.hist.sent, x.attempt ≠ ctx.attempt := fun x hx ha => hfresh x (ht.2.sent x hx ha) ha
    cases hinc : t.db.incidents.get? id with
    | none => exact .throw
    | some incident =>
      dsimp only
      split_ifs with hst
      · exact .passed ⟨executing_passed hk hi hkind hid hinc hst, hc⟩
      have hst : incident.state = .executing := not_not.1 hst
      refine .select fun u hu hiu => ?_
      have hread : ReadIncident id incident t.log.length u := .later ⟨⟨t.db, dbs_now t, hinc⟩, le_rfl⟩ hu.1
      have hplan : ∀ x, u.db.currentPlan id = some x →
          (∃ d ∈ u.dbs.drop t.log.length, d.currentPlan id = some x) ∧ u.db.plans.get? x.1 = some x.2 := fun x hx =>
        ⟨⟨u.db, mem_since hread.bound, hx⟩, (currentPlan_latest hx).1.1⟩
      refine Does.bind (Does.mono (fun r v ⟨hv, hch⟩ => ?_) (fun _ _ _ => trivial)
        (refusal_reads hread hst hplan hkind hid (hk.later hu.1)))
      have hkv := (hk.later hu.1).later hv.1
      have hcv := (hc.later hu.2).later hv.2
      cases r with
      | error why => exact escalate_works nofun hkv hcv hkind hid
      | ok ch =>
        have hcheck := hch ch rfl
        obtain ⟨r, hr, hf, hrk, hri, -⟩ := hk.row
        have hrun : Running ctx id ch v :=
          { knows := hkv
            incident := hid
            check := hcheck
            here := (rely_trans _ _ _ _ hu hv).2.executing r id incident hr hf (hrk.trans hkind)
              (hri.trans hid) hinc hst }
        have hb : Between ctx id ch 0 v :=
          ⟨hrun, hcv, fun j hj => absurd hj (Nat.not_lt_zero j), fun x hx ha =>
            absurd ha (hfresh x (hu.2.sent x (hv.2.sent x hx ha) ha))⟩
        refine Works.bind (runActions_works hb (by rw [List.drop_zero])) fun go w hgo => ?_
        cases go with
        | true => exact executed_works hgo.1 hgo.2
        | false => exact .passed hgo

end Blackboard
