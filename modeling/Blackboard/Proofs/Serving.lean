import Blackboard.Proofs.Tenancy

/-! Every program serves one tenant: an attempt of a job the tenant of the job, a request the tenant of its caller.
What it writes belongs to the tenant, because what it has read does. -/

namespace Blackboard

open Threads

/-- The history of the database has every content that it has had. -/
def Logged (c c' : Core) : Prop := c'.db = c.db ∧ c'.log = c.log ∨ c'.log = c.dbs

/-- What a program of the tenant `u` relies on, and promises. -/
def tenancyContract (A : Authority) (u : String) (k : Caller) : Contract Core where
  inv c := Inv c ∧ Owned A c.db
  rely c c' := rely k c c' ∧ Steady c.db c'.db
  guar c c' := Serves A u c.db c'.db ∧ Logged c c'
  refl c := ⟨rely_refl k c, .refl c.db⟩
  trans _ _ _ h h' := ⟨rely_trans k _ _ _ h.1 h'.1, .trans _ _ _ h.2 h'.2⟩

theorem Known.lasting (A : Authority) (u : String) (k : Caller) (K : Known) :
    Lasting (tenancyContract A u k) fun s => K.holds s.db where
  rely s t h := K.stays s.db t.db h.2
  guar s t h := K.stays s.db t.db h.1.steady

theorem tenancy_unchanged (A : Authority) (u : String) (k : Caller) (c : Core) : (tenancyContract A u k).guar c c :=
  ⟨.refl c.db, .inl ⟨rfl, rfl⟩⟩

/-- Wherever `K` is known, the program serves the tenant; what it returns comes with `L`. -/
def Finds {α : Type} (A : Authority) (u : String) (k : Caller) (K : Known) (x : Handler α) (L : α → Known) : Prop :=
  ∀ s : Core, K.holds s.db → Does (tenancyContract A u k) (fun a t => (L a).holds t.db) (fun _ _ => True) x s

abbrev Tends {α : Type} (A : Authority) (u : String) (k : Caller) (K : Known) (x : Handler α) : Prop :=
  Finds A u k K x fun _ => .nothing

variable {A : Authority} {u : String} {k : Caller} {K : Known}

namespace Finds

variable {α β : Type} {L : α → Known} {N : β → Known}

theorem ret {a : α} (h : ∀ d, K.holds d → (L a).holds d) : Finds A u k K (Pure.pure a : Handler α) L :=
  fun s hs => Does.pure fun t ht _ => h t.db (K.stays s.db t.db ht.2 hs)

theorem throw (e : Err) : Finds A u k K (MonadExcept.throw e : Handler α) L :=
  fun _ _ => Does.throw fun _ _ _ => trivial

theorem throw_bind (e : Err) (g : β → Handler α) : Finds A u k K ((MonadExcept.throw e : Handler β) >>= g) L :=
  fun _ _ => Does.throw fun _ _ _ => trivial

/-- What is known before is known after, too. -/
theorem bind_yields {x : Handler α} {g : α → Handler β} (h : Tends A u k K x)
    (hg : ∀ a, Yields x a → Finds A u k K (g a) N) :
    Finds A u k K (x >>= g) N := fun s hs => by
  refine Does.bind (Meets.mono (fun r t hr => ?_) (Meets.frame (K.lasting A u k) (h s hs) hs))
  obtain ⟨-, hreturns, ht⟩ := hr
  cases r with
  | ok a => exact hg a hreturns t ht
  | error e => trivial

theorem bind {x : Handler α} {g : α → Handler β} (h : Tends A u k K x) (hg : ∀ a, Finds A u k K (g a) N) :
    Finds A u k K (x >>= g) N := bind_yields h fun a _ => hg a

theorem after {x : Handler α} {g : α → Handler β} (h : Finds A u k K x L) (hg : ∀ a, Finds A u k (L a) (g a) N) :
    Finds A u k K (x >>= g) N :=
    fun s hs => Does.bind (Does.mono (fun a t ha => hg a t ha) (fun _ _ _ => trivial) (h s hs))

theorem of_when {x : Handler α} {p : Prop} (h : p → Finds A u k K x L) : Finds A u k (K.when p) x L :=
  fun s hs => h hs.1 s hs.2

theorem attempt {x : Handler α} (h : Tends A u k K x) : Tends A u k K (Threads.attempt x) := fun s hs =>
  Does.mono (fun _ _ _ => trivial) (fun _ _ h => h) (Does.attempt (h s hs))

theorem look (f : Input → Core → Except Err α) : Tends A u k K (look f) := fun s _ => by
  refine Does.mono (fun _ _ _ => trivial) (fun _ _ _ => trivial) (Keeps.does (.lift fun i c => ?_) s)
  split <;> exact ⟨.refl c.db, .inl ⟨rfl, rfl⟩⟩

/-- The rest of the program knows what it has read. -/
theorem look_bind {f : Input → Core → Except Err α} {g : α → Handler β}
    (h : ∀ i c a, f i c = .ok a → K.holds c.db → ∃ M : Known, M.holds c.db ∧ Finds A u k M (g a) N) :
    Finds A u k K (Blackboard.look f >>= g) N := fun s hs => by
  refine Does.bind (Does.lift fun t ht _ i => ?_)
  have hk := K.stays s.db t.db ht.2 hs
  rcases i.fault with _ | x
  · refine ⟨tenancy_unchanged A u k t, fun u hu _ => ?_⟩
    rcases hf : f i t with e | a
    · simp only [Ends]
    · simp only [Ends]
      obtain ⟨M, hM, hg⟩ := h i t a hf hk
      exact hg u (M.stays t.db u.db hu.2 hM)
  · exact ⟨tenancy_unchanged A u k t, fun u hu _ => trivial⟩

theorem select_bind {f : Db → α} {g : α → Handler β}
    (h : ∀ d, K.holds d → ∃ M : Known, M.holds d ∧ Finds A u k M (g (f d)) N) :
    Finds A u k K (Blackboard.select f >>= g) N :=
  look_bind fun i c a ha hk => by
    cases ha
    exact h c.db hk

/-- The incident that is read is the tenant's. -/
theorem incident {id : ℕ} {g : Option Incident → Handler β} (hK : ∀ d, K.holds d → Belongs d id u)
    (hnone : Finds A u k K (g none) N) (hsome : ∀ incident, incident.tenantId = u →
      Finds A u k K (g (some incident)) N) :
    Finds A u k K (Blackboard.select (fun db => db.incidents.get? id) >>= g) N :=
  select_bind fun d hk => by
    rcases hi : d.incidents.get? id with _ | incident
    · exact ⟨K, hk, hnone⟩
    · exact ⟨K, hk, hsome incident (Belongs.unique ⟨incident, hi, rfl⟩ (hK d hk))⟩

theorem pure (a : α) : Tends A u k K (Pure.pure a : Handler α) := .ret fun _ _ => trivial

theorem of_except (r : Except Err α) : Tends A u k K (ExceptT.mk (Prog.ret r) : Handler α) := by
  cases r with
  | ok a => exact .pure a
  | error e => exact .throw e

theorem mono {x : Handler α} {L : Known} (h : Tends A u k L x) (hK : ∀ d, K.holds d → L.holds d) : Tends A u k K x :=
  fun s hs => h s (hK s.db hs)

theorem select (f : Db → α) : Tends A u k K (select f) := .look _

theorem clock : Tends A u k K clock := .look _

theorem fence {ctx : JobContext} : Tends A u k K ctx.assertFence := .look _

theorem commit {body : Input → Tx α} {note : Input → α → Core → Hist} (h : ∀ i, Tx.Tenanted A u K (body i)) :
    Tends A u k K (commit body note) := fun s hs => by
  refine Does.lift fun t ht hi i => ?_
  have hend : ∀ (r : Except Err α) (u : Core), Ends (fun _ _ => True) (fun _ _ => True) r u := fun r u => by
    cases r <;> trivial
  refine ⟨?_, fun u _ _ => hend _ u⟩
  rcases hrun : (body i).run t.db with e | ⟨a, d⟩
  · exact tenancy_unchanged A u k t
  · have hstep := h i t.db a d hrun (K.stays s.db t.db ht.2 hs) hi.2
    dsimp only
    split
    · exact ⟨hstep, .inr rfl⟩
    · split_ifs
      · exact ⟨hstep, .inr rfl⟩
      · exact tenancy_unchanged A u k t

theorem fenced {ctx : JobContext} {body : Input → Tx α} {note : Input → α → Core → Hist}
    (h : ∀ i, Tx.Tenanted A u K (body i)) :
    Tends A u k K (ctx.commit body note) := commit fun i => .bind .assertFence fun _ => h i

end Finds

section Programs

variable {ctx : JobContext}

/-- The incident of the job is the tenant's. -/
def jobKnown (job : Job) : Known where
  holds d := ∀ id, job.incidentId = some id → Belongs d id job.tenantId
  stays _ _ hs h id hid := hs.incidents _ _ (h id hid)

theorem jobKnown_incident {job : Job} {id : ℕ} (hid : job.incidentId = some id) (d : Db) (h : (jobKnown job).holds d) :
    (Known.incident id job.tenantId).holds d := h id hid

theorem enqueue_tenanted {now : Time} {id : ℕ} {t : String} {priority : ℕ} {kind : Kind} {settings : Settings}
    (ht : t = u) :
    Tx.Tenanted A u (.incident id u) (Handlers.enqueue now id t priority kind settings) :=
  .enqueue fun _ hb _ hi => ht ▸ Option.some.inj hi ▸ hb

theorem followUp_tenanted {now : Time} {id planId : ℕ} {incident : Incident} {kind : Kind} {settings : Settings}
    {delay : Time} (ht : incident.tenantId = u) (hK : ∀ d, K.holds d → Belongs d id u) :
    Tx.Tenanted A u K (Flow.enqueue now id incident kind planId settings delay) :=
  .enqueue fun d hk i hi => by
    obtain rfl := Option.some.inj hi
    exact (congrArg (Belongs d id) ht).mpr (hK d hk)

theorem move_tenanted {now : Time} {m : Transition} : Tx.Tenanted A u (.incident m.incident u) (Tx.transition now m) :=
  .transition fun _ h => h

theorem log_tenanted {id : ℕ} {x : AuditEntry} (ht : x.tenantId = some u) (hx : x.subject = .incident id)
    (hK : ∀ d, K.holds d → Belongs d id u) : Tx.Tenanted A u K (Tx.append x) :=
  .append ht fun d hk j hj => by
    obtain rfl := Subject.incident.inj (hx.symm.trans hj)
    exact hK d hk

/-! The worker's handlers. -/

theorem triage_tends : Tends A ctx.job.tenantId k (jobKnown ctx.job) (Handlers.triage ctx) := by
  unfold Handlers.triage
  split
  · exact .throw _
  · rename_i id hid
    refine .mono (.bind .fence fun _ => .incident (fun _ h => h) (.throw _) fun incident ht => ?_)
      (jobKnown_incident hid)
    dsimp only
    split_ifs
    · exact .pure _
    · exact .fenced fun i => .bind move_tenanted fun _ => .bind (enqueue_tenanted ht) fun _ => .pure _
    · exact .fenced fun i => .bind move_tenanted fun _ => .pure _

theorem startInvestigation_finds (id : ℕ) : Finds A u k (.incident id u) (Handlers.startInvestigation ctx id)
    fun start => (Known.incident id u).when (∀ x ∈ start, x.1.tenantId = u) := by
  unfold Handlers.startInvestigation
  refine .bind .fence fun _ => .incident (fun _ h => h) (.throw _) fun incident ht => ?_
  have hret : ∀ {K : Known} {version : ℕ}, (∀ d, K.holds d → Belongs d id u) →
    Finds A u k K (pure (some (incident, version)))
      fun start => (Known.incident id u).when (∀ x ∈ start, x.1.tenantId = u) := fun hK => .ret fun d hk => by
    refine ⟨fun x hx => ?_, hK d hk⟩
    obtain rfl := Option.some.inj hx
    exact ht
  dsimp only
  split_ifs
  · exact .bind (.fenced fun i => move_tenanted) fun _ => hret fun _ h => h
  · exact hret fun _ h => h
  · exact .ret fun d hk => ⟨by simp, hk⟩

theorem investigate_tends : Tends A ctx.job.tenantId k (jobKnown ctx.job) (Handlers.investigate ctx) := by
  unfold Handlers.investigate
  split
  · exact .throw _
  · rename_i id hid
    refine .mono (.after (startInvestigation_finds id) fun start => .of_when fun ht => ?_) (jobKnown_incident hid)
    rcases start with _ | ⟨incident, version⟩
    · exact .pure _
    · have ht : incident.tenantId = ctx.job.tenantId := ht _ rfl
      refine .bind (.look _) fun outcome => .bind .fence fun _ => ?_
      split
      · split_ifs
        · exact .fenced fun i => .bind move_tenanted fun _ => .bind (enqueue_tenanted ht) fun _ => .pure _
        · exact .fenced fun i => .bind move_tenanted fun _ => .pure _
      · exact .throw _
      · exact .fenced fun i => .bind move_tenanted fun _ => .pure _

theorem submitted_tenanted {now : Time} {settings : Settings} {id : ℕ} {incident : Incident} {row : PlanRow}
    {decision : Decision} {actor : Actor} (ht : incident.tenantId = u) (hid : row.incidentId = id)
    (hrow : row.tenantId = u) (ha : A.proposes row) :
    Tx.Tenanted A u (.incident id u) (Flow.submitted now settings id incident row decision actor) := by
  have hjob : ∀ {kind planId delay}, Tx.Tenanted A u (.incident id u)
      (Flow.enqueue now id incident kind planId settings delay) := followUp_tenanted ht fun d h => h
  unfold Flow.submitted
  refine .bind (.insertPlan hrow (fun d hb => hid ▸ hb) ha) fun planId =>
    .bind (log_tenanted (congrArg some ht) rfl fun d hb => hb) fun _ =>
    .bind move_tenanted fun _ => .bind move_tenanted fun _ => ?_
  split
  · exact .bind move_tenanted fun _ => .pure _
  · exact .bind move_tenanted fun _ => .bind hjob fun _ => .pure _
  · exact .bind move_tenanted fun _ => .bind hjob fun _ => .pure _

theorem review_tends {id : ℕ} {incident : Incident} {plan : RemediationPlan} {settings : Settings} :
    Tends A u k K (Flow.review id incident plan settings) :=
  .bind (.select _) fun _ => .bind (.look _) fun _ => .pure _

/-- Whoever it is may propose the plan for the incident. -/
def Authority.MayPropose (A : Authority) (sha256 : String → String) (u : String) (id : ℕ) (who : Actor)
    (plan : RemediationPlan) :
    Prop := ∀ row : PlanRow, row.tenantId = u → row.incidentId = id → row.proposedBy = who → row.plan = plan →
  row.planHash = Plans.planHash sha256 row.incidentId row.seq row.plan → A.proposes row

theorem submit_tends {sha256 : String → String} {id : ℕ} {incident : Incident} {plan : RemediationPlan}
    {by' actor : Actor} {settings : Settings} {finish : (Input → Tx (ℕ × State)) → Handler (ℕ × State)}
    (ht : incident.tenantId = u) (ha : A.MayPropose sha256 u id by' plan)
    (h : ∀ body, (∀ i, Tx.Tenanted A u (.incident id u) (body i)) → Tends A u k (.incident id u) (finish body)) :
    Tends A u k (.incident id u) (Flow.submit sha256 id incident plan by' actor settings finish) :=
  .bind review_tends fun _ => .bind (.select _) fun _ => .bind .clock fun _ => h _ fun _ =>
    submitted_tenanted ht rfl ht (ha _ ht rfl rfl rfl rfl)

theorem plan_tends {sha256 : String → String} (ha : ∀ u id plan, A.MayPropose sha256 u id .planner plan) :
    Tends A ctx.job.tenantId k (jobKnown ctx.job) (Handlers.plan sha256 ctx) := by
  unfold Handlers.plan
  split
  · exact .throw _
  · rename_i id hid
    refine .mono (.incident (fun _ h => h) (.throw _) fun incident _ => ?_) (jobKnown_incident hid)
    dsimp only
    split_ifs
    · exact .pure _
    · refine .bind (.select _) fun dx => .bind ?_ fun proposal => .bind .fence fun _ =>
        .incident (fun _ h => h) (.pure _) fun incident ht => ?_
      · unfold Handlers.propose
        split
        · exact .pure _
        · exact .look _
      · dsimp only
        split_ifs
        · exact .pure _
        · split
          · exact .fenced fun i => .bind move_tenanted fun _ => .pure _
          · exact .bind (submit_tends ht (ha _ _ _) fun body hb => .fenced hb) fun _ => .pure _

theorem approvalTimeout_tends : Tends A ctx.job.tenantId k (jobKnown ctx.job) (Handlers.approvalTimeout ctx) := by
  unfold Handlers.approvalTimeout
  split
  · exact .throw _
  · rename_i id hid
    refine .mono (.bind .fence fun _ => .incident (fun _ h => h) (.pure _) fun incident _ => ?_) (jobKnown_incident hid)
    dsimp only
    split_ifs
    · exact .pure _
    · refine .bind (.select _) fun current => ?_
      split
      · exact .pure _
      · split_ifs
        · exact .pure _
        · refine .bind (.select _) fun decided => ?_
          split_ifs
          · exact .pure _
          · exact .fenced fun i => .bind move_tenanted fun _ => .pure _

theorem verified_tends {id : ℕ} {ok : Bool} {reason : String} {samples : List Sample} {plan : Option (ℕ × PlanRow)} :
    Tends A u k (.incident id u) (Handlers.verified ctx id ok reason samples plan) := by
  unfold Handlers.verified
  refine .bind .fence fun _ => .incident (fun _ h => h) (.pure _) fun incident ht => ?_
  dsimp only
  by_cases hstate : incident.state ≠ .verifying
  · rw [if_pos hstate]
    exact .pure _
  · rw [if_neg hstate]
    exact .fenced fun i => .bind (log_tenanted (congrArg some ht) rfl fun d hb => hb) fun _ =>
      .bind move_tenanted fun _ => .pure _

theorem watch_tends {id : ℕ} {service : String} {check : Handlers.SliCheck} {deadline : Time}
    {plan : Option (ℕ × PlanRow)} {rounds : ℕ} {samples : List Sample} {streak : ℕ} :
    Tends A u k (.incident id u) (Handlers.watch ctx id service check deadline plan rounds samples streak) := by
  induction rounds generalizing samples streak with
  | zero => exact .throw _
  | succ rounds ih =>
    unfold Handlers.watch
    refine .bind (.look _) fun reading => ?_
    dsimp only
    generalize (if Option.any (Sli.below check.healthyBelow) reading.1 = true then streak + 1 else 0) = streak
    split_ifs
    · exact verified_tends
    · refine .bind .clock fun now => ?_
      split_ifs
      · exact verified_tends
      · exact ih

theorem verify_tends {prometheus : Bool} :
    Tends A ctx.job.tenantId k (jobKnown ctx.job) (Handlers.verify ctx prometheus) := by
  unfold Handlers.verify
  split
  · exact .throw _
  · rename_i id hid
    refine .mono (.bind (.select _) fun incident => ?_) (jobKnown_incident hid)
    split
    · exact .pure _
    · split
      · exact .pure _
      · refine .bind (.select _) fun plan => ?_
        split
        · exact verified_tends
        · split_ifs
          · exact .bind (.look _) fun rounds => watch_tends
          · exact verified_tends

/-! The executor. -/

theorem escalate_tends {id : ℕ} {actor : Actor} {reason : String} {plan : Bool} (hK : ∀ d, K.holds d → Belongs d id u) :
    Tends A u k K (Executor.escalate ctx id actor reason plan) := by
  have hmove : ∀ {now from' to' version actor reason}, Tx.Tenanted A u K
      (Tx.transition now ⟨id, from', to', version, actor, reason⟩) := .transition hK
  unfold Executor.escalate
  refine .bind .fence fun _ => .bind (.select _) fun current => ?_
  split
  · exact .pure _
  · split_ifs
    · exact .pure _
    · exact .bind (.select _) fun _ => .fenced fun i => .bind hmove fun _ => .pure _
    · exact .bind (.pure _) fun _ => .fenced fun i => .bind hmove fun _ => .pure _

theorem prepare_tends {ns : String} {action : Action} {note : String} :
    Tends A u k K (Executor.prepare ns action note) := by
  have hprepare : Tends A u k K (K8s.prepare ns action note) := by
    unfold K8s.prepare
    refine .bind (.look _) fun read => .bind (.of_except _) fun _ => ?_
    split
    · exact .bind (.look _) fun _ => .bind (.of_except _) fun _ => .pure _
    · exact .bind .clock fun _ => .bind (.of_except _) fun _ => .pure _
  unfold Executor.prepare
  refine .bind hprepare fun p => ?_
  split_ifs
  · exact .pure _
  · exact .bind (.look _) fun _ => .pure _

theorem patch_tends {ch : Checked} {id index : ℕ} {action : Action} {p : Prepared} :
    Tends A u k K (Executor.patch ctx ch id index action p) := fun s _ => by
  refine Does.mono (fun _ _ _ => trivial) (fun _ _ _ => trivial) (Keeps.does (.lift fun i c => ?_) s)
  dsimp only
  split <;> exact ⟨.refl c.db, .inl ⟨rfl, rfl⟩⟩

theorem apply_tends {ch : Checked} {id index : ℕ} {action : Action} {p : Prepared} :
    Tends A u k K (Executor.apply ctx ch id index action p) := by
  unfold Executor.apply
  split_ifs
  · exact .pure _
  · exact .bind patch_tends fun _ => .bind (.of_except _) fun _ => .bind (.look _) fun _ => .pure _

/-- The rows of an action are the tenant's, as the plan is. -/
theorem runAction_tends {ch : Checked} {id index : ℕ} {action : Action} {note : String}
    (ht : ch.incident.tenantId = u) :
    Tends A u k (.plan id u ch.planId) (Executor.runAction ctx ch id index action note) := by
  have hrecord : ∀ {status dryRun before error}, Tends A u k (.plan id u ch.planId)
      (Executor.record ctx ch id index action status dryRun before error) :=
    .fenced fun i => .insertExecution ht (fun d h => h.1) fun d h => h.2
  have hupdate : ∀ {note} {f : Input → Execution → Execution}, (∀ i e, (f i e).incidentId = e.incidentId ∧
      (f i e).tenantId = e.tenantId ∧ (f i e).planId = e.planId) → Tends A u k (.plan id u ch.planId)
        (ctx.commit (fun i => Tx.updateExecution ch.planId index (f i)) note) := fun hf =>
    .fenced fun i => .updateExecution (hf i) fun d h => by
      obtain ⟨hb, p, hp, rfl⟩ := h
      exact ⟨p, hp, hb⟩
  have haudit : ∀ {note} {event : Event}, Tends A u k (.plan id u ch.planId)
      (ctx.commit (fun _ => Tx.append (Executor.executionEvent ctx ch id event)) note) :=
    .fenced fun i => log_tenanted (congrArg some ht) rfl fun d h => h.1
  have hescalate : ∀ {actor reason plan}, Tends A u k (.plan id u ch.planId)
      (Executor.escalate ctx id actor reason plan) := escalate_tends fun d h => h.1
  unfold Executor.runAction
  refine .bind (.select _) fun status => ?_
  split
  · exact .pure _
  · split_ifs
    · exact .bind (hupdate fun i e => ⟨rfl, rfl, rfl⟩) fun _ => .bind hescalate fun _ => .pure _
    · exact .bind hescalate fun _ => .pure _
  · refine .bind (.attempt prepare_tends) fun prepared => ?_
    split
    · exact .bind hrecord fun _ => .bind hescalate fun _ => .pure _
    · exact .throw _
    · refine .bind hrecord fun _ => .bind haudit fun _ => .bind (.attempt apply_tends) fun applied => ?_
      split
      · exact .bind (hupdate fun i e => ⟨rfl, rfl, rfl⟩) fun _ => .bind hescalate fun _ => .pure _
      · exact .throw _
      · exact .bind (hupdate fun i e => ⟨rfl, rfl, rfl⟩) fun _ => .bind haudit fun _ => .pure _

theorem runActions_tends {ch : Checked} {id : ℕ} {note : String} (ht : ch.incident.tenantId = u)
    (actions : List (Action × ℕ)) :
    Tends A u k (.plan id u ch.planId) (Executor.runActions ctx ch id note actions) := by
  induction actions with
  | nil => exact .pure _
  | cons a rest ih =>
    obtain ⟨action, index⟩ := a
    unfold Executor.runActions
    refine .bind (runAction_tends ht) fun go => ?_
    split_ifs
    · exact ih
    · exact .pure _

/-- What is checked is the incident and the plan that were read. -/
theorem refusal_checked {id since : ℕ} {incident : Incident} {plan : Option (ℕ × PlanRow)} {ch : Checked}
    (h : Yields (Executor.refusal ctx id incident since plan) (.ok ch)) :
    ch.incident = incident ∧ plan = some (ch.planId, ch.plan) := by
  rcases plan with _ | ⟨planId, plan⟩
  · cases Yields.pure h
  · unfold Executor.refusal at h
    dsimp only at h
    split_ifs at h
    · cases Yields.pure h
    · cases Yields.pure h
    · obtain ⟨⟨context, decision⟩, -, h⟩ := Yields.bind h
      dsimp only at h
      split_ifs at h
      · cases Yields.pure h
      · obtain ⟨approval, -, h⟩ := Yields.bind h
        split at h
        · cases Yields.pure h
        · cases Yields.pure h
          exact ⟨rfl, rfl⟩
      · cases Yields.pure h
        exact ⟨rfl, rfl⟩

theorem refusal_tends {id since : ℕ} {incident : Incident} {plan : Option (ℕ × PlanRow)} :
    Tends A u k K (Executor.refusal ctx id incident since plan) := by
  rcases plan with _ | ⟨planId, plan⟩
  · exact .pure _
  · unfold Executor.refusal
    dsimp only
    split_ifs
    · exact .pure _
    · exact .pure _
    · refine .bind review_tends fun x => ?_
      split_ifs
      · exact .pure _
      · refine .bind (.select _) fun approval => ?_
        split <;> exact .pure _
      · exact .pure _

theorem executed_tends {ch : Checked} {id : ℕ} (hK : ∀ d, K.holds d → Belongs d id u) :
    Tends A u k K (Executor.executed ctx ch id) := by
  unfold Executor.executed
  refine .bind .fence fun _ => .incident hK (.pure _) fun current ht => ?_
  dsimp only
  split_ifs
  · exact .pure _
  · exact .fenced fun i => .bind (.transition hK) fun _ => .bind (followUp_tenanted ht hK) fun _ => .pure _

theorem execute_tends : Tends A ctx.job.tenantId k (jobKnown ctx.job) (Executor.execute ctx) := by
  unfold Executor.execute
  split
  · exact .throw _
  · rename_i id hid
    refine .mono (.look_bind fun i c read hread hb => ?_) (jobKnown_incident hid)
    obtain rfl := Except.ok.inj hread
    refine ⟨.incident id ctx.job.tenantId, hb, ?_⟩
    dsimp only
    rcases hinc : c.db.incidents.get? id with _ | incident
    · exact .throw _
    have ht : incident.tenantId = ctx.job.tenantId := Belongs.unique ⟨incident, hinc, rfl⟩ hb
    dsimp only
    split_ifs
    · exact .pure _
    · refine .select_bind fun d hb => ?_
      rcases hplan : d.currentPlan id with _ | ⟨planId, plan⟩
      · refine ⟨.incident id ctx.job.tenantId, hb, .bind_yields refusal_tends fun checked hch => ?_⟩
        rcases checked with why | ch
        · exact escalate_tends fun _ h => h
        · cases (refusal_checked hch).2
      · obtain ⟨hlatest, hrow⟩ := currentPlan_latest hplan
        refine ⟨.plan id ctx.job.tenantId planId, ⟨hb, plan, hlatest.1, hrow⟩,
          .bind_yields refusal_tends fun checked hch => ?_⟩
        rcases checked with why | ch
        · exact escalate_tends fun _ h => h.1
        · obtain ⟨rfl, hp⟩ := refusal_checked hch
          obtain ⟨rfl, rfl⟩ := Prod.mk.inj (Option.some.inj hp)
          refine .bind (runActions_tends ht _) fun go => ?_
          split_ifs
          · exact executed_tends fun _ h => h.1
          · exact .pure _

/-! The API. -/

/-- The 404 hides the incidents of others. -/
theorem incident_finds (id : ℕ) (u : String) :
    Finds A u k K (Api.incident id u) fun row => (Known.incident id u).when (row.tenantId = u) := by
  unfold Api.incident
  refine .select_bind fun d _ => ?_
  rcases hi : d.incidents.get? id with _ | incident
  · exact ⟨.nothing, trivial, .throw _⟩
  · dsimp only
    split_ifs with ht
    · exact ⟨.incident id u, ⟨incident, hi, ht⟩, .ret fun d hb => ⟨ht, hb⟩⟩
    · exact ⟨.nothing, trivial, .throw _⟩

theorem decided_tenanted {now : Time} {settings : Settings} {id planId : ℕ} {incident : Incident} {plan : PlanRow}
    {b : Flow.Ballot} (ht : incident.tenantId = u) (ha : A.approves (Flow.vote now id incident planId plan b)) :
    Tx.Tenanted A u (.plan id u planId) (Flow.decided now settings id incident planId plan b) := by
  obtain ⟨approver, decision, hashSeen, comment⟩ := b
  unfold Flow.decided
  refine .bind (.insertApproval ht (fun d h => h.1) (fun d h => h.2) ha) fun inserted => ?_
  have haudit : ∀ event : Event, Tx.Tenanted A u (.plan id u planId) (Tx.append
      { actor := approver, subject := .incident id, tenantId := some incident.tenantId, event }) :=
    fun event => log_tenanted (congrArg some ht) rfl fun d h => h.1
  have hmove : ∀ {to' reason}, Tx.Tenanted A u (.plan id u planId)
      (Tx.transition now ⟨id, .awaitingApproval, to', incident.version, approver, reason⟩) := .transition fun d h => h.1
  cases decision with
  | approve =>
    have hrest : Tx.Tenanted A u (.plan id u planId)
        (Flow.enqueue now id incident .execute planId settings 0 >>= fun _ => pure State.executing) :=
      .bind (followUp_tenanted ht fun d h => h.1) fun _ => .pure _
    split_ifs
    · exact .bind (.raise _) fun _ => .bind (haudit _) fun _ => .bind hmove fun _ => hrest
    · exact .bind (haudit _) fun _ => .bind hmove fun _ => hrest
  | reject =>
    split_ifs
    · exact .bind (.raise _) fun _ => .bind (haudit _) fun _ => .bind hmove fun _ => .pure _
    · exact .bind (haudit _) fun _ => .bind hmove fun _ => .pure _

theorem ingest_tenanted {now : Time} {actor : Actor} {settings : Settings} (alerts : List Opening)
    (h : ∀ o ∈ alerts, o.tenantId = u) : Tx.Tenanted A u .nothing (Api.ingest now actor settings alerts) := by
  induction alerts with
  | nil => exact .pure _
  | cons o rest ih =>
    obtain rfl := h o (List.mem_cons_self ..)
    have ih := ih fun o ho => h o (List.mem_cons_of_mem _ ho)
    unfold Api.ingest
    refine .bind_known (L := fun x => if x.2 then .incident x.1 o.tenantId else .nothing)
      (fun d x e h _ => ?_) fun x => ?_
    · obtain ⟨id, isNew⟩ := x
      obtain ⟨hs, hnew⟩ := Tx.openOrMerge_serves h
      refine ⟨hs, ?_⟩
      cases isNew with
      | true => exact hnew rfl
      | false => trivial
    · obtain ⟨id, isNew⟩ := x
      cases isNew with
      | true =>
        exact .bind (.bind (enqueue_tenanted rfl) fun _ => log_tenanted rfl rfl fun d hb => hb)
          fun _ => .bind (.mono ih fun _ _ => trivial) fun _ => .pure _
      | false => exact .bind ih fun _ => .pure _

/-- The tenant whose rows a request reads and writes. -/
def Request.Of (u : String) : Request → Prop
  | .decide t .. => t = u
  | .revise t .. => t = u
  | .webhook _ alerts _ => ∀ o ∈ alerts, o.tenantId = u

/-- The decision may be written as it was sent. -/
def Authority.MayDecide (A : Authority) (u : String) (id : ℕ) (b : Flow.Ballot) : Prop :=
  ∀ a : Approval, a.tenantId = u → a.incidentId = id → a.approver = b.approver → a.decision = b.decision →
    a.planHash = b.hashSeen → a.comment = b.comment → A.approves a

/-- What a request may do for a tenant. -/
def Authority.Grants (A : Authority) (sha256 : String → String) (u : String) : Request → Prop
  | .decide _ id subject decision planHash comment _ => A.MayDecide u id ⟨.user subject, decision, planHash, comment⟩
  | .revise _ id subject plan _ => A.MayPropose sha256 u id (.user subject) plan
  | .webhook .. => True

theorem handle_tends {sha256 : String → String} {n : ℕ} {r : Request} (hof : r.Of u) (hr : A.Grants sha256 u r) :
    Tends A u k .nothing (Api.handle sha256 n r) := by
  cases r with
  | decide tenant id subject decision hash comment settings =>
    obtain rfl : tenant = u := hof
    refine .after (incident_finds id tenant) fun row => .of_when fun ht => .bind (.attempt ?_) fun result => ?_
    · unfold Flow.decide
      split_ifs
      · exact .throw _
      · refine .select_bind fun d hb => ?_
        rcases hplan : d.currentPlan id with _ | ⟨planId, plan⟩
        · exact ⟨.nothing, trivial, .throw _⟩
        · obtain ⟨hlatest, hrow⟩ := currentPlan_latest hplan
          refine ⟨.plan id tenant planId, ⟨hb, plan, hlatest.1, hrow⟩, ?_⟩
          dsimp only
          split
          · exact .throw_bind _ _
          · split
            · exact .throw_bind _ _
            · rename_i hhash
              refine .bind .clock fun now => ?_
              split
              · exact .throw_bind _ _
              · split
                · exact .throw_bind _ _
                · exact .commit fun _ => decided_tenanted ht (hr _ ht rfl rfl rfl (not_not.mp hhash).symm rfl)
    · split
      · exact .pure _
      · exact .throw _
      · exact .throw _
  | revise tenant id subject plan settings =>
    obtain rfl : tenant = u := hof
    refine .after (incident_finds id tenant) fun row => .of_when fun ht => ?_
    split_ifs
    · exact .throw _
    · refine .bind (.attempt (submit_tends ht hr fun body hb => .commit hb)) fun result => ?_
      split
      · exact .pure _
      · exact .throw _
  | webhook subject alerts settings =>
    exact .bind (.commit fun _ => ingest_tenanted _ fun o ho => hof o ((List.mem_insertionSort _).mp ho)) fun _ =>
      .pure _

/-! The worker around a handler. -/

theorem worker_fail_tends {e : Err} {retryable : Bool} :
    Tends A ctx.job.tenantId k (jobKnown ctx.job) (Worker.fail ctx e retryable) := by
  unfold Worker.fail
  refine .bind (.attempt (.commit fun i => .bind .fail fun status => ?_)) fun result => ?_
  · split_ifs
    · exact .append rfl fun d _ id hid => by cases hid
    · exact .pure _
  · split
    · exact .pure _
    · exact .pure _
    · exact .throw _

theorem worker_execute_tends (ctx : JobContext) {handler : Option (JobContext → Handler Unit)}
    (h : ∀ f, handler = some f → Tends A ctx.job.tenantId k (jobKnown ctx.job) (f ctx)) :
    Tends A ctx.job.tenantId k (jobKnown ctx.job) (Worker.execute ctx handler) := by
  unfold Worker.execute
  refine .bind (.attempt ?_) fun r => ?_
  · rcases handler with _ | f
    · exact .throw_bind _ _
    · exact .bind (h f rfl) fun _ => .commit fun i => .complete
  · split
    · exact .pure _
    · exact .pure _
    · exact .pure _
    · exact .bind (.bind (.attempt (.commit fun i => .release)) fun _ => .pure _) fun _ => .throw _
    · exact worker_fail_tends
    · exact worker_fail_tends

end Programs

theorem attempt_tends {sha256 : String → String} {p : Process} {job : Job}
    (ha : ∀ u id plan, A.MayPropose sha256 u id .planner plan) {s : Core}
    (hs : (jobKnown job).holds s.db) :
    Meets (tenancyContract A job.tenantId k) (fun _ _ => True) (attemptProgram sha256 p job) s := by
  have hexec : Tends A job.tenantId k (jobKnown job)
      (Worker.execute ⟨job, p.settings, p.workerId⟩ (p.handler sha256 job.kind)) := by
    refine worker_execute_tends ⟨job, p.settings, p.workerId⟩ fun f hf => ?_
    unfold Process.handler at hf
    split_ifs at hf
    · cases hkind : job.kind <;> rw [hkind] at hf <;> cases hf
      exact execute_tends
    · cases hkind : job.kind <;> rw [hkind] at hf <;> cases hf
      · exact triage_tends
      · exact investigate_tends
      · exact plan_tends ha
      · exact approvalTimeout_tends
      · exact verify_tends
  have hdone : Tends A job.tenantId k (jobKnown job) (do
      Worker.execute ⟨job, p.settings, p.workerId⟩ (p.handler sha256 job.kind)
      return Response.settled) := .bind hexec fun _ => .pure _
  exact Meets.mono (fun _ _ _ => trivial) (hdone s hs)

end Blackboard
