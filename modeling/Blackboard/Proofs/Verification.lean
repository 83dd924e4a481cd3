import Blackboard.Lib.Origins
import Blackboard.Proofs.Effects

/-! An incident is RESOLVED by the verifier only, and only after enough healthy readings. The layer over the protocol
says what the transactions do to the verifier's audit rows: only the last one of the verify job writes any. -/

namespace Blackboard

open Threads

/-- The incident, the outcome and the readings that an audit row of the verifier records. -/
def AuditEntry.verdict (x : AuditEntry) : Option (ℕ × Bool × List Sample) :=
  match x.subject, x.event with
  | .incident id, .verification ok _ samples => some (id, ok, samples)
  | _, _ => none

def Db.verdicts (d : Db) : List (ℕ × Bool × List Sample) := d.audit.filterMap AuditEntry.verdict

/-- The last `n` readings are below the threshold; a row shows at most 20. -/
def Healthy (n : ℕ) (check : Handlers.SliCheck) (samples : List Sample) : Prop :=
  min n 20 ≤ samples.length ∧
    ∀ x ∈ samples.drop (samples.length - min n 20), x.value.any (Sli.below check.healthyBelow) = true

/-- What the readings of an outcome say of the incident. -/
def Justified (n : ℕ) (ok : Bool) (samples : List Sample) (labels : List (String × String)) : Prop :=
  ok = true → ∃ check, Handlers.checkFor labels = some check ∧ Healthy n check samples

structure Verified (n : ℕ) (d : Db) : Prop where
  outcome : ∀ id ok samples, (id, ok, samples) ∈ d.verdicts → ∃ i, d.incidents.get? id = some i ∧
    i.state = (if ok then .resolved else .escalated) ∧ Justified n ok samples i.labels
  once : (d.verdicts.map Prod.fst).Nodup
  resolved : ∀ id i, d.incidents.get? id = some i → i.state = .resolved → ∃ samples, (id, true, samples) ∈ d.verdicts

/-! Transactions that leave the verdicts alone. -/

def SameLabels (d e : Db) : Prop :=
  ∀ id i, d.incidents.get? id = some i → ∃ j, e.incidents.get? id = some j ∧ j.labels = i.labels

structure Quiet (d e : Db) : Prop where
  verdicts : e.verdicts = d.verdicts
  labels : SameLabels d e
  resolved : ∀ id j, e.incidents.get? id = some j → j.state = .resolved →
    ∃ i, d.incidents.get? id = some i ∧ i.state = .resolved

theorem SameLabels.refl (d : Db) : SameLabels d d := fun _ i hi => ⟨i, hi, rfl⟩

theorem SameLabels.trans (d e f : Db) (h : SameLabels d e) (h' : SameLabels e f) : SameLabels d f := by
  intro id i hi
  obtain ⟨j, hj, hij⟩ := h id i hi
  obtain ⟨k, hk, hjk⟩ := h' id j hj
  exact ⟨k, hk, hjk.trans hij⟩

theorem Quiet.refl (d : Db) : Quiet d d := ⟨rfl, .refl d, fun _ j hj hs => ⟨j, hj, hs⟩⟩

theorem Quiet.trans {d e f : Db} (h : Quiet d e) (h' : Quiet e f) : Quiet d f where
  verdicts := h'.verdicts.trans h.verdicts
  labels := .trans d e f h.labels h'.labels
  resolved id k hk hs := by
    obtain ⟨j, hj, hjs⟩ := h'.resolved id k hk hs
    exact h.resolved id j hj hjs

theorem Quiet.of_eq {d e : Db} (hinc : e.incidents = d.incidents) (haudit : e.verdicts = d.verdicts) : Quiet d e where
  verdicts := haudit
  labels id i hi := ⟨i, by rw [hinc]; exact hi, rfl⟩
  resolved id j hj hs := ⟨j, by rw [← hinc]; exact hj, hs⟩

theorem verdicts_append (d : Db) (xs : List AuditEntry) :
    Db.verdicts { d with audit := d.audit ++ xs } = d.verdicts ++ xs.filterMap AuditEntry.verdict :=
    List.filterMap_append

/-- Rows that are moved on keep their labels; only one that is resolved now was moved there. -/
theorem Quiet.update {d e : Db} {f : ℕ → Incident → Incident} (hinc : e.incidents = d.incidents.update f)
    (haudit : e.verdicts = d.verdicts) (hlabels : ∀ id i, (f id i).labels = i.labels)
    (hstate : ∀ id i, (f id i).state = .resolved → i.state = .resolved) : Quiet d e where
  verdicts := haudit
  labels id i hi := ⟨f id i, by rw [hinc, Table.get?_update, hi]; rfl, hlabels id i⟩
  resolved id j hj hs := by
    rw [hinc, Table.get?_update] at hj
    obtain ⟨i, hi, rfl⟩ := Option.map_eq_some_iff.mp hj
    exact ⟨i, hi, hstate id i hs⟩

namespace Tx

variable {α β : Type}

/-- Every commit of the transaction leaves the verdicts alone. -/
def Quiet (x : Tx α) : Prop := ∀ d a e, x.run d = .ok (a, e) → Blackboard.Quiet d e

namespace Quiet

theorem pure (a : α) : Tx.Quiet (Pure.pure a : Tx α) := fun d b e h => by
  obtain ⟨-, rfl⟩ := Tx.pure_ok.mp h
  exact .refl d

theorem bind {x : Tx α} {f : α → Tx β} (hx : Tx.Quiet x) (hf : ∀ a, Tx.Quiet (f a)) :
    Tx.Quiet (x >>= f) := fun d b e h => by
  obtain ⟨a, m, h1, h2⟩ := Tx.bind_ok.mp h
  exact (hx d a m h1).trans (hf a m b e h2)

theorem raise (e : Err) : Tx.Quiet (Tx.raise e : Tx α) := fun _ _ _ h => by cases h

theorem append {x : AuditEntry} (hx : x.verdict = none) : Tx.Quiet (Tx.append x) := fun d u e h => by
  obtain rfl := Tx.append_ok.mp h
  refine .of_eq rfl ?_
  rw [verdicts_append, List.filterMap_cons_none hx, List.filterMap_nil, List.append_nil]

theorem transition {now : Time} {m : Transition} (hm : m.toState ≠ .resolved) : Tx.Quiet (Tx.transition now m) :=
  fun d v e h => by
    obtain ⟨-, i, hi, -, -, -, rfl⟩ := Tx.transition_ok h
    refine .update (f := fun id j => if id = m.incident then Incidents.moved now m.toState j else j) rfl ?_ ?_ ?_
    · exact (verdicts_append d _).trans (List.append_nil _)
    · intro id j
      split_ifs <;> rfl
    · intro id j hs
      split_ifs at hs
      · exact absurd hs hm
      · exact hs

theorem assertFence {job : Job} : Tx.Quiet (Tx.assertFence job) := fun d u e h => by
  obtain ⟨-, rfl⟩ := Tx.assertFence_ok h
  exact .refl e

theorem insertPlan {p : PlanRow} : Tx.Quiet (Tx.insertPlan p) := fun d n e h => by
  obtain ⟨-, rfl⟩ := Tx.insertPlan_ok h
  exact .of_eq rfl rfl

theorem insertApproval {a : Approval} : Tx.Quiet (Tx.insertApproval a) := fun d b e h => by
  rcases Tx.insertApproval_ok h with ⟨-, rfl⟩ | ⟨-, -, rfl⟩
  · exact .refl e
  · exact .of_eq rfl rfl

theorem insertExecution {x : Execution} : Tx.Quiet (Tx.insertExecution x) := fun d u e h => by
  obtain ⟨-, rfl⟩ := Tx.insertExecution_ok h
  exact .of_eq rfl rfl

theorem updateExecution {p index : ℕ} {f : Execution → Execution} : Tx.Quiet (Tx.updateExecution p index f) :=
  fun d u e h => by
    obtain rfl := Tx.updateExecution_ok.mp h
    exact .of_eq rfl rfl

/-- A statement on the queue. -/
theorem jobs {γ : Type} {r : JobTable → Except Err γ} {a : γ → α} {j : γ → JobTable} :
    Tx.Quiet fun db => (r db.jobs).map fun y => (a y, { db with jobs := j y }) := fun d b e h => by
  unfold Tx.run StateT.run at h
  dsimp only at h
  rcases hr : r d.jobs with x | y <;> rw [hr] at h
  · cases h
  · obtain ⟨-, rfl⟩ := Prod.mk.inj (Except.ok.inj h)
    exact .of_eq rfl rfl

theorem enqueue {now : Time} {x : Enqueue} : Tx.Quiet (Tx.enqueue now x) := jobs

theorem complete {now : Time} {job : Job} : Tx.Quiet (Tx.complete now job) := jobs (a := fun _ => ()) (j := id)

theorem release {now : Time} {job : Job} : Tx.Quiet (Tx.release now job) := jobs (a := fun _ => ()) (j := id)

theorem fail {now : Time} {job : Job} {error : String} {retryable : Bool} {settings : Settings} {jitter : Time} :
    Tx.Quiet (Tx.fail now job error retryable settings jitter) := jobs (j := Prod.fst)

theorem openOrMerge {now : Time} {o : Opening} : Tx.Quiet (Tx.openOrMerge now o) := fun d x e h => by
  unfold Tx.openOrMerge Tx.run StateT.run at h
  dsimp only at h
  split_ifs at h
  split at h
  · obtain ⟨-, rfl⟩ := Prod.mk.inj (Except.ok.inj h)
    refine .update (f := fun _ => Incidents.mergedIf now o) rfl rfl ?_ ?_
    · intro id i
      unfold Incidents.mergedIf
      split_ifs <;> rfl
    · intro id i hs
      unfold Incidents.mergedIf at hs
      split_ifs at hs
      · exact hs
      · exact hs
  · obtain ⟨-, rfl⟩ := Prod.mk.inj (Except.ok.inj h)
    refine ⟨rfl, fun id i hi => ⟨i, Table.get?_insert_of_some _ hi, rfl⟩, fun id j hj hs => ?_⟩
    rw [Table.get?_insert] at hj
    split_ifs at hj
    · obtain rfl := Option.some.inj hj
      cases hs
    · exact ⟨j, hj, hs⟩

end Quiet

end Tx

/-! Programs that do. -/

/-- Besides, a PATCH that was sent is on what was checked as `o`. -/
def QuietStep (o : Option Checked) (c c' : Core) : Prop :=
  Quiet c.db c'.db ∧ ∀ s ∈ c'.hist.sent, s ∈ c.hist.sent ∨ o = some s.checked

theorem QuietStep.refl {o : Option Checked} (c : Core) : QuietStep o c c := ⟨.refl c.db, fun _ hs => Or.inl hs⟩

theorem QuietStep.write {o : Option Checked} {c : Core} {d : Db} {h : Hist} (hq : Quiet c.db d)
    (hs : h.sent = c.hist.sent) :
    QuietStep o c { c.write d with hist := h } := ⟨hq, fun _ hm => Or.inl (hs ▸ hm)⟩

section Programs

variable {α : Type} {ctx : JobContext} {o : Option Checked}

theorem look_quiet (f : Input → Core → Except Err α) : Keeps (QuietStep o) (look f) := by
  refine .lift fun i c => ?_
  split <;> exact .refl c

theorem select_quiet (f : Db → α) : Keeps (QuietStep o) (select f) := look_quiet _

theorem clock_quiet : Keeps (QuietStep o) clock := look_quiet _

theorem fence_quiet : Keeps (QuietStep o) ctx.assertFence := look_quiet _

theorem commit_quiet {body : Input → Tx α} {note : Input → α → Core → Hist}
    (hnote : ∀ i a c, (note i a c).sent = c.hist.sent) (h : ∀ i, Tx.Quiet (body i)) :
    Keeps (QuietStep o) (commit body note) := by
  refine .lift fun i c => ?_
  dsimp only
  rcases hrun : (body i).run c.db with e | ⟨a, d⟩
  · exact .refl c
  · dsimp only
    split
    · exact .write (h i c.db a d hrun) (hnote i a c)
    · split_ifs
      · exact .write (h i c.db a d hrun) (hnote i a c)
      · exact .refl c

theorem fenced_quiet {body : Input → Tx α} {note : Input → α → Core → Hist}
    (hnote : ∀ i a c, (note i a c).sent = c.hist.sent) (h : ∀ i, Tx.Quiet (body i)) :
    Keeps (QuietStep o) (ctx.commit body note) := commit_quiet hnote fun i => .bind .assertFence fun _ => h i

theorem ret_quiet (r : Except Err α) : Keeps (QuietStep o) (ExceptT.mk (Prog.ret r) : Handler α) := trivial

/-! The worker's handlers, except the verify job. -/

theorem triage_quiet : Keeps (QuietStep o) (Handlers.triage ctx) := by
  unfold Handlers.triage
  split
  · exact .throw _
  · refine .bind fence_quiet fun _ => .bind (select_quiet _) fun incident => ?_
    split
    · exact .throw _
    · split_ifs
      · exact .pure _
      · exact fenced_quiet (fun _ _ _ => rfl) fun i => .bind (.transition (by simp)) fun _ =>
          .bind .enqueue fun _ => .pure _
      · exact fenced_quiet (fun _ _ _ => rfl) fun i => .bind (.transition (by simp)) fun _ => .pure _

theorem startInvestigation_quiet (id : ℕ) : Keeps (QuietStep o) (Handlers.startInvestigation ctx id) := by
  unfold Handlers.startInvestigation
  refine .bind fence_quiet fun _ => .bind (select_quiet _) fun incident => ?_
  split
  · exact .throw _
  · split_ifs
    · exact .bind (fenced_quiet (fun _ _ _ => rfl) fun i => .transition (by simp)) fun _ => .pure _
    · exact .pure _
    · exact .pure _

theorem investigate_quiet : Keeps (QuietStep o) (Handlers.investigate ctx) := by
  unfold Handlers.investigate
  split
  · exact .throw _
  · refine .bind (startInvestigation_quiet _) fun start => ?_
    split
    · exact .pure _
    · refine .bind (look_quiet _) fun outcome => .bind fence_quiet fun _ => ?_
      split
      · split_ifs
        · exact fenced_quiet (fun _ _ _ => rfl) fun i => .bind (.transition (by simp)) fun _ =>
            .bind .enqueue fun _ => .pure _
        · exact fenced_quiet (fun _ _ _ => rfl) fun i => .bind (.transition (by simp)) fun _ => .pure _
      · exact .throw _
      · exact fenced_quiet (fun _ _ _ => rfl) fun i => .bind (.transition (by simp)) fun _ => .pure _

theorem submitted_quiet {now : Time} {settings : Settings} {id : ℕ} {incident : Incident} {row : PlanRow}
    {decision : Decision} {actor : Actor} : Tx.Quiet (Flow.submitted now settings id incident row decision actor) := by
  unfold Flow.submitted
  refine .bind .insertPlan fun planId => .bind (.append rfl) fun _ => .bind (.transition (by simp)) fun _ =>
    .bind (.transition (by simp)) fun _ => ?_
  split
  · exact .bind (.transition (by simp)) fun _ => .pure _
  · exact .bind (.transition (by simp)) fun _ => .bind .enqueue fun _ => .pure _
  · exact .bind (.transition (by simp)) fun _ => .bind .enqueue fun _ => .pure _

theorem review_quiet {id : ℕ} {incident : Incident} {plan : RemediationPlan} {settings : Settings} :
    Keeps (QuietStep o) (Flow.review id incident plan settings) :=
  .bind (select_quiet _) fun _ => .bind (look_quiet _) fun _ => .pure _

theorem submit_quiet {sha256 : String → String} {id : ℕ} {incident : Incident} {plan : RemediationPlan}
    {by' actor : Actor} {settings : Settings} {finish : (Input → Tx (ℕ × State)) → Handler (ℕ × State)}
    (h : ∀ body, (∀ i, Tx.Quiet (body i)) → Keeps (QuietStep o) (finish body)) :
    Keeps (QuietStep o) (Flow.submit sha256 id incident plan by' actor settings finish) :=
  .bind review_quiet fun _ => .bind (select_quiet _) fun _ => .bind clock_quiet fun _ => h _ fun _ => submitted_quiet

theorem plan_quiet {sha256 : String → String} : Keeps (QuietStep o) (Handlers.plan sha256 ctx) := by
  unfold Handlers.plan
  split
  · exact .throw _
  · refine .bind (select_quiet _) fun incident => ?_
    split
    · exact .throw _
    · split_ifs
      · exact .pure _
      · refine .bind (select_quiet _) fun dx => .bind ?_ fun proposal => .bind fence_quiet fun _ =>
          .bind (select_quiet _) fun incident => ?_
        · unfold Handlers.propose
          split
          · exact .pure _
          · exact look_quiet _
        · split
          · exact .pure _
          · split_ifs
            · exact .pure _
            · split
              · exact fenced_quiet (fun _ _ _ => rfl) fun i => .bind (.transition (by simp)) fun _ => .pure _
              · exact .bind (submit_quiet fun body hb => fenced_quiet (fun _ _ _ => rfl) hb) fun _ => .pure _

theorem approvalTimeout_quiet : Keeps (QuietStep o) (Handlers.approvalTimeout ctx) := by
  unfold Handlers.approvalTimeout
  split
  · exact .throw _
  · refine .bind fence_quiet fun _ => .bind (select_quiet _) fun incident => ?_
    split
    · exact .pure _
    · split_ifs
      · exact .pure _
      · refine .bind (select_quiet _) fun current => ?_
        split
        · exact .pure _
        · split_ifs
          · exact .pure _
          · refine .bind (select_quiet _) fun decided => ?_
            split_ifs
            · exact .pure _
            · exact fenced_quiet (fun _ _ _ => rfl) fun i => .bind (.transition (by simp)) fun _ => .pure _

/-! The executor. -/

theorem escalate_quiet {id : ℕ} {actor : Actor} {reason : String} {plan : Bool} :
    Keeps (QuietStep o) (Executor.escalate ctx id actor reason plan) := by
  unfold Executor.escalate
  refine .bind fence_quiet fun _ => .bind (select_quiet _) fun current => ?_
  split
  · exact .pure _
  · split_ifs
    · exact .pure _
    · exact .bind (select_quiet _) fun _ => fenced_quiet (fun _ _ _ => rfl) fun i => .bind
        (.transition (by simp)) fun _ => .pure _
    · exact .bind (.pure _) fun _ => fenced_quiet (fun _ _ _ => rfl) fun i => .bind
        (.transition (by simp)) fun _ => .pure _

theorem prepare_quiet {ns : String} {action : Action} {note : String} :
    Keeps (QuietStep o) (Executor.prepare ns action note) := by
  have hprepare : Keeps (QuietStep o) (K8s.prepare ns action note) := by
    unfold K8s.prepare
    refine .bind (look_quiet _) fun read => .bind (ret_quiet _) fun _ => ?_
    split
    · exact .bind (look_quiet _) fun _ => .bind (ret_quiet _) fun _ => .pure _
    · exact .bind clock_quiet fun _ => .bind (ret_quiet _) fun _ => .pure _
  unfold Executor.prepare
  refine .bind hprepare fun p => ?_
  split_ifs
  · exact .pure _
  · exact .bind (look_quiet _) fun _ => .pure _

theorem patch_quiet {ch : Checked} {id index : ℕ} {action : Action} {p : Prepared} :
    Keeps (QuietStep (some ch)) (Executor.patch ctx ch id index action p) := by
  have hsent {s : Sent} (hs : s.checked = ch) (hist : Hist) (c : Core) (h : hist.sent = c.hist.sent ++ [s]) :
      QuietStep (some ch) c { c with hist } := ⟨.refl c.db, fun x hx => by
    rw [h, List.mem_append, List.mem_singleton] at hx
    exact hx.imp_right fun he => by rw [he, hs]⟩
  refine .lift fun i c => ?_
  dsimp only
  split
  · exact hsent (by rfl) _ c rfl
  · split_ifs <;> first
      | exact hsent (by rfl) _ c rfl
      | exact ⟨.refl c.db, fun _ hs => Or.inl hs⟩

theorem apply_quiet {ch : Checked} {id index : ℕ} {action : Action} {p : Prepared} :
    Keeps (QuietStep (some ch)) (Executor.apply ctx ch id index action p) := by
  unfold Executor.apply
  split_ifs
  · exact .pure _
  · exact .bind patch_quiet fun _ => .bind (ret_quiet _) fun _ => .bind (look_quiet _) fun _ => .pure _

theorem record_quiet {ch : Checked} {id index : ℕ} {action : Action} {status : ExecStatus} {dryRun before : Json}
    {error : Option String} : Keeps (QuietStep o) (Executor.record ctx ch id index action status dryRun before error) :=
  fenced_quiet (fun _ _ _ => by dsimp only; split_ifs <;> rfl) fun _ => .insertExecution

theorem finish_quiet {planId index : ℕ} {status : ExecStatus} {after : Json} {error : Option String} :
    Keeps (QuietStep o) (Executor.finish ctx planId index status after error) :=
  fenced_quiet (fun _ _ _ => by dsimp only; split_ifs <;> rfl) fun _ => .updateExecution

theorem runAction_quiet {ch : Checked} {id index : ℕ} {action : Action} {note : String} :
    Keeps (QuietStep (some ch)) (Executor.runAction ctx ch id index action note) := by
  unfold Executor.runAction
  refine .bind (select_quiet _) fun status => ?_
  split
  · exact .pure _
  · split_ifs
    · exact .bind (fenced_quiet (fun _ _ _ => rfl) fun i => .updateExecution) fun _ =>
        .bind escalate_quiet fun _ => .pure _
    · exact .bind escalate_quiet fun _ => .pure _
  · refine .bind (.attempt prepare_quiet) fun prepared => ?_
    split
    · exact .bind record_quiet fun _ => .bind escalate_quiet fun _ => .pure _
    · exact .throw _
    · refine .bind record_quiet fun _ => .bind (fenced_quiet (fun _ _ _ => rfl) fun i => .append rfl) fun _ =>
        .bind (.attempt apply_quiet) fun applied => ?_
      split
      · exact .bind finish_quiet fun _ => .bind escalate_quiet fun _ => .pure _
      · exact .throw _
      · exact .bind finish_quiet fun _ => .bind (fenced_quiet (fun _ _ _ => rfl) fun i => .append rfl) fun _ => .pure _

theorem runActions_quiet {ch : Checked} {id : ℕ} {note : String} (actions : List (Action × ℕ)) :
    Keeps (QuietStep (some ch)) (Executor.runActions ctx ch id note actions) := by
  induction actions with
  | nil => exact .pure _
  | cons a rest ih =>
    obtain ⟨action, index⟩ := a
    unfold Executor.runActions
    refine .bind runAction_quiet fun go => ?_
    split_ifs
    · exact ih
    · exact .pure _

theorem executed_quiet {ch : Checked} {id : ℕ} : Keeps (QuietStep o) (Executor.executed ctx ch id) := by
  unfold Executor.executed
  refine .bind fence_quiet fun _ => .bind (select_quiet _) fun current => ?_
  split
  · exact .pure _
  · split_ifs
    · exact .pure _
    · exact fenced_quiet (fun _ _ _ => rfl) fun i => .bind (.transition (by simp)) fun _ =>
        .bind .enqueue fun _ => .pure _

/-- What was checked is of the settings of the process, at a time that it read. -/
def Fresh (settings : Settings) (M : List Input) (ch : Checked) : Prop :=
  ch.settings = settings ∧ ∃ i ∈ M, ch.context.now = i.now

theorem Fresh.later {settings : Settings} {M N : List Input} {ch : Checked} (h : Fresh settings M ch) (hN : M <+: N) :
    Fresh settings N ch := by
  obtain ⟨hs, i, hi, hnow⟩ := h
  exact ⟨hs, i, hN.subset hi, hnow⟩

/-- A PATCH that the attempt sends after the inputs `M` is on a check of its own. -/
def SendsFresh (settings : Settings) (M : List Input) (c c' : Core) : Prop :=
  Quiet c.db c'.db ∧ ∀ s ∈ c'.hist.sent, s ∈ c.hist.sent ∨ Fresh settings M s.checked

theorem SendsFresh.of_quiet {settings : Settings} {M : List Input} {c c' : Core} (h : QuietStep none c c') :
    SendsFresh settings M c c' := ⟨h.1, fun s hs => (h.2 s hs).imp_right nofun⟩

theorem stays_quiet {settings : Settings} {M : List Input} {x : Handler α} (h : Keeps (QuietStep none) x) :
    Stays (SendsFresh settings) (fun _ _ => True) M x := .of_keeps (fun _ _ _ _ hq => .of_quiet hq) h

theorem review_stays {settings : Settings} {M : List Input} {id : ℕ} {incident : Incident} {plan : RemediationPlan} :
    Stays (SendsFresh settings) (fun N x => ∃ i ∈ N, x.1.now = i.now) M (Flow.review id incident plan settings) := by
  unfold Flow.review
  refine .bind (stays_quiet (select_quiet _)) fun N dx _ _ => .bind (Q := fun N x => ∃ i ∈ N, x.now = i.now)
    (.lift (fun i c => ?_) fun i c x hx => ?_) fun N x _ hx => .pure hx
  · dsimp only
    split <;> exact .of_quiet (.refl c)
  · dsimp only at hx
    split at hx
    · cases hx
    · cases hx
      exact ⟨i, List.mem_append_right _ (List.mem_singleton_self i), rfl⟩

theorem refusal_stays {M : List Input} {id since : ℕ} {incident : Incident} {plan : Option (ℕ × PlanRow)} :
    Stays (SendsFresh ctx.settings) (fun N r => ∀ ch, r = .ok ch → Fresh ctx.settings N ch) M
      (Executor.refusal ctx id incident since plan) := by
  have hrefused {N : List Input} (why : String) : Stays (ε := Err) (SendsFresh ctx.settings)
      (fun N r => ∀ ch, r = .ok ch → Fresh ctx.settings N ch) N (Pure.pure (.error why : Except String Checked)) :=
    .pure fun _ h => by cases h
  rcases plan with _ | ⟨planId, plan⟩
  · exact hrefused _
  · unfold Executor.refusal
    dsimp only
    split_ifs
    · exact hrefused _
    · exact hrefused _
    · refine .bind review_stays fun N x _ hx => ?_
      split_ifs
      · exact hrefused _
      · refine .bind (stays_quiet (select_quiet _)) fun N' approval hN _ => ?_
        split
        · exact hrefused _
        · refine .pure fun ch hch => ?_
          cases hch
          exact Fresh.later ⟨rfl, hx⟩ hN
      · refine .pure fun ch hch => ?_
        cases hch
        exact ⟨rfl, hx⟩

/-- The executor sends only what it has checked itself. -/
theorem execute_stays {M : List Input} :
    Stays (SendsFresh ctx.settings) (fun _ _ => True) M (Executor.execute ctx) := by
  unfold Executor.execute
  split
  · exact .throw _
  · refine .bind (stays_quiet (look_quiet _)) fun _ read _ _ => ?_
    dsimp only
    split
    · exact .throw _
    · split_ifs
      · exact .pure True.intro
      · refine .bind (stays_quiet (select_quiet _)) fun _ plan _ _ => .bind refusal_stays fun N checked _ hch => ?_
        split
        · exact stays_quiet escalate_quiet
        · rename_i ch
          have hfresh : Fresh ctx.settings N ch := hch ch rfl
          refine .bind (.of_keeps (fun N' s t hN hq => ⟨hq.1, fun x hx => (hq.2 x hx).imp_right fun he => ?he⟩)
            (runActions_quiet _)) fun _ go _ _ => ?_
          · split_ifs
            · exact stays_quiet executed_quiet
            · exact .pure True.intro
          · rw [← Option.some.inj he]
            exact hfresh.later hN

theorem execute_quiet : Keeps (fun c c' => Quiet c.db c'.db) (Executor.execute ctx) :=
  (execute_stays (M := [])).keeps fun _ _ _ h => h.1

/-! The API. -/

theorem incident_quiet {id : ℕ} {tenant : String} : Keeps (QuietStep o) (Api.incident id tenant) := by
  unfold Api.incident
  refine .bind (select_quiet _) fun incident => ?_
  split
  · exact .throw _
  · split_ifs
    · exact .pure _
    · exact .throw _

theorem decided_quiet {now : Time} {settings : Settings} {id planId : ℕ} {incident : Incident} {plan : PlanRow}
    {b : Flow.Ballot} : Tx.Quiet (Flow.decided now settings id incident planId plan b) := by
  obtain ⟨approver, decision, hashSeen, comment⟩ := b
  unfold Flow.decided
  refine .bind .insertApproval fun inserted => ?_
  cases decision with
  | approve =>
    have hrest : Tx.Quiet (Flow.enqueue now id incident .execute planId settings 0 >>= fun _ => pure State.executing) :=
      .bind .enqueue fun _ => .pure _
    split_ifs
    · exact .bind (.raise _) fun _ => .bind (.append rfl) fun _ => .bind (.transition (by simp)) fun _ => hrest
    · exact .bind (.append rfl) fun _ => .bind (.transition (by simp)) fun _ => hrest
  | reject =>
    split_ifs
    · exact .bind (.raise _) fun _ => .bind (.append rfl) fun _ => .bind (.transition (by simp)) fun _ => .pure _
    · exact .bind (.append rfl) fun _ => .bind (.transition (by simp)) fun _ => .pure _

theorem ingest_quiet {now : Time} {actor : Actor} {settings : Settings} (alerts : List Opening) :
    Tx.Quiet (Api.ingest now actor settings alerts) := by
  induction alerts with
  | nil => exact .pure _
  | cons o rest ih =>
    unfold Api.ingest
    refine .bind .openOrMerge fun x => ?_
    dsimp only
    split_ifs
    · exact .bind (.bind .enqueue fun _ => .append rfl) fun _ => .bind ih fun _ => .pure _
    · exact .bind ih fun _ => .pure _

theorem handle_quiet {sha256 : String → String} {n : ℕ} (r : Request) :
    Keeps (QuietStep o) (Api.handle sha256 n r) := by
  cases r with
  | decide tenant id subject decision hash comment settings =>
    refine .bind incident_quiet fun row => .bind (.attempt ?_) fun result => ?_
    · unfold Flow.decide
      split_ifs
      · exact .throw _
      · refine .bind (select_quiet _) fun current => ?_
        split
        · exact .throw _
        · dsimp only
          split
          · exact .throw_bind _ _
          · split
            · exact .throw_bind _ _
            · refine .bind clock_quiet fun now => ?_
              split
              · exact .throw_bind _ _
              · split
                · exact .throw_bind _ _
                · exact commit_quiet (fun _ _ _ => rfl) fun _ => decided_quiet
    · split
      · exact .pure _
      · exact .throw _
      · exact .throw _
  | revise tenant id subject plan settings =>
    unfold Api.handle Api.revise
    refine .bind incident_quiet fun row => ?_
    split_ifs
    · exact .throw _
    · refine .bind (.attempt (submit_quiet fun body hb => commit_quiet (fun _ _ _ => rfl) hb)) fun result => ?_
      split
      · exact .pure _
      · exact .throw _
  | webhook subject alerts settings =>
    exact .bind (commit_quiet (fun _ _ _ => rfl) fun _ => ingest_quiet _) fun _ => .pure _

/-! The worker around a handler. -/

theorem fail_quiet {e : Err} {retryable : Bool} : Keeps (QuietStep o) (Worker.fail ctx e retryable) := by
  unfold Worker.fail
  refine .bind (.attempt (commit_quiet (fun _ _ _ => rfl) fun i => .bind .fail fun status => ?_)) fun result => ?_
  · split_ifs
    · exact .append rfl
    · exact .pure _
  · split
    · exact .pure _
    · exact .pure _
    · exact .throw _

theorem release_quiet : Keeps (QuietStep o) (Worker.release ctx) :=
  .bind (.attempt (commit_quiet (fun _ _ _ => rfl) fun _ => .release)) fun _ => .pure _

end Programs

/-! The verify job. -/

/-- The outcome of the verifier, with the move of the incident. -/
def Decides (n : ℕ) (d e : Db) : Prop :=
  ∃ id i ok samples now, d.incidents.get? id = some i ∧ i.state = .verifying ∧ Justified n ok samples i.labels ∧
    e.verdicts = d.verdicts ++ [(id, ok, samples)] ∧
    e.incidents = d.incidents.modify id (Incidents.moved now (if ok then .resolved else .escalated))

theorem Decides.labels {n : ℕ} {d e : Db} (h : Decides n d e) : SameLabels d e := by
  obtain ⟨id, i, ok, samples, now, -, -, -, -, hinc⟩ := h
  intro j x hx
  refine ⟨if j = id then Incidents.moved now (if ok then .resolved else .escalated) x else x, ?_, ?_⟩
  · rw [hinc, Table.get?_modify, hx]
    split_ifs <;> rfl
  · split_ifs <;> rfl

def verifyContract (n : ℕ) (k : Caller) : Contract Core where
  inv c := Inv c ∧ Verified n c.db
  rely c c' := rely k c c' ∧ SameLabels c.db c'.db
  guar c c' := Quiet c.db c'.db ∨ Decides n c.db c'.db
  refl c := ⟨rely_refl k c, .refl c.db⟩
  trans _ _ _ h h' := ⟨rely_trans k _ _ _ h.1 h'.1, .trans _ _ _ h.2 h'.2⟩

abbrev Checks {α : Type} (n : ℕ) (k : Caller) (x : Handler α) (s : Core) : Prop :=
  Does (verifyContract n k) (fun _ _ => True) (fun _ _ => True) x s

namespace Checks

variable {α β : Type} {n : ℕ} {k : Caller} {s : Core} {ctx : JobContext}

theorem quiet {x : Handler α} (h : Keeps (fun c c' => Quiet c.db c'.db) x) (s : Core) : Checks n k x s :=
  Keeps.does (C := verifyContract n k) (Always.mono (fun _ _ hq => Or.inl hq) h) s

theorem silent {x : Handler α} (h : Keeps (QuietStep none) x) (s : Core) : Checks n k x s :=
  .quiet (Always.mono (fun _ _ hq => hq.1) h) s

theorem bind_quiet {x : Handler α} {g : α → Handler β} (h : Checks n k x s) (hg : ∀ a, Keeps (QuietStep none) (g a)) :
    Checks n k (x >>= g) s :=
  Does.bind (Does.mono (fun a t _ => silent (hg a) t) (fun _ _ h => h) h)

theorem attempt {x : Handler α} (h : Checks n k x s) : Checks n k (Threads.attempt x) s :=
  Does.mono (Q := fun r t => Ends (fun _ _ => True) (fun _ _ => True) r t) (fun _ _ _ => trivial) (fun _ _ h => h)
    (Does.attempt h)

theorem look {f : Input → Core → Except Err α} {g : α → Handler β}
    (h : ∀ i a t, SameLabels s.db t.db → f i t = .ok a → Checks n k (g a) t) : Checks n k (look f >>= g) s := by
  refine Does.bind (Does.lift fun t ht hi i => ?_)
  rcases i.fault with _ | x
  · refine ⟨Or.inl (.refl t.db), fun u hu hiu => ?_⟩
    rcases hf : f i t with e | a
    · trivial
    · exact (h i a t ht.2 hf).later hu
  · exact ⟨Or.inl (.refl t.db), fun u hu hiu => trivial⟩

theorem select {f : Db → α} {g : α → Handler β} (h : ∀ t : Core, SameLabels s.db t.db → Checks n k (g (f t.db)) t) :
    Checks n k (select f >>= g) s :=
  look fun _ _ t ht ha => by
    cases ha
    exact h t ht

theorem commit {body : Input → Tx α} {note : Input → α → Core → Hist}
    (h : ∀ (i : Input) (a : α) (d : Db) (t : Core), SameLabels s.db t.db → (body i).run t.db = .ok (a, d) →
      Quiet t.db d ∨ Decides n t.db d) :
    Checks n k (commit body note) s := by
  refine Does.lift fun t ht hi i => ?_
  have hend : ∀ (r : Except Err α) (u : Core), Ends (fun _ _ => True) (fun _ _ => True) r u := fun r u => by
    cases r <;> trivial
  refine ⟨?_, fun u _ _ => hend _ u⟩
  rcases hrun : (body i).run t.db with e | ⟨a, d⟩
  · exact Or.inl (.refl t.db)
  · have hstep := h i a d t ht.2 hrun
    dsimp only
    split
    · exact hstep
    · split_ifs
      · exact hstep
      · exact Or.inl (.refl t.db)

end Checks

section Verify

variable {n : ℕ} {k : Caller} {s : Core} {ctx : JobContext} {id : ℕ} {labels : List (String × String)}
  {plan : Option (ℕ × PlanRow)}

/-- The incident of the job has the labels that the job read. -/
def Labelled (id : ℕ) (labels : List (String × String)) (d : Db) : Prop :=
  ∃ i, d.incidents.get? id = some i ∧ i.labels = labels

theorem Labelled.later {d e : Db} (h : Labelled id labels d) (hl : SameLabels d e) : Labelled id labels e := by
  obtain ⟨i, hi, rfl⟩ := h
  exact hl id i hi

theorem verified_checks {ok : Bool} {reason : String} {samples : List Sample}
    (hj : Justified n ok (samples.drop (samples.length - 20)) labels) (hl : Labelled id labels s.db) :
    Checks n k (Handlers.verified ctx id ok reason samples plan) s := by
  unfold Handlers.verified
  refine .look fun _ _ t ht _ => .select fun u hu => ?_
  have hl := (hl.later ht).later hu
  split
  · exact .quiet (.pure _) u
  · split
    · exact .quiet (.pure _) u
    · refine .commit fun i a d w hw hrun => ?_
      obtain ⟨_, m, hf, hbody⟩ := Tx.bind_ok.mp hrun
      obtain ⟨-, rfl⟩ := Tx.assertFence_ok hf
      obtain ⟨x, d1, h1, h2⟩ := Tx.bind_ok.mp hbody
      obtain rfl := Tx.append_ok.mp h1
      obtain ⟨v, d2, h3, h4⟩ := Tx.bind_ok.mp h2
      obtain ⟨-, rfl⟩ := Tx.pure_ok.mp h4
      obtain ⟨-, j, hget, hstate, -, -, rfl⟩ := Tx.transition_ok h3
      obtain ⟨j', hget', hlabels⟩ := hl.later hw
      obtain rfl : j = j' := Option.some.inj (hget.symm.trans hget')
      refine Or.inr ⟨id, j, ok, samples.drop (samples.length - 20), i.now, hget, hstate, hlabels ▸ hj, ?_, rfl⟩
      rw [List.append_assoc]
      exact verdicts_append w.db _

/-- The last readings, as many as the streak counts, were healthy. -/
def Streak (check : Handlers.SliCheck) (streak : ℕ) (samples : List Sample) : Prop :=
  streak ≤ samples.length ∧
    ∀ x ∈ samples.drop (samples.length - streak), x.value.any (Sli.below check.healthyBelow) = true

theorem Streak.snoc {check : Handlers.SliCheck} {streak : ℕ} {samples : List Sample} (h : Streak check streak samples)
    (x : Sample) : Streak check (if x.value.any (Sli.below check.healthyBelow) then streak + 1 else 0)
    (samples ++ [x]) := by
  obtain ⟨hlen, hall⟩ := h
  split_ifs with hx
  · refine ⟨by simpa using hlen, fun y hy => ?_⟩
    rw [List.length_append, List.length_singleton,
      show samples.length + 1 - (streak + 1) = samples.length - streak by omega,
      List.drop_append_of_le_length (by omega), List.mem_append, List.mem_singleton] at hy
    rcases hy with hy | rfl
    · exact hall y hy
    · exact hx
  · exact ⟨Nat.zero_le _, fun y hy => by simp at hy⟩

theorem Streak.healthy {check : Handlers.SliCheck} {streak : ℕ} {samples : List Sample}
    (h : Streak check streak samples) (hn : n ≤ streak) : Healthy n check (samples.drop (samples.length - 20)) := by
  obtain ⟨hlen, hall⟩ := h
  refine ⟨by rw [List.length_drop]; omega, fun x hx => hall x ?_⟩
  rw [List.drop_drop, List.length_drop] at hx
  refine List.drop_subset_drop_left samples ?_ hx
  omega

theorem watch_checks {check : Handlers.SliCheck} {service : String} {deadline : Time} {rounds : ℕ}
    {samples : List Sample} {streak : ℕ} (hn : n ≤ ctx.settings.verifyHealthyChecks)
    (hc : Handlers.checkFor labels = some check) (hs : Streak check streak samples) (hl : Labelled id labels s.db) :
    Checks n k (Handlers.watch ctx id service check deadline plan rounds samples streak) s := by
  induction rounds generalizing samples streak s with
  | zero => exact .quiet (.throw _) s
  | succ rounds ih =>
    unfold Handlers.watch
    refine .look fun i x t ht _ => ?_
    obtain ⟨value, note, now⟩ := x
    have hl := hl.later ht
    have hs := hs.snoc ⟨now, value, note⟩
    dsimp only
    dsimp only at hs
    generalize (if Option.any (Sli.below check.healthyBelow) value = true then streak + 1 else 0) = streak at hs ⊢
    split_ifs with hdone
    · exact verified_checks (fun _ => ⟨check, hc, hs.healthy (hn.trans hdone)⟩) hl
    · refine .look fun j now u hu _ => ?_
      split_ifs
      · exact verified_checks (fun h => by cases h) (hl.later hu)
      · exact ih hs (hl.later hu)

theorem verify_checks {prometheus : Bool} (hn : n ≤ ctx.settings.verifyHealthyChecks) :
    Checks n k (Handlers.verify ctx prometheus) s := by
  unfold Handlers.verify
  split
  · exact .quiet (.throw _) s
  · refine .select fun t _ => ?_
    split
    · exact .quiet (.pure _) t
    · rename_i incident hinc
      have hl : Labelled _ incident.labels t.db := ⟨incident, hinc, rfl⟩
      split
      · exact .quiet (.pure _) t
      · refine .select fun u hu => ?_
        have hl := hl.later hu
        split
        · exact verified_checks (fun h => by cases h) hl
        · rename_i check hcheck
          split_ifs
          · refine .look fun i rounds w hw _ => ?_
            exact watch_checks hn hcheck ⟨Nat.le_refl 0, fun x hx => by simp at hx⟩ (hl.later hw)
          · exact verified_checks (fun h => by cases h) hl

end Verify

/-! The layer. -/

theorem execute_checks {n : ℕ} {k : Caller} {s : Core} {ctx : JobContext} {handler : Option (JobContext → Handler Unit)}
    (h : ∀ f, handler = some f → Checks n k (f ctx) s) : Checks n k (Worker.execute ctx handler) s := by
  unfold Worker.execute
  refine .bind_quiet (.attempt ?_) fun r => ?_
  · rcases handler with _ | f
    · exact .quiet (.throw_bind _ _) s
    · exact .bind_quiet (h f rfl) fun _ => commit_quiet (fun _ _ _ => rfl) fun i => .complete
  · split
    · exact .pure _
    · exact .pure _
    · exact .pure _
    · exact .bind release_quiet fun _ => .throw _
    · exact fail_quiet
    · exact fail_quiet

theorem attempt_checks {n : ℕ} {sha256 : String → String} {p : Process} {job : Job} {c : Core}
    (hn : n ≤ p.settings.verifyHealthyChecks) (k : Caller) :
    Meets (verifyContract n k) (fun _ _ => True) (attemptProgram sha256 p job) c := by
  have hexec : Checks n k (Worker.execute ⟨job, p.settings, p.workerId⟩ (p.handler sha256 job.kind)) c := by
    refine execute_checks fun f hf => ?_
    unfold Process.handler at hf
    split_ifs at hf
    · cases hkind : job.kind <;> rw [hkind] at hf <;> cases hf
      exact .quiet execute_quiet c
    · cases hkind : job.kind <;> rw [hkind] at hf <;> cases hf
      · exact .silent triage_quiet c
      · exact .silent investigate_quiet c
      · exact .silent plan_quiet c
      · exact .silent approvalTimeout_quiet c
      · exact verify_checks hn
  have hdone : Checks n k (do
      Worker.execute ⟨job, p.settings, p.workerId⟩ (p.handler sha256 job.kind)
      return Response.settled) c := hexec.bind_quiet fun _ => .pure _
  exact Meets.mono (fun _ _ _ => trivial) hdone

theorem Verified.quiet {n : ℕ} {d e : Db} (h : Verified n d) (hq : Quiet d e) (hd : d.Later e) : Verified n e where
  outcome id ok samples hm := by
    rw [hq.verdicts] at hm
    obtain ⟨i, hi, hs, hj⟩ := h.outcome id ok samples hm
    obtain ⟨j, hj', hl⟩ := hq.labels id i hi
    obtain ⟨j'', hj'', hij⟩ := hd.incidents id i hi
    obtain rfl : j = j'' := Option.some.inj (hj'.symm.trans hj'')
    refine ⟨j, hj', ?_, hl ▸ hj⟩
    rw [hij.closed (by rw [hs]; cases ok <;> rfl), hs]
  once := by
    rw [hq.verdicts]
    exact h.once
  resolved id j hj hs := by
    obtain ⟨i, hi, his⟩ := hq.resolved id j hj hs
    rw [hq.verdicts]
    exact h.resolved id i hi his

theorem Verified.decides {n : ℕ} {d e : Db} (h : Verified n d) (hd : Decides n d e) : Verified n e := by
  obtain ⟨id, i, ok, samples, now, hi, hst, hj, hv, hinc⟩ := hd
  have hnew : ∀ ok' samples', (id, ok', samples') ∉ d.verdicts := fun ok' samples' hm => by
    obtain ⟨j, hj, hs, -⟩ := h.outcome id ok' samples' hm
    obtain rfl : i = j := Option.some.inj (hi.symm.trans hj)
    rw [hst] at hs
    cases ok' <;> cases hs
  have hother : ∀ j, j ≠ id → e.incidents.get? j = d.incidents.get? j := fun j hj => by
    rw [hinc, Table.get?_modify_ne _ _ hj]
  have hself : e.incidents.get? id = some (Incidents.moved now (if ok then .resolved else .escalated) i) := by
    rw [hinc, Table.get?_modify_self, hi]
    rfl
  refine ⟨fun j ok' samples' hm => ?_, ?_, fun j x hx hs => ?_⟩
  · rw [hv, List.mem_append, List.mem_singleton] at hm
    rcases hm with hm | hm
    · have hne : j ≠ id := fun he => hnew ok' samples' (he ▸ hm)
      rw [hother j hne]
      exact h.outcome j ok' samples' hm
    · obtain ⟨rfl, rfl, rfl⟩ := by simpa using hm
      exact ⟨_, hself, rfl, hj⟩
  · rw [hv, List.map_append, List.nodup_append]
    refine ⟨h.once, List.nodup_singleton _, fun a ha b hb hab => ?_⟩
    obtain ⟨⟨j, ok', samples'⟩, hm, rfl⟩ := List.mem_map.mp ha
    rw [List.map_singleton, List.mem_singleton] at hb
    obtain rfl : j = id := hab.trans hb
    exact hnew ok' samples' hm
  · rw [hv]
    by_cases hne : j = id
    · subst hne
      obtain rfl := Option.some.inj (hself.symm.trans hx)
      cases ok with
      | true => exact ⟨samples, List.mem_append_right _ (List.mem_singleton_self _)⟩
      | false => cases hs
    · rw [hother j hne] at hx
      obtain ⟨samples', hm⟩ := h.resolved j x hx hs
      exact ⟨samples', List.mem_append_left _ hm⟩

theorem happen_quiet {sha256 : String → String} {c c' : Core} {e : Happening} {started : Option (Caller × Program)}
    (h : happen sha256 c e = some (c', started)) : Quiet c.db c'.db := by
  cases e with
  | reap workerId now locked =>
    simp only [happen, Option.some.injEq, Prod.mk.injEq] at h
    obtain ⟨rfl, -⟩ := h
    refine .of_eq rfl ((verdicts_append c.db _).trans ?_)
    rw [List.filterMap_eq_nil_iff.mpr, List.append_nil]
    intro x hx
    obtain ⟨j, -, rfl⟩ := List.mem_map.mp hx
    rfl
  | _ =>
    simp only [happen, Option.some.injEq, Prod.mk.injEq] at h
    obtain ⟨rfl, -⟩ := h
    exact .of_eq rfl rfl

def verification (sha256 : String → String) (n : ℕ) : Layer (protocol sha256) where
  allowed e := ∀ p now maxPriority locked, e = .claim p now maxPriority locked → n ≤ p.settings.verifyHealthyChecks
  inv c := Verified n c.db
  rely c c' := SameLabels c.db c'.db
  guar _ c c' := Quiet c.db c'.db ∨ Decides n c.db c'.db
  refl c := .refl c.db
  trans _ _ _ := .trans _ _ _
  init := ⟨fun _ _ _ h => (by cases h), List.nodup_nil, fun id i h => by simp [system] at h⟩
  keeps k c c' hinv hv hg hstep := by
    rcases hstep with hq | hd
    · exact ⟨hv.quiet hq hg.evolves.db, hq.labels⟩
    · exact ⟨hv.decides hd, hd.labels⟩
  env_keeps e c c' started hok hinv hv he := by
    have hq := happen_quiet he
    exact ⟨hv.quiet hq (happen_keeps hinv he (.request 0)).2.1.db, hq.labels⟩
  starts e c c' k p hok he := by
    cases e with
    | claim q now maxPriority locked =>
      simp only [system, happen, Option.some.injEq, Prod.mk.injEq, Option.map_eq_some_iff] at he
      obtain ⟨-, job, -, -, rfl⟩ := he
      exact attempt_checks (hok q now maxPriority locked rfl) k
    | request m r =>
      simp only [system, happen, Option.some.injEq, Prod.mk.injEq] at he
      obtain ⟨-, -, rfl⟩ := he
      exact Meets.mono (fun _ _ _ => trivial) (Checks.silent (n := n) (k := k) (handle_quiet r) c')
    | heartbeat | reap | cluster | evidence | diagnosis =>
      simp only [system, happen, Option.some.injEq, Prod.mk.injEq, reduceCtorEq, and_false] at he

/-- An incident is RESOLVED exactly if the verifier has passed it, on readings of which the last ones were all healthy;
it decides on an incident once, and one that it has failed is ESCALATED. -/
theorem resolved_verified {sha256 : String → String} {n : ℕ} {steps : List Step} {c : World}
    (h : Reaches sha256 steps c) (hn : ∀ p now maxPriority locked, .env (.claim p now maxPriority locked) ∈ steps →
      n ≤ p.settings.verifyHealthyChecks) :
    Verified n c.shared.db := by
  refine (Layer.good_of_run (L := verification sha256 n) h fun ch hch => ?_).inv
  cases ch with
  | env e => exact fun p now maxPriority locked he => hn p now maxPriority locked (he ▸ hch)
  | act | kill => trivial

/-- The restart is executed, and the service answers well three times in a row. -/
def Sample.repaired : List Step :=
  restarting 18 ++ [claim (worker (settings .R2)) 100] ++
    acts (.job ⟨4, 1⟩) (plain 2 100 ++ [{ now := 100, rounds := 5 }] ++
      List.replicate 5 { now := 100, sli := .ok (some (.num 0)) } ++ plain 4 100)

theorem Sample.repaired_runs : (Runs.run (system id).step (system id).start repaired).isSome := by decide +kernel

def Sample.checks (n : ℕ) : Step → Bool
  | .env (.claim p ..) => n ≤ p.settings.verifyHealthyChecks
  | _ => true

theorem resolved_verified_restart :
    ((Sample.worldOf _ Sample.repaired_runs).shared.db.incidents.get? 0).map Incident.state = some .resolved ∧
      Verified 3 (Sample.worldOf _ Sample.repaired_runs).shared.db := by
  have hall : ∀ ch ∈ Sample.repaired, Sample.checks 3 ch = true := by decide +kernel
  refine ⟨by decide +kernel,
    resolved_verified (Sample.reaches Sample.repaired_runs) fun p now maxPriority locked hp => ?_⟩
  exact of_decide_eq_true (hall _ hp)

end Blackboard
