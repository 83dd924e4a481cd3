import Blackboard.Lib.Layer
import Blackboard.Proofs.Protocol
import Blackboard.Spec.Http

/-! Whose every row is: what is written for an incident carries its tenant, a decision was made and a plan proposed by
somebody who may. A transaction that serves a tenant leaves the rows of all others as they are. -/

namespace Blackboard

open Threads

/-- The decisions and the plans that may be written. -/
structure Authority where
  approves : Approval → Prop
  proposes : PlanRow → Prop

def Belongs (d : Db) (id : ℕ) (t : String) : Prop := ∃ i, d.incidents.get? id = some i ∧ i.tenantId = t

structure Owned (A : Authority) (d : Db) : Prop where
  jobs : ∀ n r id, d.jobs.get? n = some r → r.incidentId = some id → Belongs d id r.tenantId
  plans : ∀ n p, d.plans.get? n = some p → Belongs d p.incidentId p.tenantId ∧ A.proposes p
  approvals : ∀ n a, d.approvals.get? n = some a → Belongs d a.incidentId a.tenantId ∧
    A.approves a ∧ ∃ p, d.plans.get? a.planId = some p ∧ p.incidentId = a.incidentId
  executions : ∀ n e, d.executions.get? n = some e → Belongs d e.incidentId e.tenantId ∧
    ∃ p, d.plans.get? e.planId = some p ∧ p.incidentId = e.incidentId
  audit : ∀ x ∈ d.audit, ∀ id, x.subject = .incident id → ∃ t, x.tenantId = some t ∧ Belongs d id t

theorem Belongs.unique {d : Db} {id : ℕ} {t u : String} (h : Belongs d id t) (h' : Belongs d id u) : t = u := by
  obtain ⟨i, hi, rfl⟩ := h
  obtain ⟨j, hj, rfl⟩ := h'
  rw [Option.some.inj (hi.symm.trans hj)]

/-- Incidents stay with their tenants, jobs with what they were enqueued with, and plans as they are. -/
structure Steady (d e : Db) : Prop where
  incidents : ∀ id t, Belongs d id t → Belongs e id t
  jobs : Table.Keeps SameJob d.jobs e.jobs
  plans : Table.Keeps Eq d.plans e.plans

theorem Steady.refl (d : Db) : Steady d d := ⟨fun _ _ h => h, .refl .refl _, .refl (fun _ => rfl) _⟩

theorem Steady.trans (d e f : Db) (h : Steady d e) (h' : Steady e f) : Steady d f where
  incidents id t hb := h'.incidents id t (h.incidents id t hb)
  jobs := .trans (fun _ _ _ hab hbc => hab.trans hbc) h.jobs h'.jobs
  plans := .trans (fun _ _ _ hab hbc => hab.trans hbc) h.plans h'.plans

/-- The two databases hold the same rows of the tenant, at the same places. -/
structure Alike (t : String) (d e : Db) : Prop where
  incidents : (d.incidents.select fun _ i => i.tenantId = t) = e.incidents.select fun _ i => i.tenantId = t
  plans : (d.plans.select fun _ p => p.tenantId = t) = e.plans.select fun _ p => p.tenantId = t
  approvals : (d.approvals.select fun _ a => a.tenantId = t) = e.approvals.select fun _ a => a.tenantId = t
  executions : (d.executions.select fun _ x => x.tenantId = t) = e.executions.select fun _ x => x.tenantId = t
  audit : (d.audit.zipIdx.filter fun x => x.1.tenantId = some t) = e.audit.zipIdx.filter fun x => x.1.tenantId = some t

theorem Alike.refl (t : String) (d : Db) : Alike t d d := ⟨rfl, rfl, rfl, rfl, rfl⟩

theorem Alike.trans {t : String} {d e f : Db} (h : Alike t d e) (h' : Alike t e f) : Alike t d f :=
  ⟨h.1.trans h'.1, h.2.trans h'.2, h.3.trans h'.3, h.4.trans h'.4, h.5.trans h'.5⟩

/-- Rows of others are logged. -/
theorem audit_alike {t : String} (xs ys : List AuditEntry) (h : ∀ y ∈ ys, y.tenantId ≠ some t) :
    (xs.zipIdx.filter fun x => x.1.tenantId = some t) = (xs ++ ys).zipIdx.filter fun x => x.1.tenantId = some t := by
  have hnone : (ys.zipIdx (0 + xs.length)).filter (fun x => x.1.tenantId = some t) = [] := by
    refine List.filter_eq_nil_iff.mpr fun x hx => ?_
    simpa using h x.1 (List.fst_mem_of_mem_zipIdx hx)
  rw [List.zipIdx_append, List.filter_append, hnone, List.append_nil]

variable {A : Authority} {u : String}

/-- What a step of the tenant `u` does. -/
structure Serves (A : Authority) (u : String) (d e : Db) : Prop where
  steady : Steady d e
  owned : Owned A d → Owned A e
  others : ∀ t, t ≠ u → Alike t d e

theorem Serves.refl (d : Db) : Serves A u d d := ⟨.refl d, id, fun t _ => .refl t d⟩

theorem Serves.trans (d e f : Db) (h : Serves A u d e) (h' : Serves A u e f) : Serves A u d f :=
  ⟨.trans d e f h.steady h'.steady, fun ho => h'.owned (h.owned ho), fun t ht => (h.others t ht).trans (h'.others t ht)⟩

/-- Old rows with what they carried, and new ones that belong. -/
theorem Owned.later {d e : Db} (h : Owned A d) (hs : Steady d e)
    (hjobs : ∀ n s id, e.jobs.get? n = some s → s.incidentId = some id →
      (∃ r, d.jobs.get? n = some r ∧ r.incidentId = some id ∧ r.tenantId = s.tenantId) ∨ Belongs e id s.tenantId)
    (hplans : ∀ n q, e.plans.get? n = some q → d.plans.get? n = some q ∨
      Belongs e q.incidentId q.tenantId ∧ A.proposes q)
    (happrovals : ∀ n b, e.approvals.get? n = some b → d.approvals.get? n = some b ∨ Belongs e b.incidentId b.tenantId ∧
      A.approves b ∧ ∃ p, e.plans.get? b.planId = some p ∧ p.incidentId = b.incidentId)
    (hexecutions : ∀ n f, e.executions.get? n = some f →
      (∃ x, d.executions.get? n = some x ∧ x.incidentId = f.incidentId ∧ x.tenantId = f.tenantId ∧
        x.planId = f.planId) ∨
        Belongs e f.incidentId f.tenantId ∧ ∃ p, e.plans.get? f.planId = some p ∧ p.incidentId = f.incidentId)
    (haudit : ∀ x ∈ e.audit, x ∈ d.audit ∨ ∀ id, x.subject = .incident id → ∃ t, x.tenantId = some t ∧ Belongs e id t) :
    Owned A e where
  jobs n s id hn hid := by
    rcases hjobs n s id hn hid with ⟨r, hr, hrid, ht⟩ | hb
    · exact hs.incidents _ _ (ht ▸ h.jobs n r id hr hrid)
    · exact hb
  plans n q hn := by
    rcases hplans n q hn with hq | hq
    · exact ⟨hs.incidents _ _ (h.plans n q hq).1, (h.plans n q hq).2⟩
    · exact hq
  approvals n b hn := by
    rcases happrovals n b hn with hb | hb
    · obtain ⟨h1, h2, p, hp, hpi⟩ := h.approvals n b hb
      exact ⟨hs.incidents _ _ h1, h2, p, hs.plans.get hp, hpi⟩
    · exact hb
  executions n f hn := by
    rcases hexecutions n f hn with ⟨x, hx, hxi, hxt, hxp⟩ | hf
    · obtain ⟨h1, p, hp, hpi⟩ := h.executions n x hx
      rw [hxi] at h1 hpi
      rw [hxp] at hp
      exact ⟨hs.incidents _ _ (hxt ▸ h1), p, hs.plans.get hp, hpi⟩
    · exact hf
  audit x hx id hid := by
    rcases haudit x hx with hold | hnew
    · obtain ⟨t, ht, hb⟩ := h.audit x hold id hid
      exact ⟨t, ht, hs.incidents _ _ hb⟩
    · exact hnew id hid

/-- Incidents of the tenant are written, and audit rows. -/
theorem Serves.incidents {d : Db} {q : Table Incident} {l : List AuditEntry}
    (hkeep : ∀ id t, Belongs d id t → ∃ i, q.get? id = some i ∧ i.tenantId = t)
    (hothers : ∀ t, t ≠ u → (d.incidents.select fun _ i => i.tenantId = t) = q.select fun _ i => i.tenantId = t)
    (haudit : ∀ x ∈ l, x.tenantId = some u ∧
      ∀ id, x.subject = .incident id → ∃ i, q.get? id = some i ∧ i.tenantId = u) :
    Serves A u d { d with incidents := q, audit := d.audit ++ l } := by
  have hs : Steady d { d with incidents := q, audit := d.audit ++ l } := ⟨hkeep, .refl .refl _, .refl (fun _ => rfl) _⟩
  refine ⟨hs, fun ho => ho.later hs (fun n r id hr hid => .inl ⟨r, hr, hid, rfl⟩) (fun n p hp => .inl hp)
    (fun n a ha => .inl ha) (fun n f hf => .inl ⟨f, hf, rfl, rfl, rfl⟩) fun x hx => ?_, fun t ht => ?_⟩
  · rcases List.mem_append.mp hx with hx | hx
    · exact .inl hx
    · exact .inr fun id hid => ⟨u, (haudit x hx).1, (haudit x hx).2 id hid⟩
  · refine ⟨hothers t ht, rfl, rfl, rfl, audit_alike _ _ fun x hx he => ht ?_⟩
    exact Option.some.inj (he.symm.trans (haudit x hx).1)

/-- The rows of the queue, with what they were enqueued with. -/
def Rewritten (jobs jobs' : JobTable) : Prop :=
  ∃ f : ℕ → JobRow → JobRow, jobs' = jobs.update f ∧ ∀ i r, SameJob r (f i r)

theorem Rewritten.finish {now : Time} {job : Job} {f : JobRow → JobRow} {jobs jobs' : JobTable}
    (hf : ∀ r, SameJob r (f r)) (h : Jobs.finish now job f jobs = .ok jobs') : Rewritten jobs jobs' := by
  obtain ⟨-, hj⟩ := Jobs.finish_ok.mp h
  refine ⟨_, hj, fun i r => ?_⟩
  split_ifs
  · obtain ⟨h1, h2, h3, h4, h5, h6, h7, h8, h9⟩ := hf r
    exact ⟨h1, h2, h3, h4, h5, h6, h7, h8, h9⟩
  · exact .refl r

theorem Rewritten.modify {f : JobRow → JobRow} (hf : ∀ r, SameJob r (f r)) (jobs : JobTable) (id : ℕ) :
    Rewritten jobs (jobs.modify id f) := ⟨_, rfl, fun i r => by
  split_ifs
  · exact hf r
  · exact .refl r⟩

/-- What a step for nobody does. -/
structure Neutral (A : Authority) (d e : Db) : Prop where
  steady : Steady d e
  owned : Owned A d → Owned A e
  alike : ∀ t, Alike t d e

theorem Neutral.refl (d : Db) : Neutral A d d := ⟨.refl d, id, fun t => .refl t d⟩

theorem Neutral.trans {d e f : Db} (h : Neutral A d e) (h' : Neutral A e f) : Neutral A d f :=
  ⟨.trans d e f h.steady h'.steady, fun ho => h'.owned (h.owned ho), fun t => (h.alike t).trans (h'.alike t)⟩

theorem Neutral.serves {d e : Db} (h : Neutral A d e) (u : String) : Serves A u d e :=
  ⟨h.steady, h.owned, fun t _ => h.alike t⟩

theorem Neutral.rewritten {d : Db} {j : JobTable} (hj : Rewritten d.jobs j) : Neutral A d { d with jobs := j } := by
  obtain ⟨f, rfl, hf⟩ := hj
  have hs : Steady d { d with jobs := d.jobs.update f } :=
    ⟨fun _ _ h => h, .update fun i r _ => hf i r, .refl (fun _ => rfl) _⟩
  refine ⟨hs, fun ho => ho.later hs (fun n s id hn hid => ?_) (fun n p hp => .inl hp)
    (fun n a ha => .inl ha) (fun n x hx => .inl ⟨x, hx, rfl, rfl, rfl⟩) (fun x hx => .inl hx),
      fun t => ⟨rfl, rfl, rfl, rfl, rfl⟩⟩
  obtain ⟨r, hr, rfl⟩ := Option.map_eq_some_iff.mp (Table.get?_update _ _ _ ▸ hn)
  exact .inl ⟨r, hr, (hf n r).incidentId ▸ hid, (hf n r).tenantId.symm⟩

/-- Rows of the log that are nobody's. -/
theorem Neutral.log {d : Db} {xs : List AuditEntry} (h : ∀ x ∈ xs, x.tenantId = none ∧ ∀ id, x.subject ≠ .incident id) :
    Neutral A d { d with audit := d.audit ++ xs } := by
  refine ⟨⟨fun _ _ hb => hb, .refl .refl _, .refl (fun _ => rfl) _⟩,
    fun ho => ⟨ho.jobs, ho.plans, ho.approvals, ho.executions, fun x hx id hid => ?_⟩,
    fun t => ⟨rfl, rfl, rfl, rfl, audit_alike _ _ fun x hx he => ?_⟩⟩
  · rcases List.mem_append.mp hx with hx | hx
    · exact ho.audit x hx id hid
    · exact absurd hid ((h x hx).2 id)
  · rw [(h x hx).1] at he
    cases he

/-! What a program knows, and keeps knowing. -/

structure Known where
  holds : Db → Prop
  stays : ∀ d e, Steady d e → holds d → holds e

namespace Known

def nothing : Known := ⟨fun _ => True, fun _ _ _ h => h⟩

/-- Whose incident it is. -/
def incident (id : ℕ) (t : String) : Known := ⟨fun d => Belongs d id t, fun _ _ hs h => hs.incidents id t h⟩

/-- Whose incident it is, and that the plan is one of it. -/
def plan (id : ℕ) (t : String) (planId : ℕ) : Known where
  holds d := Belongs d id t ∧ ∃ p, d.plans.get? planId = some p ∧ p.incidentId = id
  stays d e hs h := by
    obtain ⟨hb, p, hp, hid⟩ := h
    exact ⟨hs.incidents id t hb, p, hs.plans.get hp, hid⟩

def when (K : Known) (p : Prop) : Known := ⟨fun d => p ∧ K.holds d, fun d e hs h => ⟨h.1, K.stays d e hs h.2⟩⟩

end Known

/-! Transactions. -/

namespace Tx

variable {α β : Type} {K : Known}

/-- Where `K` is known, every commit of the transaction is a step of the tenant. -/
def Tenanted (A : Authority) (u : String) (K : Known) (x : Tx α) : Prop :=
  ∀ d a e, x.run d = .ok (a, e) → K.holds d → Owned A d → Serves A u d e

namespace Tenanted

theorem pure (a : α) : Tenanted A u K (Pure.pure a : Tx α) := fun d b e h _ _ => by
  obtain ⟨-, rfl⟩ := Tx.pure_ok.mp h
  exact .refl d

theorem mono {x : Tx α} {L : Known} (h : Tenanted A u L x) (hK : ∀ d, K.holds d → L.holds d) : Tenanted A u K x :=
  fun d a e hx hk ho => h d a e hx (hK d hk) ho

theorem bind {x : Tx α} {f : α → Tx β} (hx : Tenanted A u K x) (hf : ∀ a, Tenanted A u K (f a)) :
    Tenanted A u K (x >>= f) := fun d b e h hk ho => by
  obtain ⟨a, m, h1, h2⟩ := Tx.bind_ok.mp h
  have hm := hx d a m h1 hk ho
  exact .trans d m e hm (hf a m b e h2 (K.stays d m hm.steady hk) (hm.owned ho))

/-- What the first part makes known is used by the second. -/
theorem bind_known {x : Tx α} {f : α → Tx β} {L : α → Known}
    (hx : ∀ d a e, x.run d = .ok (a, e) → Owned A d → Serves A u d e ∧ (L a).holds e)
    (hf : ∀ a, Tenanted A u (L a) (f a)) : Tenanted A u K (x >>= f) := fun d b e h _ ho => by
  obtain ⟨a, m, h1, h2⟩ := Tx.bind_ok.mp h
  obtain ⟨hm, hl⟩ := hx d a m h1 ho
  exact .trans d m e hm (hf a m b e h2 hl (hm.owned ho))

theorem raise (e : Err) : Tenanted A u K (Tx.raise e : Tx α) := fun _ _ _ h => by cases h

theorem append {x : AuditEntry} (ht : x.tenantId = some u)
    (hx : ∀ d, K.holds d → ∀ id, x.subject = .incident id → Belongs d id u) : Tenanted A u K (Tx.append x) :=
  fun d v e h hk _ => by
    obtain rfl := Tx.append_ok.mp h
    refine .incidents (q := d.incidents) (l := [x]) (fun id t hb => hb) (fun t _ => rfl) fun y hy => ?_
    obtain rfl := List.mem_singleton.mp hy
    exact ⟨ht, hx d hk⟩

theorem transition {now : Time} {m : Transition} (hm : ∀ d, K.holds d → Belongs d m.incident u) :
    Tenanted A u K (Tx.transition now m) := fun d v e h hk _ => by
  obtain ⟨-, i, hi, -, -, -, rfl⟩ := Tx.transition_ok h
  obtain ⟨j, hj, rfl⟩ := hm d hk
  obtain rfl := Option.some.inj (hi.symm.trans hj)
  have hkeep : ∀ id t, Belongs d id t →
      ∃ x, (d.incidents.modify m.incident (Incidents.moved now m.toState)).get? id = some x ∧ x.tenantId = t := by
    rintro id t ⟨x, hx, rfl⟩
    refine ⟨if id = m.incident then Incidents.moved now m.toState x else x, ?_, ?_⟩
    · rw [Table.get?_modify, hx]
      split_ifs <;> rfl
    · split_ifs <;> rfl
  refine .incidents hkeep (fun t ht => (Table.select_update fun n x hx => ?_).symm) fun x hx => ?_
  · split_ifs with hn
    · subst hn
      obtain rfl := Option.some.inj (hi.symm.trans hx)
      exact ⟨rfl, fun he => absurd (of_decide_eq_true he).symm ht⟩
    · exact ⟨rfl, fun _ => rfl⟩
  · obtain rfl := List.mem_singleton.mp hx
    refine ⟨rfl, fun id hid => ?_⟩
    obtain rfl := Subject.incident.inj hid
    exact hkeep _ _ ⟨i, hi, rfl⟩

theorem assertFence {job : Job} : Tenanted A u K (Tx.assertFence job) := fun d v e h _ _ => by
  obtain ⟨-, rfl⟩ := Tx.assertFence_ok h
  exact .refl e

theorem enqueue {now : Time} {x : Enqueue}
    (hx : ∀ d, K.holds d → ∀ id, x.incidentId = some id → Belongs d id x.tenantId) :
    Tenanted A u K (Tx.enqueue now x) := fun d o e h hk _ => by
  rcases Tx.enqueue_ok h with ⟨-, rfl⟩ | ⟨-, rfl⟩
  · exact .refl e
  · have hs : Steady d { d with jobs := d.jobs.insert (Jobs.rowOf now x) } :=
      ⟨fun _ _ h => h, .insert .refl _ _, .refl (fun _ => rfl) _⟩
    refine ⟨hs, fun ho => ho.later hs (fun n r id hr hid => ?_) (fun n p hp => .inl hp) (fun n a ha => .inl ha)
      (fun n f hf => .inl ⟨f, hf, rfl, rfl, rfl⟩) (fun y hy => .inl hy), fun t _ => ⟨rfl, rfl, rfl, rfl, rfl⟩⟩
    rw [Table.get?_insert] at hr
    split_ifs at hr
    · obtain rfl := Option.some.inj hr
      exact .inr (hx d hk id hid)
    · exact .inl ⟨r, hr, hid, rfl⟩

theorem insertPlan {p : PlanRow} (ht : p.tenantId = u) (hp : ∀ d, K.holds d → Belongs d p.incidentId u)
    (ha : A.proposes p) : Tenanted A u K (Tx.insertPlan p) := fun d n e h hk _ => by
  subst ht
  obtain ⟨-, rfl⟩ := Tx.insertPlan_ok h
  have hs : Steady d { d with plans := d.plans.insert p } :=
    ⟨fun _ _ hb => hb, .refl .refl _, .insert (fun _ => rfl) _ _⟩
  refine ⟨hs, fun ho => ho.later hs (fun n r id hr hid => .inl ⟨r, hr, hid, rfl⟩) (fun n q hq => ?_)
    (fun n a ha => .inl ha)
    (fun n f hf => .inl ⟨f, hf, rfl, rfl, rfl⟩) (fun x hx => .inl hx), fun t ht => ⟨rfl, ?_, rfl, rfl, rfl⟩⟩
  · change (d.plans.insert p).get? n = some q at hq
    rw [Table.get?_insert] at hq
    split_ifs at hq
    · obtain rfl := Option.some.inj hq
      exact .inr ⟨hp d hk, ha⟩
    · exact .inl hq
  · rw [Table.select_insert, if_neg (by simpa using ht.symm), List.append_nil]

theorem insertApproval {a : Approval} (ht : a.tenantId = u) (hb : ∀ d, K.holds d → Belongs d a.incidentId u)
    (hp : ∀ d, K.holds d → ∃ p, d.plans.get? a.planId = some p ∧ p.incidentId = a.incidentId) (ha : A.approves a) :
    Tenanted A u K (Tx.insertApproval a) := fun d b e h hk _ => by
  subst ht
  rcases Tx.insertApproval_ok h with ⟨-, rfl⟩ | ⟨-, -, rfl⟩
  · exact .refl e
  · have hs : Steady d { d with approvals := d.approvals.insert a } :=
      ⟨fun _ _ hb => hb, .refl .refl _, .refl (fun _ => rfl) _⟩
    refine ⟨hs, fun ho => ho.later hs (fun n r id hr hid => .inl ⟨r, hr, hid, rfl⟩) (fun n q hq => .inl hq)
      (fun n x hx => ?_)
      (fun n f hf => .inl ⟨f, hf, rfl, rfl, rfl⟩) (fun x hx => .inl hx), fun t ht => ⟨rfl, rfl, ?_, rfl, rfl⟩⟩
    · change (d.approvals.insert a).get? n = some x at hx
      rw [Table.get?_insert] at hx
      split_ifs at hx
      · obtain rfl := Option.some.inj hx
        exact .inr ⟨hb d hk, ha, hp d hk⟩
      · exact .inl hx
    · rw [Table.select_insert, if_neg (by simpa using ht.symm), List.append_nil]

theorem insertExecution {x : Execution} (ht : x.tenantId = u) (hb : ∀ d, K.holds d → Belongs d x.incidentId u)
    (hp : ∀ d, K.holds d → ∃ p, d.plans.get? x.planId = some p ∧ p.incidentId = x.incidentId) :
    Tenanted A u K (Tx.insertExecution x) := fun d v e h hk _ => by
  subst ht
  obtain ⟨-, rfl⟩ := Tx.insertExecution_ok h
  have hs : Steady d { d with executions := d.executions.insert x } :=
    ⟨fun _ _ hb => hb, .refl .refl _, .refl (fun _ => rfl) _⟩
  refine ⟨hs, fun ho => ho.later hs (fun n r id hr hid => .inl ⟨r, hr, hid, rfl⟩) (fun n q hq => .inl hq)
    (fun n a ha => .inl ha) (fun n y hy => ?_) (fun y hy => .inl hy), fun t ht => ⟨rfl, rfl, rfl, ?_, rfl⟩⟩
  · change (d.executions.insert x).get? n = some y at hy
    rw [Table.get?_insert] at hy
    split_ifs at hy
    · obtain rfl := Option.some.inj hy
      exact .inr ⟨hb d hk, hp d hk⟩
    · exact .inl ⟨y, hy, rfl, rfl, rfl⟩
  · rw [Table.select_insert, if_neg (by simpa using ht.symm), List.append_nil]

/-- The assignments of an UPDATE of `executions` are none of the columns that say whose the row is. -/
theorem updateExecution {p index : ℕ} {f : Execution → Execution}
    (hf : ∀ e, (f e).incidentId = e.incidentId ∧ (f e).tenantId = e.tenantId ∧ (f e).planId = e.planId)
    (hp : ∀ d, K.holds d → ∃ row, d.plans.get? p = some row ∧ Belongs d row.incidentId u) :
    Tenanted A u K (Tx.updateExecution p index f) := fun d v e h hk ho => by
  obtain rfl := Tx.updateExecution_ok.mp h
  have hrow : ∀ x, (Execution.updated p index f x).incidentId = x.incidentId ∧
      (Execution.updated p index f x).tenantId = x.tenantId ∧
      (Execution.updated p index f x).planId = x.planId := fun x => by
    unfold Execution.updated
    split_ifs
    · exact hf x
    · exact ⟨rfl, rfl, rfl⟩
  have hs : Steady d { d with executions := d.executions.update fun _ => Execution.updated p index f } :=
    ⟨fun _ _ hb => hb, .refl .refl _, .refl (fun _ => rfl) _⟩
  refine ⟨hs, fun ho => ho.later hs (fun n r id hr hid => .inl ⟨r, hr, hid, rfl⟩) (fun n q hq => .inl hq)
    (fun n a ha => .inl ha) (fun n y hy => ?_) (fun y hy => .inl hy), fun t ht => ⟨rfl, rfl, rfl, ?_, rfl⟩⟩
  · change (d.executions.update _).get? n = some y at hy
    rw [Table.get?_update] at hy
    obtain ⟨x, hx, rfl⟩ := Option.map_eq_some_iff.mp hy
    exact .inl ⟨x, hx, (hrow x).1.symm, (hrow x).2.1.symm, (hrow x).2.2.symm⟩
  · refine (Table.select_update fun n x hx => ⟨by rw [(hrow x).2.1], fun he => ?_⟩).symm
    -- a row that the UPDATE meets is of the tenant's plan
    by_cases hup : x.planId = p ∧ x.actionIndex = index
    · obtain ⟨row, hplan, hb⟩ := hp d hk
      obtain ⟨hxb, q, hq, hqi⟩ := ho.executions n x hx
      rw [hup.1] at hq
      obtain rfl := Option.some.inj (hplan.symm.trans hq)
      exact absurd ((of_decide_eq_true he).symm.trans (hxb.unique (hqi ▸ hb))) ht
    · unfold Execution.updated
      rw [if_neg hup]

/-- A statement that settles a job. -/
theorem settle {γ : Type} {r : JobTable → Except Err γ} {a : γ → α} {j : γ → JobTable}
    (hr : ∀ jobs y, r jobs = .ok y → Rewritten jobs (j y)) :
    Tenanted A u K fun db => (r db.jobs).map fun y => (a y, { db with jobs := j y }) := fun d b e h _ _ => by
  unfold Tx.run StateT.run at h
  dsimp only at h
  rcases hy : r d.jobs with x | y <;> rw [hy] at h
  · cases h
  · obtain ⟨-, rfl⟩ := Prod.mk.inj (Except.ok.inj h)
    exact (Neutral.rewritten (hr _ y hy)).serves u

theorem complete {now : Time} {job : Job} : Tenanted A u K (Tx.complete now job) :=
  settle (a := fun _ => ()) (j := id) fun _ _ h =>
    .finish (f := fun r => { r with status := .done, lastError := none })
      (fun _ => ⟨rfl, rfl, rfl, rfl, rfl, rfl, rfl, rfl, rfl⟩) h

theorem release {now : Time} {job : Job} : Tenanted A u K (Tx.release now job) :=
  settle (a := fun _ => ()) (j := id) fun _ _ h =>
    .finish (f := fun r => { r with status := .queued, attempts := r.attempts - 1, runAfter := now })
      (fun _ => ⟨rfl, rfl, rfl, rfl, rfl, rfl, rfl, rfl, rfl⟩) h

theorem fail {now : Time} {job : Job} {error : String} {retryable : Bool} {settings : Settings} {jitter : Time} :
    Tenanted A u K (Tx.fail now job error retryable settings jitter) :=
  settle (j := Prod.fst) fun _ _ h => by
    obtain ⟨-, -, -, -, hj⟩ := Jobs.fail_ok h
    exact ⟨_, hj, fun i r => by split_ifs <;> exact ⟨rfl, rfl, rfl, rfl, rfl, rfl, rfl, rfl, rfl⟩⟩

end Tenanted

/-- Merged or new, the incidents belong where they did; a new one is the tenant's of the alert. -/
theorem openOrMerge_serves {now : Time} {o : Opening} {d e : Db} {id : ℕ} {isNew : Bool}
    (h : (Tx.openOrMerge now o).run d = .ok ((id, isNew), e)) :
    Serves A o.tenantId d e ∧ (isNew = true → Belongs e id o.tenantId) := by
  rcases openOrMerge_ok h with ⟨rfl, rfl⟩ | ⟨rfl, rfl, rfl⟩
  · have hmerged : ∀ i, (Incidents.mergedIf now o i).tenantId = i.tenantId := fun i => by
      unfold Incidents.mergedIf
      split_ifs <;> rfl
    refine ⟨?_, fun h => by cases h⟩
    have hserves : Serves A o.tenantId d { d with
        incidents := d.incidents.update fun _ => Incidents.mergedIf now o, audit := d.audit ++ [] } := by
      refine .incidents ?_ (fun t ht => (Table.select_update fun n x hx => ?_).symm) (fun x hx => by cases hx)
      · rintro n t ⟨i, hi, rfl⟩
        exact ⟨Incidents.mergedIf now o i, by rw [Table.get?_update, hi]; rfl, hmerged i⟩
      · refine ⟨by rw [hmerged], fun he => ?_⟩
        unfold Incidents.mergedIf
        rw [if_neg]
        simp only [Incidents.openFor, Bool.and_eq_true, decide_eq_true_eq, not_and]
        exact fun h => absurd ((of_decide_eq_true he).symm.trans h.1) ht
    rwa [List.append_nil] at hserves
  · have hserves : Serves A o.tenantId d { d with
        incidents := d.incidents.insert (Incidents.opened now o), audit := d.audit ++ [] } := by
      refine .incidents ?_ (fun t ht => ?_) (fun x hx => by cases hx)
      · rintro n t ⟨i, hi, rfl⟩
        exact ⟨i, Table.get?_insert_of_some _ hi, rfl⟩
      · rw [Table.select_insert, if_neg fun he => ht (of_decide_eq_true he).symm, List.append_nil]
    rw [List.append_nil] at hserves
    refine ⟨hserves, fun _ => ⟨Incidents.opened now o, ?_, rfl⟩⟩
    rw [Table.get?_insert, if_pos rfl]

end Tx

end Blackboard
