import Blackboard.Spec.System
import Blackboard.Proofs.QueueRows

/-! How the shared state may change. `Evolves` is what every action and every event keeps to;
`Spares a` is what they leave to an attempt that is not theirs. Together they are what a
program relies on between two of its actions. -/

namespace Blackboard

/-- How far the state machine is. No commit goes back. -/
def State.rank : State → ℕ
  | .received => 0
  | .triaged => 1
  | .investigating => 2
  | .diagnosed => 3
  | .planned => 4
  | .safetyReviewed => 5
  | .awaitingApproval => 6
  | .executing => 7
  | .verifying => 8
  | .resolved => 9
  | .escalated => 9

def State.terminal (s : State) : Bool := Incidents.TERMINAL.contains s

@[simp] theorem State.terminal_iff {s : State} : s.terminal = true ↔ s.rank = 9 := by
  cases s <;> decide

theorem State.rank_le (s : State) : s.rank ≤ 9 := by cases s <;> decide

/-! Rows. -/

structure Incident.Later (i j : Incident) : Prop where
  version : i.version ≤ j.version
  unmoved : i.version = j.version → j.state = i.state
  rank : i.state.rank ≤ j.state.rank
  closed : i.state.rank = 9 → j.state = i.state

theorem Incident.Later.refl (i : Incident) : i.Later i := ⟨le_rfl, fun _ => rfl, le_rfl, fun _ => rfl⟩

theorem Incident.Later.trans (i j k : Incident) (h : i.Later j) (h' : j.Later k) : i.Later k where
  version := h.version.trans h'.version
  unmoved hv := by
    have h1 := h.version
    have h2 := h'.version
    rw [h'.unmoved (by omega), h.unmoved (by omega)]
  rank := h.rank.trans h'.rank
  closed hc := by rw [h'.closed (by rw [h.closed hc]; exact hc), h.closed hc]

/-- The fence only grows, and a lease that is given up is not taken up again. -/
structure JobRow.Later (r s : JobRow) : Prop where
  same : SameJob r s
  fence : r.fence ≤ s.fence
  stopped : r.fence = s.fence → r.status ≠ .running → s.status ≠ .running

theorem JobRow.Later.refl (r : JobRow) : r.Later r := ⟨.refl r, le_rfl, fun _ h => h⟩

theorem JobRow.Later.trans (r s t : JobRow) (h : r.Later s) (h' : s.Later t) : r.Later t where
  same := h.same.trans h'.same
  fence := h.fence.trans h'.fence
  stopped hf hr := by
    have h1 := h.fence
    have h2 := h'.fence
    exact h'.stopped (by omega) (h.stopped (by omega) hr)

theorem Effect.Moves.later {e : Effect} {r s : JobRow} (hm : e.Moves r s) (hs : SameJob r s) : r.Later s := by
  refine ⟨hs, ?_, ?_⟩ <;> cases e <;> simp only [Effect.Moves] at hm <;> grind

structure Execution.Later (e f : Execution) : Prop where
  planId : f.planId = e.planId
  actionIndex : f.actionIndex = e.actionIndex
  insertedBy : f.insertedBy = e.insertedBy
  insertedAs : f.insertedAs = e.insertedAs
  /-- Only a row that is still started is given another status. -/
  status : e.status ≠ .started → f.status = e.status

theorem Execution.Later.refl (e : Execution) : e.Later e := ⟨rfl, rfl, rfl, rfl, fun _ => rfl⟩

theorem Execution.Later.trans (e f g : Execution) (h : e.Later f) (h' : f.Later g) : e.Later g where
  planId := h'.planId.trans h.planId
  actionIndex := h'.actionIndex.trans h.actionIndex
  insertedBy := h'.insertedBy.trans h.insertedBy
  insertedAs := h'.insertedAs.trans h.insertedAs
  status hs := (h'.status (by rw [h.status hs]; exact hs)).trans (h.status hs)

/-! The database. -/

structure Db.Later (d e : Db) : Prop where
  incidents : Table.Keeps Incident.Later d.incidents e.incidents
  jobs : Table.Keeps JobRow.Later d.jobs e.jobs
  plans : Table.Keeps Eq d.plans e.plans
  /-- A plan is only added with a move of its incident. -/
  planned : ∀ id i j, d.incidents.get? id = some i → e.incidents.get? id = some j →
    i.version = j.version → e.currentPlan id = d.currentPlan id
  approvals : Table.Keeps Eq d.approvals e.approvals
  executions : Table.Keeps Execution.Later d.executions e.executions
  audit : d.audit <+: e.audit

theorem Db.Later.refl (d : Db) : d.Later d where
  incidents := .refl Incident.Later.refl _
  jobs := .refl JobRow.Later.refl _
  plans := .refl (fun _ => rfl) _
  planned _ _ _ _ _ _ := rfl
  approvals := .refl (fun _ => rfl) _
  executions := .refl Execution.Later.refl _
  audit := List.prefix_refl _

theorem Db.Later.trans {d e f : Db} (h : d.Later e) (h' : e.Later f) : d.Later f where
  incidents := Table.Keeps.trans Incident.Later.trans h.incidents h'.incidents
  jobs := Table.Keeps.trans JobRow.Later.trans h.jobs h'.jobs
  plans := .trans (R := Eq) (fun _ _ _ => Eq.trans) h.plans h'.plans
  planned id i k hi hk hv := by
    obtain ⟨j, hj, hij⟩ := h.incidents id i hi
    obtain ⟨k', hk', hjk⟩ := h'.incidents id j hj
    obtain rfl : k = k' := by rw [hk] at hk'; exact Option.some.inj hk'
    have h1 := hij.version
    have h2 := hjk.version
    rw [h'.planned id j k hj hk (by omega), h.planned id i j hi hj (by omega)]
  approvals := .trans (R := Eq) (fun _ _ _ => Eq.trans) h.approvals h'.approvals
  executions := Table.Keeps.trans Execution.Later.trans h.executions h'.executions
  audit := h.audit.trans h'.audit

/-! Attempts. -/

def Holds (a : Attempt) (d : Db) : Prop :=
  ∃ r, d.jobs.get? a.job = some r ∧ r.fence = a.fence ∧ r.status = .running

/-- The attempt had the job, and has it no more. -/
def Lost (a : Attempt) (d : Db) : Prop :=
  ∃ r, d.jobs.get? a.job = some r ∧ a.fence ≤ r.fence ∧ (r.fence = a.fence → r.status ≠ .running)

def Claimed (a : Attempt) (d : Db) : Prop := ∃ r, d.jobs.get? a.job = some r ∧ a.fence ≤ r.fence

theorem holds_job {job : Job} {d : Db} :
    Jobs.holds job d.jobs = true ↔ Holds ⟨job.id, job.fence⟩ d := Jobs.holds_iff

theorem Holds.not_lost {a : Attempt} {d : Db} (h : Holds a d) : ¬ Lost a d := by
  rintro ⟨r, hr, -, hn⟩
  obtain ⟨s, hs, hf, hrun⟩ := h
  obtain rfl : r = s := by rw [hr] at hs; exact Option.some.inj hs
  exact hn hf hrun

theorem Claimed.lost {a : Attempt} {d : Db} (h : Claimed a d) (hn : ¬ Holds a d) : Lost a d := by
  obtain ⟨r, hr, hf⟩ := h
  exact ⟨r, hr, hf, fun he hrun => hn ⟨r, hr, he, hrun⟩⟩

/-- Of two attempts at one job at most one holds it. -/
theorem Holds.unique {a b : Attempt} {d : Db} (h : Holds a d) (h' : Holds b d) (hj : a.job = b.job) :
    a = b := by
  obtain ⟨r, hr, hf, -⟩ := h
  obtain ⟨s, hs, hf', -⟩ := h'
  obtain rfl : r = s := by rw [hj, hs] at hr; exact (Option.some.inj hr).symm
  obtain ⟨j, f⟩ := a
  obtain ⟨j', f'⟩ := b
  simp only at hj hf hf'
  subst hj hf hf'
  rfl

theorem Lost.later {a : Attempt} {d e : Db} (h : Lost a d) (hd : d.Later e) : Lost a e := by
  obtain ⟨r, hr, hf, hn⟩ := h
  obtain ⟨s, hs, hrs⟩ := hd.jobs _ _ hr
  have hle := hrs.fence
  exact ⟨s, hs, by omega, fun he => hrs.stopped (by omega) (hn (by omega))⟩

/-! The state. -/

structure Evolves (c c' : Core) : Prop where
  db : c.db.Later c'.db
  dbs : c.dbs <+: c'.dbs
  clusters : c.clusters <+: c'.clusters
  decided : c.hist.decided ⊆ c'.hist.decided
  wrote : c.hist.wrote ⊆ c'.hist.wrote
  auto : c'.hist.manual = false → c.hist.manual = false

theorem Evolves.refl (c : Core) : Evolves c c :=
  ⟨.refl _, List.prefix_refl _, List.prefix_refl _, List.Subset.refl _, List.Subset.refl _, id⟩

theorem Evolves.trans {c c' c'' : Core} (h : Evolves c c') (h' : Evolves c' c'') : Evolves c c'' :=
  ⟨h.db.trans h'.db, h.dbs.trans h'.dbs, h.clusters.trans h'.clusters,
    List.Subset.trans h.decided h'.decided, List.Subset.trans h.wrote h'.wrote, fun hm => h.auto (h'.auto hm)⟩

/-- What the others leave to an attempt: what it sent, what it goes on to send and what it
owes, the outcomes of its actions, and, as long as it has its execute job, the rows of the plan
and an incident that is executing. -/
structure Spares (a : Attempt) (c c' : Core) : Prop where
  sent : ∀ s ∈ c'.hist.sent, s.attempt = a → s ∈ c.hist.sent
  ready : a ∈ c.hist.ready → a ∈ c'.hist.ready
  owed : ∀ x, x.1 = a → (x ∈ c'.hist.owed ↔ x ∈ c.hist.owed)
  outcome : ∀ n e f, c.db.executions.get? n = some e → e.insertedBy = a → c'.db.executions.get? n = some f →
    f.status = e.status ∨ f.status = .unknown
  rows : ∀ r n e, c.db.jobs.get? a.job = some r → a.fence ≤ r.fence → r.kind = .execute →
    r.payload.planId = some e.planId → c.db.executions.get? n = some e →
    c'.db.executions.get? n = some e ∨ Lost a c'.db
  executing : ∀ r id i, c.db.jobs.get? a.job = some r → a.fence ≤ r.fence → r.kind = .execute →
    r.incidentId = some id → c.db.incidents.get? id = some i → i.state = .executing →
    (∃ j, c'.db.incidents.get? id = some j ∧ j.state = .executing) ∨ Lost a c'.db

theorem Spares.refl (a : Attempt) (c : Core) : Spares a c c :=
  ⟨fun _ h _ => h, id, fun _ _ => Iff.rfl,
    fun _ _ _ he _ hf => Or.inl (congrArg Execution.status (Option.some.inj (hf.symm.trans he))),
    fun _ _ _ _ _ _ _ h => Or.inl h,
    fun _ _ i _ _ _ _ hi hs => Or.inl ⟨i, hi, hs⟩⟩

theorem Spares.trans {a : Attempt} {c c' c'' : Core} (h : Spares a c c') (he : Evolves c c')
    (h' : Spares a c' c'') (he' : Evolves c' c'') : Spares a c c'' where
  sent s hs ha := h.sent s (h'.sent s hs ha) ha
  ready hr := h'.ready (h.ready hr)
  owed x hx := (h'.owed x hx).trans (h.owed x hx)
  outcome n e g hn ha hg := by
    obtain ⟨f, hf, hef⟩ := he.db.executions _ _ hn
    rcases h'.outcome n f g hf (hef.insertedBy.trans ha) hg with hgf | hgf
    · rw [hgf]
      exact h.outcome n e f hn ha hf
    · exact Or.inr hgf
  rows r n e hr hf hk hp hn := by
    rcases h.rows r n e hr hf hk hp hn with hn' | hl
    · obtain ⟨s, hs', hrs⟩ := he.db.jobs _ _ hr
      exact h'.rows s n e hs' (hf.trans hrs.fence) (hrs.same.kind.trans hk) (by rw [hrs.same.payload]; exact hp) hn'
    · exact Or.inr (hl.later he'.db)
  executing r id i hr hf hk hid hi hs := by
    rcases h.executing r id i hr hf hk hid hi hs with ⟨j, hj, hjs⟩ | hl
    · obtain ⟨s, hs', hrs⟩ := he.db.jobs _ _ hr
      exact h'.executing s id j hs' (hf.trans hrs.fence) (hrs.same.kind.trans hk)
        (hrs.same.incidentId.trans hid) hj hjs
    · exact Or.inr (hl.later he'.db)

/-- What the others leave to a program. -/
def Apart : Caller → Core → Core → Prop
  | .job a, c, c' => Spares a c c'
  | .request n, c, c' => n ∈ c'.hist.wrote → n ∈ c.hist.wrote

theorem Apart.refl (k : Caller) (c : Core) : Apart k c c := by
  cases k with
  | job a => exact Spares.refl a c
  | request n => exact id

def rely (k : Caller) (c c' : Core) : Prop := Evolves c c' ∧ Apart k c c'

theorem rely_refl (k : Caller) (c : Core) : rely k c c := ⟨.refl c, .refl k c⟩

theorem rely_trans (k : Caller) (c c' c'' : Core) (h : rely k c c') (h' : rely k c' c'') : rely k c c'' := by
  refine ⟨h.1.trans h'.1, ?_⟩
  cases k with
  | job a => exact Spares.trans h.2 h.1 h'.2 h'.1
  | request n => exact fun hn => h.2 (h'.2 hn)

end Blackboard
