import Blackboard.Spec.Queue

/-! What each queue operation does to one row. Every later fact about the queue is read off
`Effect`, and no proof unfolds an operation again. -/

namespace Blackboard

namespace Jobs

theorem holds_iff {job : Job} {jobs : JobTable} :
    holds job jobs = true ↔
      ∃ r, jobs.get? job.id = some r ∧ r.fence = job.fence ∧ r.status = .running := by
  unfold holds
  cases h : jobs.get? job.id with
  | none => simp
  | some r => simp

theorem enqueue_ok {now : Time} {e : Enqueue} {jobs : JobTable} {x : JobTable × Option ℕ}
    (h : enqueue now e jobs = .ok x) :
    (keyTaken jobs e.idempotencyKey = true ∧ x.1 = jobs ∧ x.2 = none) ∨
      (keyTaken jobs e.idempotencyKey = false ∧ x.1 = jobs.insert (rowOf now e) ∧
        x.2 = some jobs.size) := by
  unfold enqueue at h
  split_ifs at h with h1 h2
  · cases h
    exact Or.inl ⟨h2, rfl, rfl⟩
  · cases h
    exact Or.inr ⟨by simpa using h2, rfl, rfl⟩

theorem keyTaken_eq_false {jobs : JobTable} {k : Key} :
    keyTaken jobs (some k) = false ↔ ∀ j r, jobs.get? j = some r → r.idempotencyKey ≠ some k := by
  unfold keyTaken
  simp only [Option.isSome_some, Bool.true_and, List.any_eq_false, decide_eq_true_eq]
  exact ⟨fun h j r hr => h r (Table.mem_rows.mpr ⟨j, hr⟩), fun h r hr => by
    obtain ⟨j, hj⟩ := Table.mem_rows.mp hr
    exact h j r hj⟩

theorem runnable_iff {now : Time} {mp : ℕ} {kinds : Option (List Kind)} {r : JobRow} :
    runnable now mp kinds r = true ↔
      r.status = .queued ∧ r.runAfter ≤ now ∧ r.priority ≤ mp ∧
        ∀ ks, kindFilter kinds = some ks → r.kind ∈ ks := by
  unfold runnable
  cases h : kindFilter kinds with
  | none => simp [and_assoc]
  | some ks => simp [and_assoc]

/-- The claimed row is runnable, and none that could have been claimed sorts before it. -/
theorem claim_some {now ttl : Time} {owner : String} {mp : ℕ} {kinds : Option (List Kind)}
    {locked : ℕ → Bool} {jobs jobs' : JobTable} {job : Job}
    (h : claim now owner ttl mp kinds locked jobs = (jobs', some job)) :
    ∃ r, jobs.get? job.id = some r ∧ runnable now mp kinds r = true ∧ locked job.id = false ∧
      jobs' = jobs.modify job.id (leased now owner ttl) ∧
      job = Job.fromRow job.id (leased now owner ttl r) owner (now - r.runAfter) ∧
      ∀ id' r', jobs.get? id' = some r' → runnable now mp kinds r' = true → locked id' = false →
        r.sortKey ≤ r'.sortKey := by
  unfold claim at h
  cases hn : next now mp kinds locked jobs with
  | none => rw [hn] at h; cases h
  | some x =>
    obtain ⟨id, r⟩ := x
    rw [hn] at h
    cases h
    have hmem := List.argmin_mem (show (id, r) ∈ _ from hn)
    rw [Table.mem_select] at hmem
    obtain ⟨hr, hp⟩ := hmem
    simp only [Bool.and_eq_true, Bool.not_eq_true'] at hp
    refine ⟨r, hr, hp.1, hp.2, rfl, rfl, fun id' r' hr' hrun hl => ?_⟩
    have hle := List.le_of_mem_argmin (f := fun x : ℕ × JobRow => x.2.sortKey)
      (a := (id', r')) (Table.mem_select.mpr ⟨hr', by simp [hrun, hl]⟩) hn
    exact hle

theorem claim_none {now ttl : Time} {owner : String} {mp : ℕ} {kinds : Option (List Kind)}
    {locked : ℕ → Bool} {jobs jobs' : JobTable}
    (h : claim now owner ttl mp kinds locked jobs = (jobs', none)) : jobs' = jobs := by
  unfold claim at h
  split at h <;> cases h
  rfl

theorem finish_ok {now : Time} {job : Job} {f : JobRow → JobRow} {jobs jobs' : JobTable} :
    finish now job f jobs = .ok jobs' ↔
      holds job jobs = true ∧ jobs' = jobs.modify job.id fun r =>
        { f r with leaseOwner := none, leaseUntil := none, updatedAt := now } := by
  unfold finish
  split_ifs with h
  · simp [h, eq_comm]
  · simp [h]

theorem fail_ok {now base max jitter : Time} {job : Job} {error : String} {retryable : Bool}
    {jobs jobs' : JobTable} {s : Status}
    (h : fail now job error retryable base max jitter jobs = .ok (jobs', s)) :
    ∃ r, jobs.get? job.id = some r ∧ holds job jobs = true ∧ s = afterFailure retryable r ∧
      jobs' = jobs.modify job.id fun r =>
        { r with status := afterFailure retryable r,
                 runAfter := now + backoffDelay job.attempts base max jitter,
                 leaseOwner := none, leaseUntil := none,
                 lastError := some (error.take 2000).copy, updatedAt := now } := by
  unfold fail at h
  cases hr : jobs.get? job.id with
  | none => rw [hr] at h; cases h
  | some r =>
    rw [hr] at h
    dsimp only at h
    split_ifs at h with hh
    · cases h
      exact ⟨r, rfl, hh, rfl, rfl⟩

end Jobs

/-- What an operation did to a row. -/
inductive Effect
  | kept | claimed | renewed | completed | released | failed (s : Status) | reaped
deriving DecidableEq

/-- The part of a job that is fixed when it is enqueued. -/
structure SameJob (r r' : JobRow) : Prop where
  tenantId : r'.tenantId = r.tenantId
  incidentId : r'.incidentId = r.incidentId
  kind : r'.kind = r.kind
  payload : r'.payload = r.payload
  idempotencyKey : r'.idempotencyKey = r.idempotencyKey
  priority : r'.priority = r.priority
  maxAttempts : r'.maxAttempts = r.maxAttempts
  sortKey : r'.sortKey = r.sortKey
  enqueuedAt : r'.enqueuedAt = r.enqueuedAt

theorem SameJob.refl (r : JobRow) : SameJob r r := ⟨rfl, rfl, rfl, rfl, rfl, rfl, rfl, rfl, rfl⟩

theorem SameJob.trans {r s t : JobRow} (h : SameJob r s) (h' : SameJob s t) : SameJob r t :=
  ⟨h'.1.trans h.1, h'.2.trans h.2, h'.3.trans h.3, h'.4.trans h.4, h'.5.trans h.5,
    h'.6.trans h.6, h'.7.trans h.7, h'.8.trans h.8, h'.9.trans h.9⟩

/-- Status, attempts and fence before and after. -/
def Effect.Moves : Effect → JobRow → JobRow → Prop
  | .kept, r, r' => r' = r
  | .claimed, r, r' => r.status = .queued ∧ r'.status = .running ∧
      r'.attempts = r.attempts + 1 ∧ r'.fence = r.fence + 1
  | .renewed, r, r' => r.status = .running ∧ r'.status = .running ∧
      r'.attempts = r.attempts ∧ r'.fence = r.fence
  | .completed, r, r' => r.status = .running ∧ r'.status = .done ∧
      r'.attempts = r.attempts ∧ r'.fence = r.fence
  | .released, r, r' => r.status = .running ∧ r'.status = .queued ∧
      r'.attempts = r.attempts - 1 ∧ r'.fence = r.fence
  | .failed s, r, r' => r.status = .running ∧ r'.status = s ∧
      (s = .queued ∧ r.attempts < r.maxAttempts ∨ s = .dead) ∧
      r'.attempts = r.attempts ∧ r'.fence = r.fence
  | .reaped, r, r' => r.status = .running ∧
      (r'.status = .queued ∧ r.attempts < r.maxAttempts ∨ r'.status = .dead) ∧
      r'.attempts = r.attempts ∧ r'.fence = r.fence

/-- The effects that need the caller to hold the job. -/
def Effect.Held : Effect → Bool
  | .renewed | .completed | .released | .failed _ => true
  | _ => false

/-- What one operation does to the row `id`: the effect, and what the trace says of it. -/
structure RowStep (op : QueueOp) (jobs : JobTable) (id : ℕ) (r r' : JobRow) (e : Effect) : Prop where
  same : SameJob r r'
  moves : e.Moves r r'
  held : e.Held = true → ∃ job, op.handle? = some job ∧ job.id = id ∧ job.fence = r.fence
  claim : isClaim id (op, (op.apply jobs).2) = decide (e = .claimed)
  release : isRelease id (op, (op.apply jobs).2) = decide (e = .released)
  completion : isCompletion id (op, (op.apply jobs).2) = decide (e = .completed)

theorem RowStep.kept {op : QueueOp} {jobs : JobTable} {id : ℕ} {r : JobRow}
    (hc : isClaim id (op, (op.apply jobs).2) = false)
    (hr : isRelease id (op, (op.apply jobs).2) = false)
    (hd : isCompletion id (op, (op.apply jobs).2) = false) :
    RowStep op jobs id r r .kept :=
  ⟨.refl r, rfl, by simp [Effect.Held], by simpa using hc, by simpa using hr, by simpa using hd⟩

/-- A write guarded by the fence: the row of the job is rewritten, if the caller holds it. -/
theorem finish_row {op : QueueOp} {jobs jobs' : JobTable} {job : Job} {f : JobRow → JobRow}
    {id : ℕ} {r : JobRow} {e : Effect} (hr : jobs.get? id = some r)
    (hop : op.handle? = some job) (hh : Jobs.holds job jobs = true)
    (hj : jobs' = jobs.modify job.id f)
    (hclaim : ∀ i, isClaim i (op, (op.apply jobs).2) = false)
    (hrel : ∀ i, isRelease i (op, (op.apply jobs).2) = decide (e = .released ∧ job.id = i))
    (hcomp : ∀ i, isCompletion i (op, (op.apply jobs).2) = decide (e = .completed ∧ job.id = i))
    (he : e ≠ .claimed) (hsame : SameJob r (f r))
    (hm : r.status = .running → e.Moves r (f r)) :
    ∃ r' e', jobs'.get? id = some r' ∧ RowStep op jobs id r r' e' := by
  subst hj
  obtain ⟨s, hs, hfence, hrun⟩ := Jobs.holds_iff.mp hh
  by_cases hid : id = job.id
  · subst hid
    obtain rfl : r = s := by rw [hr] at hs; exact Option.some.inj hs
    refine ⟨f r, e, by simp [hr], hsame, hm hrun, fun _ => ⟨job, hop, rfl, hfence.symm⟩, ?_, ?_, ?_⟩
    · rw [hclaim]; simp [he]
    · rw [hrel]; simp
    · rw [hcomp]; simp
  · refine ⟨r, .kept, by rw [Table.get?_modify_ne _ _ hid, hr], RowStep.kept (hclaim id) ?_ ?_⟩
    · rw [hrel]; simp [Ne.symm hid]
    · rw [hcomp]; simp [Ne.symm hid]

theorem SameJob.leased (now ttl : Time) (owner : String) (r : JobRow) :
    SameJob r (Jobs.leased now owner ttl r) := ⟨rfl, rfl, rfl, rfl, rfl, rfl, rfl, rfl, rfl⟩

theorem SameJob.reaped (now : Time) (r : JobRow) : SameJob r (Jobs.reaped now r) :=
  ⟨rfl, rfl, rfl, rfl, rfl, rfl, rfl, rfl, rfl⟩

theorem reaped_moves {now : Time} {locked : ℕ → Bool} {id : ℕ} {r : JobRow}
    (h : Jobs.expired now locked id r = true) : Effect.reaped.Moves r (Jobs.reaped now r) := by
  have hrun : r.status = .running := by
    simp only [Jobs.expired, Bool.and_eq_true, decide_eq_true_eq] at h
    exact h.1.1
  refine ⟨hrun, ?_, rfl, rfl⟩
  simp only [Jobs.reaped, Jobs.afterExpiry]
  split_ifs with hm
  · exact Or.inr rfl
  · exact Or.inl ⟨rfl, by omega⟩

theorem afterFailure_cases (retryable : Bool) (r : JobRow) :
    Jobs.afterFailure retryable r = .queued ∧ r.attempts < r.maxAttempts ∨
      Jobs.afterFailure retryable r = .dead := by
  unfold Jobs.afterFailure
  split_ifs with h
  · exact Or.inl ⟨rfl, h.2⟩
  · exact Or.inr rfl

/-- The step lemma: every row that exists is still there after an operation, changed by
exactly one effect, and the trace counts that effect. -/
theorem apply_row (op : QueueOp) (jobs : JobTable) {id : ℕ} {r : JobRow}
    (hr : jobs.get? id = some r) :
    ∃ r' e, (op.apply jobs).1.get? id = some r' ∧ RowStep op jobs id r r' e := by
  cases op with
  | enqueue now e =>
    refine ⟨r, .kept, ?_, ?_⟩
    · simp only [QueueOp.apply]
      cases h : Jobs.enqueue now e jobs with
      | error e => simp [answer, Except.map, hr]
      | ok x =>
        rcases Jobs.enqueue_ok h with ⟨-, hj, -⟩ | ⟨-, hj, -⟩
        · simp [answer, Except.map, hj, hr]
        · simp only [answer, Except.map, hj]
          exact Table.get?_insert_of_some _ hr
    · apply RowStep.kept <;> simp only [QueueOp.apply] <;>
        cases Jobs.enqueue now e jobs <;> rfl
  | claim now owner ttl mp kinds locked =>
    simp only [QueueOp.apply]
    rcases hc : Jobs.claim now owner ttl mp kinds locked jobs with ⟨jobs', _ | job⟩
    · refine ⟨r, .kept, by simpa [Jobs.claim_none hc] using hr, RowStep.kept ?_ ?_ ?_⟩ <;>
        simp [QueueOp.apply, hc, isClaim, isRelease, isCompletion]
    · obtain ⟨s, hs, hrun, -, hj, -, -⟩ := Jobs.claim_some hc
      have hq := (Jobs.runnable_iff.mp hrun).1
      by_cases hid : id = job.id
      · subst hid
        obtain rfl : r = s := by rw [hr] at hs; exact Option.some.inj hs
        refine ⟨Jobs.leased now owner ttl r, .claimed, by simp [hj, hr],
          .leased now ttl owner r, ⟨hq, rfl, rfl, rfl⟩, by simp [Effect.Held], ?_, ?_, ?_⟩ <;>
          simp [QueueOp.apply, hc, isClaim, isRelease, isCompletion]
      · refine ⟨r, .kept, by simp [hj, Table.get?_modify_ne _ _ hid, hr], RowStep.kept ?_ ?_ ?_⟩ <;>
          simp [QueueOp.apply, hc, isClaim, isRelease, isCompletion, Ne.symm hid]
  | heartbeat now job ttl =>
    by_cases hh : Jobs.holds job jobs = true
    · refine finish_row (e := .renewed) hr rfl hh (f := fun r =>
        { r with leaseUntil := some (now + ttl), updatedAt := now }) ?_ ?_ ?_ ?_ (by decide) ?_ ?_
      · simp [QueueOp.apply, Jobs.heartbeat, hh]
      · intro i; rfl
      · intro i; simp [isRelease]
      · intro i; simp [isCompletion]
      · exact ⟨rfl, rfl, rfl, rfl, rfl, rfl, rfl, rfl, rfl⟩
      · exact fun h => ⟨h, h, rfl, rfl⟩
    · refine ⟨r, .kept, ?_, RowStep.kept rfl rfl rfl⟩
      simp [QueueOp.apply, Jobs.heartbeat, hh, hr]
  | assertFence job =>
    refine ⟨r, .kept, ?_, ?_⟩
    · simp only [QueueOp.apply]
      cases Jobs.assertFence job jobs <;> simp [answer, Except.map, hr]
    · apply RowStep.kept <;> simp only [QueueOp.apply] <;>
        cases Jobs.assertFence job jobs <;> rfl
  | complete now job =>
    simp only [QueueOp.apply]
    cases h : Jobs.complete now job jobs with
    | error e =>
      refine ⟨r, .kept, by simp [answer, Except.map, hr], RowStep.kept ?_ ?_ ?_⟩ <;>
        simp [QueueOp.apply, h, answer, Except.map, isClaim, isRelease, isCompletion]
    | ok jobs' =>
      obtain ⟨hh, hj⟩ := Jobs.finish_ok.mp h
      refine finish_row (e := .completed) hr rfl hh hj ?_ ?_ ?_ (by decide) ?_ ?_
      · intro i; simp [QueueOp.apply, h, answer, Except.map, isClaim]
      · intro i; simp [isRelease]
      · intro i; simp [QueueOp.apply, h, answer, Except.map, isCompletion]
      · exact ⟨rfl, rfl, rfl, rfl, rfl, rfl, rfl, rfl, rfl⟩
      · exact fun hs => ⟨hs, rfl, rfl, rfl⟩
  | fail now job error retryable base max jitter =>
    simp only [QueueOp.apply]
    cases h : Jobs.fail now job error retryable base max jitter jobs with
    | error e =>
      refine ⟨r, .kept, by simp [answer, Except.map, hr], RowStep.kept ?_ ?_ ?_⟩ <;>
        simp [QueueOp.apply, h, answer, Except.map, isClaim, isRelease, isCompletion]
    | ok x =>
      obtain ⟨s, hs, hh, hst, hj⟩ := Jobs.fail_ok (s := x.2) h
      refine finish_row (e := .failed (Jobs.afterFailure retryable r)) hr rfl hh hj
        ?_ ?_ ?_ (by simp) ?_ ?_
      · intro i; simp [QueueOp.apply, h, answer, Except.map, isClaim]
      · intro i; simp [isRelease]
      · intro i; simp [isCompletion]
      · exact ⟨rfl, rfl, rfl, rfl, rfl, rfl, rfl, rfl, rfl⟩
      · exact fun hs => ⟨hs, rfl, afterFailure_cases retryable r, rfl, rfl⟩
  | release now job =>
    simp only [QueueOp.apply]
    cases h : Jobs.release now job jobs with
    | error e =>
      refine ⟨r, .kept, by simp [answer, Except.map, hr], RowStep.kept ?_ ?_ ?_⟩ <;>
        simp [QueueOp.apply, h, answer, Except.map, isClaim, isRelease, isCompletion]
    | ok jobs' =>
      obtain ⟨hh, hj⟩ := Jobs.finish_ok.mp h
      refine finish_row (e := .released) hr rfl hh hj ?_ ?_ ?_ (by decide) ?_ ?_
      · intro i; simp [QueueOp.apply, h, answer, Except.map, isClaim]
      · intro i; simp [QueueOp.apply, h, answer, Except.map, isRelease]
      · intro i; simp [isCompletion]
      · exact ⟨rfl, rfl, rfl, rfl, rfl, rfl, rfl, rfl, rfl⟩
      · exact fun hs => ⟨hs, rfl, rfl, rfl⟩
  | reap now locked =>
    by_cases he : Jobs.expired now locked id r = true
    · exact ⟨Jobs.reaped now r, .reaped, by simp [QueueOp.apply, Jobs.reap, hr, he],
        .reaped now r, reaped_moves he, by simp [Effect.Held], rfl, rfl, rfl⟩
    · exact ⟨r, .kept, by simp [QueueOp.apply, Jobs.reap, hr, he], RowStep.kept rfl rfl rfl⟩

end Blackboard
