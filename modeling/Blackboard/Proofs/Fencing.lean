import Blackboard.Proofs.QueueRows

/-! The fence and the attempt counter over whole runs of the queue. `Accounted` ties the
counters of a row to the trace; one step keeps it because of `apply_row`. -/

namespace Blackboard

def claims (trace : List (QueueOp × Answer)) (id : ℕ) : ℕ := trace.countP (isClaim id)

def releases (trace : List (QueueOp × Answer)) (id : ℕ) : ℕ := trace.countP (isRelease id)

def completions (trace : List (QueueOp × Answer)) (id : ℕ) : ℕ := trace.countP (isCompletion id)

/-- The row's counters are what the trace says of it. -/
structure Accounted (trace : List (QueueOp × Answer)) (id : ℕ) (r : JobRow) : Prop where
  fence : r.fence = claims trace id
  attempts : r.attempts = (claims trace id : ℤ) - releases trace id
  nonneg : 0 ≤ r.attempts
  le_max : r.attempts ≤ r.maxAttempts
  queued_lt : r.status = .queued → r.attempts < r.maxAttempts
  running_pos : r.status = .running → 0 < r.attempts
  once : completions trace id ≤ 1
  open_zero : r.status ≠ .done → completions trace id = 0

structure Queue.Inv (q : Queue) : Prop where
  rows : ∀ id r, q.jobs.get? id = some r → Accounted q.trace id r
  absent : ∀ id, q.jobs.get? id = none →
    claims q.trace id = 0 ∧ releases q.trace id = 0 ∧ completions q.trace id = 0

theorem Queue.init_inv : Queue.init.Inv :=
  ⟨by simp [Queue.init], by simp [Queue.init, claims, releases, completions]⟩

theorem accounted_step {op : QueueOp} {jobs : JobTable} {trace : List (QueueOp × Answer)}
    {id : ℕ} {r r' : JobRow} {e : Effect} (h : Accounted trace id r)
    (hs : RowStep op jobs id r r' e) :
    Accounted (trace ++ [(op, (op.apply jobs).2)]) id r' := by
  obtain ⟨hf, ha, h0, hm, hq, hp, h1, hz⟩ := h
  have hc : claims (trace ++ [(op, (op.apply jobs).2)]) id =
      claims trace id + if e = .claimed then 1 else 0 := by
    simp [claims, hs.claim]
  have hl : releases (trace ++ [(op, (op.apply jobs).2)]) id =
      releases trace id + if e = .released then 1 else 0 := by
    simp [releases, hs.release]
  have hd : completions (trace ++ [(op, (op.apply jobs).2)]) id =
      completions trace id + if e = .completed then 1 else 0 := by
    simp [completions, hs.completion]
  have hmax := hs.same.maxAttempts
  have hmv := hs.moves
  cases e with
  | kept =>
    obtain rfl : r' = r := hmv
    exact ⟨by rw [hc, hf]; rfl, by rw [hc, hl, ha]; rfl, h0, hm, hq, hp, by rw [hd]; exact h1,
      fun h => by rw [hd]; exact hz h⟩
  | claimed =>
    obtain ⟨hst, hst', hatt, hfen⟩ := hmv
    have := hq hst
    have hz' := hz (by simp [hst])
    constructor <;> simp_all <;> omega
  | renewed =>
    obtain ⟨hst, hst', hatt, hfen⟩ := hmv
    have hz' := hz (by simp [hst])
    constructor <;> simp_all
  | completed =>
    obtain ⟨hst, hst', hatt, hfen⟩ := hmv
    have hz' := hz (by simp [hst])
    constructor <;> simp_all
  | released =>
    obtain ⟨hst, hst', hatt, hfen⟩ := hmv
    have := hp hst
    have hz' := hz (by simp [hst])
    constructor <;> simp_all <;> omega
  | failed s =>
    obtain ⟨hst, hst', hto, hatt, hfen⟩ := hmv
    have hz' := hz (by simp [hst])
    rcases hto with ⟨rfl, hlt⟩ | rfl <;> constructor <;> simp_all
  | reaped =>
    obtain ⟨hst, hto, hatt, hfen⟩ := hmv
    have hz' := hz (by simp [hst])
    rcases hto with ⟨hto, hlt⟩ | hto <;> constructor <;> simp_all

/-- An operation says nothing about a job that does not exist, and can only create it fresh. -/
theorem apply_absent (op : QueueOp) {jobs : JobTable} {id : ℕ} (hr : jobs.get? id = none) :
    (isClaim id (op, (op.apply jobs).2) = false ∧ isRelease id (op, (op.apply jobs).2) = false ∧
      isCompletion id (op, (op.apply jobs).2) = false) ∧
    ∀ r, (op.apply jobs).1.get? id = some r →
      ∃ now e, op = .enqueue now e ∧ r = Jobs.rowOf now e := by
  have hne : ∀ job : Job, Jobs.holds job jobs = true → job.id ≠ id := by
    intro job hh heq
    obtain ⟨s, hs, -⟩ := Jobs.holds_iff.mp hh
    rw [heq, hr] at hs
    cases hs
  have hmod : ∀ (f : JobRow → JobRow) (i : ℕ) r, (jobs.modify i f).get? id = some r → False := by
    intro f i r h
    rw [Table.get?_modify, hr] at h
    split at h <;> cases h
  cases op with
  | enqueue now e =>
    simp only [QueueOp.apply]
    cases h : Jobs.enqueue now e jobs with
    | error err => simp [answer, Except.map, hr, isClaim, isRelease, isCompletion]
    | ok x =>
      refine ⟨⟨rfl, rfl, rfl⟩, fun r h' => ⟨now, e, rfl, ?_⟩⟩
      rcases Jobs.enqueue_ok h with ⟨-, hj, -⟩ | ⟨-, hj, -⟩
      · simp [answer, Except.map, hj, hr] at h'
      · simp only [answer, Except.map, hj, Table.get?_insert] at h'
        split at h'
        · exact (Option.some.inj h').symm
        · rw [hr] at h'; cases h'
  | claim now owner ttl mp kinds locked =>
    simp only [QueueOp.apply]
    rcases hc : Jobs.claim now owner ttl mp kinds locked jobs with ⟨jobs', _ | job⟩
    · refine ⟨⟨rfl, rfl, rfl⟩, fun r h' => ?_⟩
      simp [Jobs.claim_none hc, hr] at h'
    · obtain ⟨s, hs, -, -, hj, -, -⟩ := Jobs.claim_some hc
      have hid : job.id ≠ id := by rintro rfl; rw [hr] at hs; cases hs
      refine ⟨⟨by simp [isClaim, hid], rfl, rfl⟩, fun r h' => ?_⟩
      rw [hj] at h'
      exact (hmod _ _ _ h').elim
  | heartbeat now job ttl =>
    refine ⟨⟨rfl, rfl, rfl⟩, fun r h' => ?_⟩
    simp only [QueueOp.apply, Jobs.heartbeat] at h'
    split at h'
    · exact (hmod _ _ _ h').elim
    · rw [hr] at h'; cases h'
  | assertFence job =>
    simp only [QueueOp.apply]
    cases Jobs.assertFence job jobs <;>
      simp [answer, Except.map, hr, isClaim, isRelease, isCompletion]
  | complete now job =>
    simp only [QueueOp.apply]
    cases h : Jobs.complete now job jobs with
    | error err => simp [answer, Except.map, hr, isClaim, isRelease, isCompletion]
    | ok jobs' =>
      obtain ⟨hh, hj⟩ := Jobs.finish_ok.mp h
      refine ⟨⟨rfl, rfl, by simp [answer, Except.map, isCompletion, hne job hh]⟩, fun r h' => ?_⟩
      simp only [answer, Except.map, hj] at h'
      exact (hmod _ _ _ h').elim
  | fail now job error retryable base max jitter =>
    simp only [QueueOp.apply]
    cases h : Jobs.fail now job error retryable base max jitter jobs with
    | error err => simp [answer, Except.map, hr, isClaim, isRelease, isCompletion]
    | ok x =>
      obtain ⟨s, -, hh, -, hj⟩ := Jobs.fail_ok (s := x.2) h
      refine ⟨⟨rfl, rfl, rfl⟩, fun r h' => ?_⟩
      simp only [answer, Except.map, hj] at h'
      exact (hmod _ _ _ h').elim
  | release now job =>
    simp only [QueueOp.apply]
    cases h : Jobs.release now job jobs with
    | error err => simp [answer, Except.map, hr, isClaim, isRelease, isCompletion]
    | ok jobs' =>
      obtain ⟨hh, hj⟩ := Jobs.finish_ok.mp h
      refine ⟨⟨rfl, by simp [answer, Except.map, isRelease, hne job hh], rfl⟩, fun r h' => ?_⟩
      simp only [answer, Except.map, hj] at h'
      exact (hmod _ _ _ h').elim
  | reap now locked =>
    refine ⟨⟨rfl, rfl, rfl⟩, fun r h' => ?_⟩
    simp [QueueOp.apply, Jobs.reap, hr] at h'

theorem absent_step {trace : List (QueueOp × Answer)} {id : ℕ} {x : QueueOp × Answer}
    (h : claims trace id = 0 ∧ releases trace id = 0 ∧ completions trace id = 0)
    (hx : isClaim id x = false ∧ isRelease id x = false ∧ isCompletion id x = false) :
    claims (trace ++ [x]) id = 0 ∧ releases (trace ++ [x]) id = 0 ∧
      completions (trace ++ [x]) id = 0 := by
  simp only [claims, releases, completions] at h ⊢
  simp [h, hx]

theorem Queue.step_inv {q q' : Queue} {op : QueueOp} (h : q.Inv) (hv : q.Valid op)
    (hs : q.step op = some q') : q'.Inv := by
  obtain rfl := Option.some.inj hs
  refine ⟨fun id r' hr' => ?_, fun id hr' => ?_⟩
  · cases hr : q.jobs.get? id with
    | some r =>
      obtain ⟨s, e, hs', hstep⟩ := apply_row op q.jobs hr
      obtain rfl : s = r' := by rw [hs'] at hr'; exact Option.some.inj hr'
      exact accounted_step (h.rows id r hr) hstep
    | none =>
      obtain ⟨⟨hc, hl, hd⟩, hnew⟩ := apply_absent op hr
      obtain ⟨now, e, rfl, rfl⟩ := hnew r' hr'
      have hv : 1 ≤ e.maxAttempts := hv
      obtain ⟨h1, h2, h3⟩ := absent_step (h.absent id hr) ⟨hc, hl, hd⟩
      exact ⟨h1.symm, by rw [h1, h2]; rfl, le_rfl, by simp only [Jobs.rowOf]; omega,
        fun _ => by simp only [Jobs.rowOf]; omega, by simp [Jobs.rowOf], by rw [h3]; omega,
        fun _ => h3⟩
  · cases hr : q.jobs.get? id with
    | some r =>
      obtain ⟨s, e, hs', -⟩ := apply_row op q.jobs hr
      rw [hs'] at hr'
      cases hr'
    | none =>
      obtain ⟨⟨hc, hl, hd⟩, -⟩ := apply_absent op hr
      exact absent_step (h.absent id hr) ⟨hc, hl, hd⟩

/-- A row and the row it becomes: what is fixed at enqueue stays, the fence never decreases,
and `done` and `dead` are never left. -/
structure Later (r r' : JobRow) : Prop where
  same : SameJob r r'
  fence : r.fence ≤ r'.fence
  absorbing : r.status = .done ∨ r.status = .dead → r'.status = r.status

theorem Later.refl (r : JobRow) : Later r r := ⟨.refl r, le_rfl, fun _ => rfl⟩

theorem Later.trans (r s t : JobRow) (h : Later r s) (h' : Later s t) : Later r t :=
  ⟨h.same.trans h'.same, h.fence.trans h'.fence, fun hr => by
    have hs := h.absorbing hr
    rw [h'.absorbing (by rwa [hs]), hs]⟩

theorem RowStep.later {op : QueueOp} {jobs : JobTable} {id : ℕ} {r r' : JobRow} {e : Effect}
    (h : RowStep op jobs id r r' e) : Later r r' := by
  have hm := h.moves
  refine ⟨h.same, ?_, fun hst => ?_⟩
  · cases e <;> simp only [Effect.Moves] at hm
    case kept => exact hm ▸ le_rfl
    case claimed => omega
    case renewed => omega
    case completed => omega
    case released => omega
    case failed => omega
    case reaped => omega
  · cases e <;> simp only [Effect.Moves] at hm
    case kept => rw [hm]
    all_goals exact absurd hm.1 (by rcases hst with h | h <;> simp [h])

theorem Queue.run_later {q q' : Queue} {ops : List QueueOp} (h : Runs.run Queue.step q ops = some q') :
    Table.Keeps Later q.jobs q'.jobs := by
  refine Runs.related (P := fun _ => True) (R := fun q q' => Table.Keeps Later q.jobs q'.jobs)
    (fun q => .refl Later.refl q.jobs) ?_ (fun _ _ _ _ _ => trivial) (fun q op q' _ hs => ?_) h trivial
  · intro a b c hab hbc
    exact Table.Keeps.trans Later.trans hab hbc
  obtain rfl := Option.some.inj hs
  intro id r hr
  obtain ⟨r', e, hr', hstep⟩ := apply_row op q.jobs hr
  exact ⟨r', hr', hstep.later⟩

theorem holder_only {op : QueueOp} {job : Job} (jobs : JobTable) (h : op.handle? = some job) :
    ((op.apply jobs).2.granted = true ↔ Jobs.holds job jobs = true) ∧
      ((op.apply jobs).2.granted = false → (op.apply jobs).1 = jobs) := by
  cases op <;> simp only [QueueOp.handle?, Option.some.injEq, reduceCtorEq] at h
  case heartbeat now j ttl =>
    subst h
    by_cases hh : Jobs.holds j jobs = true <;>
      simp [QueueOp.apply, Jobs.heartbeat, Answer.granted, hh]
  case assertFence j =>
    subst h
    by_cases hh : Jobs.holds j jobs = true <;>
      simp [QueueOp.apply, Jobs.assertFence, answer, Except.map, Answer.granted, hh]
  case complete now j =>
    subst h
    by_cases hh : Jobs.holds j jobs = true <;>
      simp [QueueOp.apply, Jobs.complete, Jobs.finish, answer, Except.map, Answer.granted, hh]
  case release now j =>
    subst h
    by_cases hh : Jobs.holds j jobs = true <;>
      simp [QueueOp.apply, Jobs.release, Jobs.finish, answer, Except.map, Answer.granted, hh]
  case fail now j error retryable base max jitter =>
    subst h
    by_cases hh : Jobs.holds j jobs = true
    · obtain ⟨r, hr, -⟩ := Jobs.holds_iff.mp hh
      simp [QueueOp.apply, Jobs.fail, answer, Except.map, Answer.granted, hh, hr]
    · cases hr : jobs.get? j.id <;>
        simp [QueueOp.apply, Jobs.fail, answer, Except.map, Answer.granted, hh, hr]

/-- What holds of a queue in every state a run reaches, and of every run on from there. -/
structure Fenced (q : Queue) : Prop where
  /-- The fence rises at each claim; the claimer is told the new one, and it counts the claims. -/
  claim_raises : ∀ now owner ttl mp kinds locked jobs' job,
    Jobs.claim now owner ttl mp kinds locked q.jobs = (jobs', some job) →
    ∃ r r', q.jobs.get? job.id = some r ∧ jobs'.get? job.id = some r' ∧
      r.fence < r'.fence ∧ job.fence = r'.fence
  fence_latest : ∀ id r, q.jobs.get? id = some r → r.fence = claims q.trace id
  /-- Renewing, asserting, completing, failing and releasing are granted to the holder of the
  latest fence of a running job, and change nothing for anyone else. -/
  holder_only : ∀ (op : QueueOp) (job : Job), op.handle? = some job →
    ((op.apply q.jobs).2.granted = true ↔
      ∃ r, q.jobs.get? job.id = some r ∧ r.fence = job.fence ∧ r.status = .running) ∧
    ((op.apply q.jobs).2.granted = false → (op.apply q.jobs).1 = q.jobs)
  absorbing : ∀ ops q', Runs.run Queue.step q ops = some q' → ∀ id r, q.jobs.get? id = some r →
    r.status = .done ∨ r.status = .dead → ∃ r', q'.jobs.get? id = some r' ∧ r'.status = r.status
  completed_once : ∀ id, completions q.trace id ≤ 1
  attempts : ∀ id r, q.jobs.get? id = some r →
    0 ≤ r.attempts ∧ r.attempts ≤ r.maxAttempts ∧
      (r.status = .queued → r.attempts < r.maxAttempts) ∧
      r.attempts = (claims q.trace id : ℤ) - releases q.trace id
  fixed : ∀ ops q', Runs.run Queue.step q ops = some q' → ∀ id r, q.jobs.get? id = some r →
    ∃ r', q'.jobs.get? id = some r' ∧ r'.priority = r.priority ∧ r'.sortKey = r.sortKey ∧
      r.fence ≤ r'.fence

theorem queue_fenced {ops : List QueueOp} {q : Queue} (h : Runs.run Queue.step .init ops = some q)
    (hv : Runs.Admits Queue.step Queue.Valid .init ops) : Fenced q := by
  have hinv : q.Inv := Runs.invariant_under (P := Queue.Inv)
    (fun _ _ _ hi hok hs => Queue.step_inv hi hok hs) h hv Queue.init_inv
  refine ⟨?_, fun id r hr => (hinv.rows id r hr).fence, ?_, ?_, fun id => ?_, ?_, ?_⟩
  · intro now owner ttl mp kinds locked jobs' job hc
    obtain ⟨r, hr, -, -, hj, hjob, -⟩ := Jobs.claim_some hc
    refine ⟨r, Jobs.leased now owner ttl r, hr, by simp [hj, hr], Nat.lt_succ_self _, ?_⟩
    rw [hjob]
    rfl
  · intro op job hop
    rw [← Jobs.holds_iff]
    exact Blackboard.holder_only q.jobs hop
  · intro ops' q' hrun id r hr hst
    obtain ⟨r', hr', hl⟩ := Queue.run_later hrun id r hr
    exact ⟨r', hr', hl.absorbing hst⟩
  · cases hr : q.jobs.get? id with
    | none => rw [(hinv.absent id hr).2.2]; exact Nat.zero_le 1
    | some r => exact (hinv.rows id r hr).once
  · intro id r hr
    have ha := hinv.rows id r hr
    exact ⟨ha.nonneg, ha.le_max, ha.queued_lt, ha.attempts⟩
  · intro ops' q' hrun id r hr
    obtain ⟨r', hr', hl⟩ := Queue.run_later hrun id r hr
    exact ⟨r', hr', hl.same.priority, hl.same.sortKey, hl.fence⟩

/-- A job claimed, reaped and claimed again. -/
theorem queue_fenced_reclaimed :
    let ops : List QueueOp :=
      [.enqueue 0 { tenantId := "t1", kind := .triage, priority := 1, maxAttempts := 3, agingStepS := 60 },
        .claim 1 "w1" 30 3 none (fun _ => false), .reap 40 (fun _ => false),
        .claim 41 "w2" 30 3 none (fun _ => false)]
    ∃ q, Runs.run Queue.step .init ops = some q ∧ Fenced q := by
  intro ops
  refine ⟨_, rfl, @queue_fenced ops _ rfl ?_⟩
  exact ⟨(by decide : (1 : ℤ) ≤ 3),
    fun _ _ => ⟨trivial, fun _ _ => ⟨trivial, fun _ _ => ⟨trivial, fun _ _ => trivial⟩⟩⟩⟩

end Blackboard
