import Blackboard.Proofs.Checkpoints

/-! One attempt holds the job. An incident has one investigate job, and each claim of it raises
the fence: so of all the attempts only the last can still write. -/

namespace Blackboard.Agents

/-- A row of the incident's investigation. -/
def oursRow (setup : Setup) (r : JobRow) : Prop := r.kind = .investigate ∧ r.incidentId = some setup.incidentId

/-- The rows of the queue that an attempt may come from. -/
structure OneJob (setup : Setup) (jobs : JobTable) : Prop where
  keyed : ∀ i r, jobs.get? i = some r → oursRow setup r →
    r.idempotencyKey = some (.incident setup.incidentId .investigate)
  one : ∀ i j r r', jobs.get? i = some r → jobs.get? j = some r' → oursRow setup r → oursRow setup r' → i = j

structure Leases (setup : Setup) (s : World) : Prop where
  jobs : OneJob setup s.jobs
  fence : ∀ k a, s.attempts.get? k = some a → ∃ r, s.jobs.get? a.job.id = some r ∧ oursRow setup r ∧
    a.job.fence ≤ r.fence
  rising : ∀ k l a b, s.attempts.get? k = some a → s.attempts.get? l = some b → k < l → a.job.fence < b.job.fence

theorem SameJob.oursRow {setup : Setup} {r r' : JobRow} (h : SameJob r r') : oursRow setup r' ↔ oursRow setup r := by
  rw [Agents.oursRow, Agents.oursRow, h.kind, h.incidentId]

/-- No lease comes back. -/
theorem holds_of_apply {q : QueueOp} {jobs : JobTable} {job : Job} {r : JobRow} (hr : jobs.get? job.id = some r)
    (hf : job.fence ≤ r.fence) (h : Jobs.holds job (q.apply jobs).1 = true) : Jobs.holds job jobs = true := by
  obtain ⟨r', e, hr', hstep⟩ := apply_row q jobs hr
  obtain ⟨x, hx, hfence, hrun⟩ := Jobs.holds_iff.mp h
  obtain rfl : r' = x := by rw [hr'] at hx; exact Option.some.inj hx
  refine Jobs.holds_iff.mpr ⟨r, hr, ?_⟩
  have hm := hstep.moves
  cases e <;> simp only [Effect.Moves] at hm
  case kept =>
    subst hm
    exact ⟨hfence, hrun⟩
  case claimed => omega
  case renewed => exact ⟨by omega, hm.1⟩
  case completed => exact ⟨by omega, hm.1⟩
  case released => exact ⟨by omega, hm.1⟩
  case failed => exact ⟨by omega, hm.1⟩
  case reaped => exact ⟨by omega, hm.1⟩

theorem OneJob.apply {setup : Setup} {jobs : JobTable} {q : QueueOp} (h : OneJob setup jobs)
    (hq : World.allowed q = true) :
    OneJob setup (q.apply jobs).1 := by
  -- a row after the operation: one that was there, or the one just enqueued
  have hrow : ∀ i r', (q.apply jobs).1.get? i = some r' → oursRow setup r' →
      r'.idempotencyKey = some (.incident setup.incidentId .investigate) ∧
        ((∃ r, jobs.get? i = some r ∧ oursRow setup r) ∨
          jobs.get? i = none ∧ ∃ now e, q = .enqueue now e ∧ r' = Jobs.rowOf now e) := by
    intro i r' hr' ho
    cases hr : jobs.get? i with
    | some r =>
      obtain ⟨x, e, hx, hstep⟩ := apply_row q jobs hr
      obtain rfl : x = r' := by rw [hx] at hr'; exact Option.some.inj hr'
      have hor := (SameJob.oursRow hstep.same).mp ho
      exact ⟨hstep.same.idempotencyKey.trans (h.keyed i r hr hor), .inl ⟨r, rfl, hor⟩⟩
    | none =>
      obtain ⟨now, e, rfl, rfl⟩ := (apply_absent q hr).2 r' hr'
      refine ⟨?_, .inr ⟨rfl, now, e, rfl, rfl⟩⟩
      obtain ⟨hk, hi⟩ : e.kind = .investigate ∧ e.incidentId = some setup.incidentId := ho
      have hkey : e.idempotencyKey = e.incidentId.map fun id => Key.incident id .investigate := by
        simpa [World.allowed, hk] using hq
      rw [Jobs.rowOf, hkey, hi, Option.map_some]
  refine ⟨fun i r hr ho => (hrow i r hr ho).1, fun i j r r' hi hj ho ho' => ?_⟩
  -- a second row would have been refused by the unique index
  have hnew : ∀ {i j : ℕ} {x : JobRow} {now : Time} {e : Enqueue}, q = .enqueue now e → jobs.get? i = none →
      (q.apply jobs).1.get? i = some (Jobs.rowOf now e) → oursRow setup (Jobs.rowOf now e) →
      jobs.get? j = some x → oursRow setup x → False := by
    rintro i j x now e rfl hni hi ho hj hx
    have hkey := (hrow i _ hi ho).1
    have hxkey := h.keyed j x hj hx
    simp only [QueueOp.apply] at hi
    cases he : Jobs.enqueue now e jobs with
    | error err =>
      rw [he] at hi
      simp only [Except.map, answer, hni] at hi
      cases hi
    | ok y =>
      rw [he] at hi
      rcases Jobs.enqueue_ok he with ⟨-, hy, -⟩ | ⟨hfree, -, -⟩
      · simp only [Except.map, answer, hy, hni] at hi
        cases hi
      · have hekey : e.idempotencyKey = some (.incident setup.incidentId .investigate) := hkey
        rw [hekey, Jobs.keyTaken_eq_false] at hfree
        exact hfree j x hj hxkey
  rcases (hrow i r hi ho).2 with ⟨x, hx, hox⟩ | ⟨hni, now, e, hq', rfl⟩
  · rcases (hrow j r' hj ho').2 with ⟨y, hy, hoy⟩ | ⟨hnj, now, e, hq', rfl⟩
    · exact h.one i j x y hx hy hox hoy
    · exact (hnew hq' hnj hj ho' hx hox).elim
  · rcases (hrow j r' hj ho').2 with ⟨y, hy, hoy⟩ | ⟨hnj, now', e', hq'', rfl⟩
    · exact (hnew hq' hni hi ho hy hoy).elim
    · -- both are the row just inserted
      subst hq'
      simp only [QueueOp.apply] at hi hj
      cases he : Jobs.enqueue now e jobs with
      | error err =>
        rw [he] at hi
        simp only [Except.map, answer, hni] at hi
        cases hi
      | ok y =>
        rw [he] at hi hj
        rcases Jobs.enqueue_ok he with ⟨-, hy, -⟩ | ⟨-, hy, -⟩
        · simp only [Except.map, answer, hy, hni] at hi
          cases hi
        · simp only [Except.map, answer, hy, Table.get?_insert, hni, hnj] at hi hj
          split_ifs at hi hj with h1 h2
          exact h1.trans h2.symm

/-- The claimer's fence is one above the row's. -/
theorem claimed_apply {q : QueueOp} {jobs : JobTable} {job : Job} (h : (q.apply jobs).2 = .claimed (some job)) :
    ∃ r r', jobs.get? job.id = some r ∧ (q.apply jobs).1.get? job.id = some r' ∧ SameJob r r' ∧ r'.fence = r.fence + 1 ∧
      job.fence = r.fence + 1 ∧ job.kind = r.kind ∧ job.incidentId = r.incidentId := by
  cases q with
  | claim now owner ttl mp kinds locked =>
    simp only [QueueOp.apply] at h ⊢
    rcases hc : Jobs.claim now owner ttl mp kinds locked jobs with ⟨jobs', _ | job'⟩
    · rw [hc] at h
      cases h
    · rw [hc] at h
      obtain rfl : job' = job := Option.some.inj (Answer.claimed.inj h)
      obtain ⟨r, hr, -, -, rfl, hfrom, -⟩ := Jobs.claim_some hc
      refine ⟨r, _, hr, by rw [Table.get?_modify_self, hr]; rfl, .leased now ttl owner r, rfl, ?_⟩
      rw [hfrom]
      exact ⟨rfl, rfl, rfl⟩
  | enqueue now e =>
    simp only [QueueOp.apply] at h
    cases hx : Jobs.enqueue now e jobs <;> rw [hx] at h <;> cases h
  | assertFence j =>
    simp only [QueueOp.apply] at h
    cases hx : Jobs.assertFence j jobs <;> rw [hx] at h <;> cases h
  | complete now j =>
    simp only [QueueOp.apply] at h
    cases hx : Jobs.complete now j jobs <;> rw [hx] at h <;> cases h
  | fail now j error retryable base max jitter =>
    simp only [QueueOp.apply] at h
    cases hx : Jobs.fail now j error retryable base max jitter jobs <;> rw [hx] at h <;> cases h
  | release now j =>
    simp only [QueueOp.apply] at h
    cases hx : Jobs.release now j jobs <;> rw [hx] at h <;> cases h
  | heartbeat | reap => cases h

namespace Leases

variable {setup : Setup} {s : World}

theorem fresh (setup : Setup) (incident : Incident) (evidence : List EvidenceRow) :
    Leases setup (.fresh incident evidence) :=
  ⟨⟨fun _ _ h => by simp [World.fresh] at h, fun _ _ _ _ h => by simp [World.fresh] at h⟩,
    fun _ _ h => by simp [World.fresh] at h, fun _ _ _ _ h => by simp [World.fresh] at h⟩

/-- The last attempt holds the job, or none does. -/
theorem holder_unique (h : Leases setup s) {k l : ℕ} {a b : Attempt} (ha : s.attempts.get? k = some a)
    (hb : s.attempts.get? l = some b) (hka : Jobs.holds a.job s.jobs = true) (hlb : Jobs.holds b.job s.jobs = true) :
    k = l := by
  obtain ⟨r, hr, ho, hle⟩ := h.fence k a ha
  obtain ⟨r', hr', ho', hle'⟩ := h.fence l b hb
  obtain ⟨x, hx, hfa, -⟩ := Jobs.holds_iff.mp hka
  obtain ⟨y, hy, hfb, -⟩ := Jobs.holds_iff.mp hlb
  have hid := h.jobs.one _ _ _ _ hr hr' ho ho'
  obtain rfl : r = x := by rw [hr] at hx; exact Option.some.inj hx
  obtain rfl : r = y := by rw [← hid, hr] at hy; exact Option.some.inj hy
  rcases Nat.lt_trichotomy k l with hlt | heq | hlt
  · have := h.rising k l a b ha hb hlt
    omega
  · exact heq
  · have := h.rising l k b a hb ha hlt
    omega

/-- The queue moves, and no attempt begins. -/
theorem apply (h : Leases setup s) {q : QueueOp} (hq : World.allowed q = true) :
    Leases setup { s with jobs := (q.apply s.jobs).1 } := by
  refine ⟨h.jobs.apply hq, fun k a ha => ?_, h.rising⟩
  obtain ⟨r, hr, ho, hle⟩ := h.fence k a ha
  obtain ⟨r', e, hr', hstep⟩ := apply_row q s.jobs hr
  exact ⟨r', hr', (SameJob.oursRow hstep.same).mpr ho, hle.trans hstep.later.fence⟩

/-- A claim of the investigation: the new attempt has the highest fence. -/
theorem queued (h : Leases setup s) {q : QueueOp} (hq : World.allowed q = true) : Leases setup (s.queued setup q) := by
  have happly := h.apply hq
  unfold World.queued
  dsimp only
  split
  case h_2 => exact happly
  case h_1 job hjob =>
    split_ifs with hours
    · obtain ⟨r, r', hr, hr', hsame, hfence', hfence, hkind, hinc⟩ := claimed_apply hjob
      have hor : oursRow setup r := by
        simpa [oursRow, ← hkind, ← hinc, World.isOurs] using hours
      have hold : ∀ {k a}, s.attempts.get? k = some a → a.job.fence < job.fence := by
        intro k a ha
        obtain ⟨x, hx, hox, hle⟩ := h.fence k a ha
        have hid := h.jobs.one _ _ _ _ hx hr hox hor
        obtain rfl : x = r := by rw [hid, hr] at hx; exact (Option.some.inj hx).symm
        omega
      refine ⟨happly.jobs, fun k a ha => ?_, fun k l a b ha hb hlt => ?_⟩
      · rw [Table.get?_insert] at ha
        split_ifs at ha with hk
        · obtain rfl := Option.some.inj ha
          exact ⟨r', hr', (SameJob.oursRow hsame).mpr hor, (hfence.trans hfence'.symm).le⟩
        · exact happly.fence k a ha
      · rw [Table.get?_insert] at ha hb
        split_ifs at ha hb with hk hl hl
        · omega
        · have := Table.lt_size hb
          omega
        · obtain rfl := Option.some.inj hb
          exact hold ha
        · exact h.rising k l a b ha hb hlt
    · exact happly

/-- A step of an attempt keeps its job. -/
theorem set (h : Leases setup s) {k : ℕ} {a a' : Attempt} (ha : s.attempts.get? k = some a) (hjob : a'.job = a.job) :
    Leases setup (s.set k a') := by
  have hget : ∀ {j b}, (s.set k a').attempts.get? j = some b → ∃ c, s.attempts.get? j = some c ∧ b.job = c.job := by
    intro j b hb
    rcases World.get?_set hb with ⟨rfl, rfl⟩ | ⟨-, hj⟩
    · exact ⟨a, ha, hjob⟩
    · exact ⟨b, hj, rfl⟩
  refine ⟨h.jobs, fun j b hb => ?_, fun i j b c hb hc hlt => ?_⟩
  · obtain ⟨c, hc, hbc⟩ := hget hb
    rw [hbc]
    exact h.fence j c hc
  · obtain ⟨x, hx, hbx⟩ := hget hb
    obtain ⟨y, hy, hcy⟩ := hget hc
    rw [hbx, hcy]
    exact h.rising i j x y hx hy hlt

end Leases

/-- What a move of an attempt does to the queue. -/
theorem Move.jobs_cases {setup : Setup} {s u : World} {k : ℕ} {a a' : Attempt} (h : Move setup s k a u a') :
    u.jobs = s.jobs ∨ ∃ q, World.allowed q = true ∧ u.jobs = (q.apply s.jobs).1 := by
  induction h
  case diagnosed hj =>
    rcases hj with hj | ⟨e, hk, hj⟩
    · exact .inl hj
    · exact .inr ⟨_, by simp [World.allowed, hk], hj⟩
  all_goals exact .inl rfl

theorem Move.job {setup : Setup} {s u : World} {k : ℕ} {a a' : Attempt} (h : Move setup s k a u a') :
    a'.job = a.job := by
  induction h
  case boardReread =>
    unfold Attempt.synthesize
    split <;> rfl
  all_goals rfl

theorem Move.leases {setup : Setup} {s u : World} {k : ℕ} {a a' : Attempt} (h : Move setup s k a u a')
    (hs : Leases setup s) :
    Leases setup u := by
  rcases h.jobs_cases with hj | ⟨q, hq, hj⟩
  · exact ⟨by rw [hj]; exact hs.jobs, by rw [hj, h.attempts]; exact hs.fence, by rw [h.attempts]; exact hs.rising⟩
  · have := hs.apply hq
    exact ⟨by rw [hj]; exact this.jobs, by rw [hj, h.attempts]; exact this.fence, by rw [h.attempts]; exact this.rising⟩

theorem World.step_leases {setup : Setup} {s s' : World} {op : Op} (h : s.step setup op = some s')
    (hs : Leases setup s) :
    Leases setup s' := by
  rcases step_cases h with ⟨k, a, u, a', ha, rfl, hm⟩ | ⟨q, hq, rfl⟩ | rfl | ⟨now, x, -, rfl⟩ | ⟨row, rfl⟩
  · exact (hm.leases hs).set (hm.attempts.symm ▸ ha) hm.job
  · exact hs.queued hq
  · exact hs
  · exact ⟨hs.jobs, hs.fence, hs.rising⟩
  · exact ⟨hs.jobs, hs.fence, hs.rising⟩

end Blackboard.Agents
