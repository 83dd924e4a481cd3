import Mathlib.Data.Nat.Cast.Order.Ring
import Mathlib.Tactic.Linarith
import Blackboard.Proofs.Fencing

/-! Priority aging. A row's sort key is its enqueue time plus priority times the aging step,
and no operation rewrites any of the three, so the order of the claim is the order of aging
at every later time. `Recorded` ties the rows to the enqueue calls of the trace. -/

namespace Blackboard

/-- The call that created job `id`: the time its transaction started, and its arguments. -/
def EnqueuedAs (trace : List (QueueOp × Answer)) (id : ℕ) (now : Time) (e : Enqueue) : Prop :=
  (QueueOp.enqueue now e, Answer.enqueued (some id)) ∈ trace

structure Recorded (agingStepS : Time) (q : Queue) : Prop where
  row : ∀ id now e, EnqueuedAs q.trace id now e →
    ∃ r, q.jobs.get? id = some r ∧ SameJob (Jobs.rowOf now e) r
  origin : ∀ id r, q.jobs.get? id = some r → ∃ now e, EnqueuedAs q.trace id now e
  step : ∀ id now e, EnqueuedAs q.trace id now e → e.agingStepS = agingStepS

theorem Recorded.init (agingStepS : Time) : Recorded agingStepS .init :=
  ⟨by simp [Queue.init, EnqueuedAs], by simp [Queue.init], by simp [Queue.init, EnqueuedAs]⟩

/-- Only an enqueue that found its key free answers with an id. -/
theorem apply_enqueued {op : QueueOp} {jobs : JobTable} {id : ℕ}
    (h : (op.apply jobs).2 = .enqueued (some id)) :
    ∃ now e, op = .enqueue now e ∧ id = jobs.size ∧
      (op.apply jobs).1 = jobs.insert (Jobs.rowOf now e) := by
  cases op with
  | enqueue now e =>
    refine ⟨now, e, rfl, ?_⟩
    simp only [QueueOp.apply] at h ⊢
    cases hq : Jobs.enqueue now e jobs with
    | error err => simp [hq, answer, Except.map] at h
    | ok x =>
      simp only [hq, answer, Except.map, Answer.enqueued.injEq] at h ⊢
      rcases Jobs.enqueue_ok hq with ⟨-, -, hi⟩ | ⟨-, hj, hi⟩
      · rw [h] at hi; cases hi
      · exact ⟨Option.some.inj (h.symm.trans hi), hj⟩
  | claim now owner ttl mp kinds locked => simp [QueueOp.apply] at h
  | heartbeat now job ttl => simp [QueueOp.apply] at h
  | assertFence job =>
    simp only [QueueOp.apply] at h
    cases hq : Jobs.assertFence job jobs <;> simp [hq, answer, Except.map] at h
  | complete now job =>
    simp only [QueueOp.apply] at h
    cases hq : Jobs.complete now job jobs <;> simp [hq, answer, Except.map] at h
  | fail now job error retryable base max jitter =>
    simp only [QueueOp.apply] at h
    cases hq : Jobs.fail now job error retryable base max jitter jobs <;>
      simp [hq, answer, Except.map] at h
  | release now job =>
    simp only [QueueOp.apply] at h
    cases hq : Jobs.release now job jobs <;> simp [hq, answer, Except.map] at h
  | reap now locked => simp [QueueOp.apply] at h

/-- A row that was not there was created by this very call, which answers with its id. -/
theorem apply_created {op : QueueOp} {jobs : JobTable} {id : ℕ} {r : JobRow}
    (hr : jobs.get? id = none) (hr' : (op.apply jobs).1.get? id = some r) :
    ∃ now e, op = .enqueue now e ∧ (op.apply jobs).2 = .enqueued (some id) := by
  obtain ⟨-, hnew⟩ := apply_absent op hr
  obtain ⟨now, e, rfl, -⟩ := hnew r hr'
  refine ⟨now, e, rfl, ?_⟩
  simp only [QueueOp.apply] at hr' ⊢
  cases hq : Jobs.enqueue now e jobs with
  | error err => simp [hq, answer, Except.map, hr] at hr'
  | ok x =>
    simp only [hq, answer, Except.map] at hr' ⊢
    rcases Jobs.enqueue_ok hq with ⟨-, hj, -⟩ | ⟨-, hj, hi⟩
    · rw [hj, hr] at hr'; cases hr'
    · rw [hj, Table.get?_insert] at hr'
      split at hr'
      · rw [hi]; simp_all
      · rw [hr] at hr'; cases hr'

theorem Recorded.next {agingStepS : Time} {q q' : Queue} {op : QueueOp}
    (h : Recorded agingStepS q) (hok : q.SameStep agingStepS op) (hs : q.step op = some q') :
    Recorded agingStepS q' := by
  obtain rfl := Option.some.inj hs
  refine ⟨fun id now e he => ?_, fun id r hr => ?_, fun id now e he => ?_⟩
  · rcases List.mem_append.mp he with he | he
    · obtain ⟨r, hr, hsame⟩ := h.row id now e he
      obtain ⟨r', _, hr', hstep⟩ := apply_row op q.jobs hr
      exact ⟨r', hr', hsame.trans hstep.same⟩
    · simp only [List.mem_singleton, Prod.mk.injEq] at he
      obtain ⟨now', e', hop, hid, hj⟩ := apply_enqueued he.2.symm
      rw [hop] at he
      cases he.1
      exact ⟨_, by rw [hj, Table.get?_insert, if_pos hid], .refl _⟩
  · cases hr0 : q.jobs.get? id with
    | some r0 =>
      obtain ⟨now, e, he⟩ := h.origin id r0 hr0
      exact ⟨now, e, List.mem_append_left _ he⟩
    | none =>
      obtain ⟨now, e, hop, hans⟩ := apply_created hr0 hr
      refine ⟨now, e, List.mem_append_right _ ?_⟩
      rw [← hop, ← hans]
      exact List.mem_singleton_self _
  · rcases List.mem_append.mp he with he | he
    · exact h.step id now e he
    · simp only [List.mem_singleton, Prod.mk.injEq] at he
      rw [← he.1] at hok
      exact hok

/-- The call that created a job is unique: every entry agrees with the job's row. -/
theorem Recorded.sortKey {agingStepS : Time} {q : Queue} (h : Recorded agingStepS q) {id : ℕ}
    {now : Time} {e : Enqueue} {r : JobRow} (he : EnqueuedAs q.trace id now e)
    (hr : q.jobs.get? id = some r) :
    r.sortKey = now + e.priority * agingStepS ∧ r.priority = e.priority := by
  obtain ⟨r', hr', hsame⟩ := h.row id now e he
  obtain rfl : r' = r := Option.some.inj (hr' ▸ hr)
  refine ⟨?_, hsame.priority⟩
  rw [hsame.sortKey, Jobs.rowOf, h.step id now e he]

/-- A claim that could have returned `J` but returns `K` returns one that aging puts first:
`K` was not enqueued later than `priority(J)` steps after `J`. The times and priorities are
those of the calls that created the jobs, however often either was retried since. -/
theorem claim_respects_aging {agingStepS : Time} {ops : List QueueOp} {q : Queue}
    (h : Runs.run Queue.step .init ops = some q)
    (hstep : Runs.Admits Queue.step (Queue.SameStep agingStepS) .init ops)
    {now ttl : Time} {owner : String} {mp : ℕ} {kinds : Option (List Kind)} {locked : ℕ → Bool}
    {K : Job} (hK : (Jobs.claim now owner ttl mp kinds locked q.jobs).2 = some K)
    {J : ℕ} {r : JobRow} (hJ : q.jobs.get? J = some r) (hrun : Jobs.runnable now mp kinds r = true)
    (hfree : locked J = false) :
    (∃ nowJ eJ, EnqueuedAs q.trace J nowJ eJ) ∧ (∃ nowK eK, EnqueuedAs q.trace K.id nowK eK) ∧
    ∀ nowJ eJ nowK eK, EnqueuedAs q.trace J nowJ eJ → EnqueuedAs q.trace K.id nowK eK →
      nowK + eK.priority * agingStepS ≤ nowJ + eJ.priority * agingStepS ∧
        (0 ≤ agingStepS → ¬ nowJ + eJ.priority * agingStepS < nowK) := by
  have hrec : Recorded agingStepS q := Runs.invariant_under (P := Recorded agingStepS)
    (fun _ _ _ hi hok hs => hi.next hok hs) h hstep (.init agingStepS)
  obtain ⟨s, hs, -, -, -, -, hmin⟩ := Jobs.claim_some (Prod.ext rfl hK)
  refine ⟨hrec.origin J r hJ, hrec.origin K.id s hs, fun nowJ eJ nowK eK heJ heK => ?_⟩
  have hle : s.sortKey ≤ r.sortKey := hmin J r hJ hrun hfree
  rw [(hrec.sortKey heJ hJ).1, (hrec.sortKey heK hs).1] at hle
  refine ⟨hle, fun h0 hlt => ?_⟩
  have hnn : 0 ≤ (eK.priority : Time) * agingStepS := mul_nonneg (Nat.cast_nonneg _) h0
  linarith

/-- One P1 job that was claimed and reaped, and a P0 job enqueued 61 seconds after it. -/
def requeued : List QueueOp :=
  [.enqueue 0 { tenantId := "t1", kind := .triage, priority := 1, maxAttempts := 3, agingStepS := 60 },
    .claim 1 "w1" 30 3 none (fun _ => false), .reap 40 (fun _ => false),
    .enqueue 61 { tenantId := "t1", kind := .triage, priority := 0, maxAttempts := 3, agingStepS := 60 }]

def requeuedQueue : Queue := (Runs.run Queue.step .init requeued).getD .init

theorem claim_respects_aging_requeued :
    (∃ nowJ eJ, EnqueuedAs requeuedQueue.trace 1 nowJ eJ) ∧
    (∃ nowK eK, EnqueuedAs requeuedQueue.trace 0 nowK eK) ∧
    ∀ nowJ eJ nowK eK, EnqueuedAs requeuedQueue.trace 1 nowJ eJ →
      EnqueuedAs requeuedQueue.trace 0 nowK eK →
      nowK + eK.priority * 60 ≤ nowJ + eJ.priority * 60 ∧
        ((0 : Time) ≤ 60 → ¬ nowJ + eJ.priority * 60 < nowK) :=
  @claim_respects_aging 60 requeued requeuedQueue rfl
    ⟨rfl, fun _ _ => ⟨trivial, fun _ _ => ⟨trivial, fun _ _ => ⟨rfl, fun _ _ => trivial⟩⟩⟩⟩
    62 30 "w2" 3 none (fun _ => false)
    { id := 0, tenantId := "t1", incidentId := none, kind := .triage, payload := {}, priority := 1,
      attempts := 2, maxAttempts := 3, fence := 2, leaseOwner := "w2", waitedS := 62 }
    (by decide +kernel) 1
    (Jobs.rowOf 61
      { tenantId := "t1", kind := .triage, priority := 0, maxAttempts := 3, agingStepS := 60 })
    (by decide +kernel) (by decide +kernel) rfl

end Blackboard
