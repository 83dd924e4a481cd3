import Mathlib.Data.List.Nodup
import Blackboard.Proofs.QueueRows
import Blackboard.Spec.Worker

/-! The slots of a worker. As long as no job is started while an earlier task for it is alive,
`_running` is the list of the tasks alive, so what is counted and what is drained is what
runs. A worker that claims a job back from its own old task loses one of the two. -/

namespace Blackboard.Worker

variable {s : WorkerSettings} {w w' : Worker}

/-- The room the loop has counted, while it acts on it. -/
def Room (s : WorkerSettings) (w : Worker) : Prop :=
  match w.loop with
  | .claiming mp => w.running.length < s.concurrency ∧ (mp ≠ 0 → w.running.length + s.reservedP0Slots < s.concurrency)
  | .claimed job =>
    w.running.length < s.concurrency ∧ (job.priority ≠ 0 → w.running.length + s.reservedP0Slots < s.concurrency)
  | _ => True

def DrainedEntries (w : Worker) : Prop :=
  match w.loop with
  | .waiting tasks => ∀ e ∈ w.running, e.2 ∈ tasks
  | .gathering pending => ∀ e ∈ w.running, e.2 ∈ pending ∧ (w.tasks.get? e.2).any JobTask.cancelled = true
  | .stopped => w.running = []
  | _ => True

structure SlotInv (s : WorkerSettings) (w : Worker) : Prop where
  entry : ∀ e ∈ w.running, ∃ t, w.tasks.get? e.2 = some t ∧ t.alive = true ∧ t.job.id = e.1
  known : ∀ i t, w.tasks.get? i = some t → t.alive = true → (t.job.id, i) ∈ w.running
  keys : (w.running.map Prod.fst).Nodup
  slots : w.running.length ≤ s.concurrency.toNat
  below : (w.running.filter fun e => w.belowP0 e.2).length ≤ (s.concurrency - s.reservedP0Slots).toNat
  room : Room s w
  drained : DrainedEntries w

theorem slotInv_init (jobs : JobTable) : SlotInv s (init jobs) := by
  constructor <;> simp [init, Room, DrainedEntries]

/-- A task keeps its job, and stays alive unless it ends. -/
def TaskFrame (w w' : Worker) : Prop :=
  ∀ i, (w'.tasks.get? i).map (fun t => (t.job, t.alive)) = (w.tasks.get? i).map fun t => (t.job, t.alive)

theorem TaskFrame.get (h : TaskFrame w w') {i : ℕ} {t : JobTask} (ht : w.tasks.get? i = some t) :
    ∃ t', w'.tasks.get? i = some t' ∧ t'.job = t.job ∧ t'.alive = t.alive := by
  have := h i
  rw [ht, Option.map_some, Option.map_eq_some_iff] at this
  obtain ⟨t', ht', he⟩ := this
  exact ⟨t', ht', (Prod.mk.inj he).1, (Prod.mk.inj he).2⟩

theorem TaskFrame.symm (h : TaskFrame w w') : TaskFrame w' w := fun i => (h i).symm

theorem TaskFrame.belowP0 (h : TaskFrame w w') (i : ℕ) : w'.belowP0 i = w.belowP0 i := by
  unfold Worker.belowP0
  cases ht : w.tasks.get? i with
  | none =>
    have := h i
    rw [ht, Option.map_none, Option.map_eq_none_iff] at this
    rw [this]
  | some t =>
    obtain ⟨t', ht', hj, -⟩ := h.get ht
    rw [ht', Option.any_some, Option.any_some, hj]

/-- A step that leaves `_running` and the tasks as they are. -/
theorem SlotInv.frame (hinv : SlotInv s w) (hr : w'.running = w.running) (ht : TaskFrame w w') (hroom : Room s w')
    (hd : DrainedEntries w') : SlotInv s w' where
  entry e he := by
    rw [hr] at he
    obtain ⟨t, hg, ha, hid⟩ := hinv.entry e he
    obtain ⟨t', hg', hj, ha'⟩ := ht.get hg
    exact ⟨t', hg', ha'.trans ha, by rw [hj, hid]⟩
  known i t hg ha := by
    obtain ⟨t', hg', hj, ha'⟩ := ht.symm.get hg
    rw [hr, ← hj]
    exact hinv.known i t' hg' (ha'.trans ha)
  keys := by rw [hr]; exact hinv.keys
  slots := by rw [hr]; exact hinv.slots
  below := by
    rw [hr]
    simp only [ht.belowP0]
    exact hinv.below
  room := hroom
  drained := hd

theorem TaskFrame.refl (w : Worker) : TaskFrame w w := fun _ => rfl

theorem taskFrame_cancel (ids : List ℕ) : TaskFrame w (w.cancel ids) := fun i => by
  rw [cancel, Table.get?_update]
  cases w.tasks.get? i with
  | none => rfl
  | some t =>
    simp only [Option.map_some]
    split_ifs <;> rfl

theorem SlotInv.drain (hinv : SlotInv s w) : SlotInv s w.drain := by
  unfold Worker.drain
  split_ifs with h
  · exact hinv.frame rfl (TaskFrame.refl w) trivial (List.isEmpty_iff.mp h)
  · exact hinv.frame rfl (TaskFrame.refl w) trivial fun e he => List.mem_map_of_mem he

theorem SlotInv.poll (hinv : SlotInv s w) : SlotInv s (w.poll s) := by
  unfold Worker.poll
  split_ifs with h
  · exact hinv.drain
  · dsimp only
    split_ifs with h1 h2
    · exact hinv
    · refine hinv.frame rfl (TaskFrame.refl w) ⟨?_, fun _ => ?_⟩ trivial
      · show (w.running.length : ℤ) < s.concurrency
        omega
      · show (w.running.length : ℤ) + s.reservedP0Slots < s.concurrency
        omega
    · refine hinv.frame rfl (TaskFrame.refl w) ⟨?_, fun h => absurd rfl h⟩ trivial
      show (w.running.length : ℤ) < s.concurrency
      omega

theorem SlotInv.claim (hinv : SlotInv s w) {now : Time} {locked : ℕ → Bool} {failed : Bool} {mp : ℕ}
    (hl : w.loop = .claiming mp) : SlotInv s (w.claim s now locked failed mp) := by
  have hroom := hinv.room
  unfold Room at hroom
  rw [hl] at hroom
  unfold Worker.claim
  dsimp only
  cases hc : Jobs.claim now s.workerId s.leaseTtlS mp (some s.kinds) locked w.jobs with
  | mk jobs job? =>
    cases job? with
    | none => exact hinv.frame rfl (TaskFrame.refl w) trivial trivial
    | some job =>
      cases failed with
      | true => exact hinv.frame rfl (TaskFrame.refl w) trivial trivial
      | false =>
        obtain ⟨r, -, hrun, -, -, hjob, -⟩ := Jobs.claim_some hc
        have hp : job.priority ≤ mp := by
          rw [hjob]
          exact (Jobs.runnable_iff.mp hrun).2.2.1
        exact hinv.frame rfl (TaskFrame.refl w) ⟨hroom.1, fun h => hroom.2 (by omega)⟩ trivial

theorem SlotInv.start (hinv : SlotInv s w) {job : Job} (hl : w.loop = .claimed job)
    (hno : ∀ t ∈ w.tasks.rows, t.alive = true → t.job.id ≠ job.id) : SlotInv s (w.start job) := by
  have hroom := hinv.room
  unfold Room at hroom
  rw [hl] at hroom
  have hnew : ∀ e ∈ w.running, e.1 ≠ job.id := by
    intro e he
    obtain ⟨t, hg, ha, hid⟩ := hinv.entry e he
    rw [← hid]
    exact hno t (Table.mem_rows.mpr ⟨e.2, hg⟩) ha
  have hset : setEntry job.id w.tasks.size w.running = w.running ++ [(job.id, w.tasks.size)] := by
    rw [setEntry, if_neg]
    simpa using fun b he => hnew (job.id, b) he rfl
  have hlt : ∀ e ∈ w.running, e.2 < w.tasks.size := fun e he => by
    obtain ⟨t, hg, -⟩ := hinv.entry e he
    exact Table.lt_size hg
  have hold : ∀ i t, w.tasks.get? i = some t → (w.tasks.insert { job }).get? i = some t :=
    fun i t ht => Table.get?_insert_of_some _ ht
  have hself : (w.tasks.insert { job }).get? w.tasks.size = some { job } := by
    rw [Table.get?_insert, if_pos rfl]
  unfold Worker.start
  rw [hset]
  constructor
  · intro e he
    rcases List.mem_append.mp he with he | he
    · obtain ⟨t, hg, h⟩ := hinv.entry e he
      exact ⟨t, hold _ _ hg, h⟩
    · rw [List.mem_singleton.mp he]
      exact ⟨{ job }, hself, rfl, rfl⟩
  · intro i t hg ha
    rw [Table.get?_insert] at hg
    by_cases hi : i = w.tasks.size
    · rw [if_pos hi] at hg
      obtain rfl := Option.some.inj hg
      rw [hi]
      exact List.mem_append_right _ (List.mem_singleton.mpr rfl)
    · rw [if_neg hi] at hg
      exact List.mem_append_left _ (hinv.known i t hg ha)
  · show (List.map Prod.fst (w.running ++ [(job.id, w.tasks.size)])).Nodup
    rw [List.map_append, List.nodup_append]
    refine ⟨hinv.keys, List.nodup_singleton _, fun a ha b hb => ?_⟩
    obtain ⟨e, he, rfl⟩ := List.mem_map.mp ha
    rw [show b = job.id by simpa using hb]
    exact hnew e he
  · show (w.running ++ [(job.id, w.tasks.size)]).length ≤ s.concurrency.toNat
    rw [List.length_append, List.length_singleton]
    omega
  · have hsame : ∀ e ∈ w.running, (w.start job).belowP0 e.2 = w.belowP0 e.2 := by
      intro e he
      obtain ⟨t, hg, -⟩ := hinv.entry e he
      rw [belowP0, belowP0, Worker.start, hold _ _ hg, hg]
    have hthis : (w.start job).belowP0 w.tasks.size = decide (job.priority ≠ 0) := by
      rw [belowP0, Worker.start, hself, Option.any_some]
    show ((w.running ++ [(job.id, w.tasks.size)]).filter fun e => (w.start job).belowP0 e.2).length ≤ _
    rw [List.filter_append, List.length_append, List.filter_congr hsame, List.filter_singleton, hthis]
    by_cases hp : job.priority = 0
    · simpa [hp] using hinv.below
    · have := hroom.2 hp
      have hle := List.length_filter_le (fun e => w.belowP0 e.2) w.running
      simp only [hp, ne_eq, not_false_eq_true, decide_true, cond_true, List.length_singleton]
      omega
  · trivial
  · trivial

/-- With one entry for a job, its task takes away its own. -/
theorem SlotInv.finish (hinv : SlotInv s w) {i : ℕ} {t : JobTask} (hg : w.tasks.get? i = some t) (ha : t.alive = true) :
    SlotInv s (w.finish i t) := by
  have hsub : (popEntry t.job.id w.running).Sublist w.running := List.filter_sublist
  have hmem : ∀ e, e ∈ popEntry t.job.id w.running ↔ e ∈ w.running ∧ e.1 ≠ t.job.id := by simp [popEntry]
  have hother : ∀ e ∈ popEntry t.job.id w.running, e.2 ≠ i := by
    intro e he hi
    obtain ⟨he, hne⟩ := (hmem e).mp he
    obtain ⟨u, hu, -, hid⟩ := hinv.entry e he
    rw [hi, hg] at hu
    exact hne (by rw [← hid, Option.some.inj hu])
  have hget : ∀ j, j ≠ i → (w.finish i t).tasks.get? j = w.tasks.get? j := fun j hj => Table.get?_modify_ne _ _ hj
  constructor
  · intro e he
    obtain ⟨u, hu, h⟩ := hinv.entry e ((hmem e).mp he).1
    exact ⟨u, (hget _ (hother e he)).trans hu, h⟩
  · intro j u hu hau
    by_cases hj : j = i
    · rw [hj, Worker.finish, Table.get?_modify_self, hg] at hu
      obtain rfl := Option.some.inj hu
      cases hau
    · rw [hget j hj] at hu
      have hin := hinv.known j u hu hau
      refine (hmem _).mpr ⟨hin, fun hk => hj ?_⟩
      have := List.inj_on_of_nodup_map hinv.keys hin (hinv.known i t hg ha) hk
      exact congrArg Prod.snd this
  · exact hinv.keys.sublist (hsub.map _)
  · exact hsub.length_le.trans hinv.slots
  · have hsame : ∀ e ∈ popEntry t.job.id w.running, (w.finish i t).belowP0 e.2 = w.belowP0 e.2 := fun e he => by
      rw [belowP0, belowP0, hget _ (hother e he)]
    show ((popEntry t.job.id w.running).filter fun e => (w.finish i t).belowP0 e.2).length ≤ _
    rw [List.filter_congr hsame]
    exact (hsub.filter _).length_le.trans hinv.below
  · have hroom := hinv.room
    have hlen := hsub.length_le
    unfold Room Worker.finish at *
    dsimp only
    cases hl : w.loop <;> rw [hl] at hroom <;> first | trivial | skip
    · exact ⟨by omega, fun h => by have := hroom.2 h; omega⟩
    · exact ⟨by omega, fun h => by have := hroom.2 h; omega⟩
  · have hd := hinv.drained
    unfold DrainedEntries at *
    rw [show (w.finish i t).loop = w.loop from rfl]
    cases hl : w.loop <;> rw [hl] at hd <;> try trivial
    · exact fun e he => hd e ((hmem e).mp he).1
    · intro e he
      obtain ⟨h1, h2⟩ := hd e ((hmem e).mp he).1
      exact ⟨h1, by rw [hget _ (hother e he)]; exact h2⟩
    · show popEntry t.job.id w.running = []
      rw [show w.running = [] from hd]
      rfl

theorem cancelled_cancel {ids : List ℕ} {j : ℕ}
    (h : (w.tasks.get? j).any JobTask.cancelled = true ∨ j ∈ ids ∧ w.isAlive j = true) :
    ((w.cancel ids).tasks.get? j).any JobTask.cancelled = true := by
  rw [cancel, Table.get?_update]
  unfold isAlive at h
  cases hg : w.tasks.get? j with
  | none => simp [hg] at h
  | some t =>
    simp only [hg, Option.any_some] at h
    rw [Option.map_some, Option.any_some]
    split_ifs with hc
    · rfl
    · rcases h with h | ⟨h1, h2⟩
      · exact h
      · simp [h1, h2] at hc

theorem SlotInv.cancel (hinv : SlotInv s w) (ids : List ℕ) : SlotInv s (w.cancel ids) := by
  have hd := hinv.drained
  refine hinv.frame rfl (taskFrame_cancel ids) hinv.room ?_
  unfold DrainedEntries at *
  rw [show (w.cancel ids).loop = w.loop from rfl]
  cases hl : w.loop <;> rw [hl] at hd <;> try exact hd
  exact fun e he => ⟨(hd e he).1, cancelled_cancel (Or.inl (hd e he).2)⟩

theorem SlotInv.setJobs (hinv : SlotInv s w) (jobs : JobTable) : SlotInv s { w with jobs } :=
  hinv.frame rfl (TaskFrame.refl w) hinv.room hinv.drained

theorem SlotInv.heartbeat (hinv : SlotInv s w) {i : ℕ} {t : JobTask} {now : Time} :
    SlotInv s (w.heartbeat s i t now) := by
  unfold Worker.heartbeat
  dsimp only
  split_ifs
  · exact hinv.setJobs _
  · exact (hinv.setJobs _).cancel [i]

theorem SlotInv.waited (hinv : SlotInv s w) {tasks : List ℕ} (hl : w.loop = .waiting tasks) :
    SlotInv s { w.cancel (tasks.filter w.isAlive) with loop := .gathering (tasks.filter w.isAlive) } := by
  have hd := hinv.drained
  unfold DrainedEntries at hd
  rw [hl] at hd
  refine hinv.frame rfl (fun i => taskFrame_cancel _ i) trivial fun e he => ?_
  obtain ⟨t, hg, ha, -⟩ := hinv.entry e he
  have halive : w.isAlive e.2 = true := by
    rw [isAlive, hg]
    exact ha
  have hin : e.2 ∈ tasks.filter w.isAlive := List.mem_filter.mpr ⟨hd e he, halive⟩
  exact ⟨hin, cancelled_cancel (Or.inr ⟨hin, halive⟩)⟩

theorem SlotInv.gathered (hinv : SlotInv s w) {pending : List ℕ} (hl : w.loop = .gathering pending)
    (hp : pending.any w.isAlive = false) : SlotInv s { w with loop := .stopped } := by
  refine hinv.frame rfl (TaskFrame.refl w) trivial (List.eq_nil_iff_forall_not_mem.mpr fun e he => ?_)
  have hd := hinv.drained
  unfold DrainedEntries at hd
  rw [hl] at hd
  obtain ⟨t, hg, ha, -⟩ := hinv.entry e he
  have := List.any_eq_false.mp hp e.2 (hd e he).1
  rw [isAlive, hg, Option.any_some] at this
  exact this ha

theorem slotInv_step {op : WorkerOp} (hinv : SlotInv s w) (hok : NoOverlap w op) (h : step s w op = some w') :
    SlotInv s w' := by
  cases op with
  | poll =>
    simp only [step] at h
    split_ifs at h
    obtain rfl := Option.some.inj h
    exact hinv.poll
  | claim now locked failed =>
    simp only [step] at h
    cases hl : w.loop <;> rw [hl] at h <;> cases h
    exact hinv.claim hl
  | claimFailed =>
    simp only [step] at h
    cases hl : w.loop <;> rw [hl] at h <;> cases h
    exact hinv.frame rfl (TaskFrame.refl w) trivial trivial
  | start =>
    simp only [step] at h
    cases hl : w.loop <;> rw [hl] at h <;> cases h
    refine hinv.start hl ?_
    simpa only [NoOverlap, hl] using hok
  | finish i =>
    obtain ⟨t, hg, h⟩ := Option.bind_eq_some_iff.mp h
    split_ifs at h with ha
    obtain rfl := Option.some.inj h
    exact hinv.finish hg ha
  | heartbeat i now =>
    obtain ⟨t, hg, h⟩ := Option.bind_eq_some_iff.mp h
    split_ifs at h with ha
    obtain rfl := Option.some.inj h
    exact hinv.heartbeat
  | queue op =>
    obtain rfl := Option.some.inj h
    exact hinv.setJobs _
  | setStop =>
    obtain rfl := Option.some.inj h
    exact hinv.frame rfl (TaskFrame.refl w) hinv.room hinv.drained
  | abort =>
    simp only [step] at h
    cases hl : w.loop <;> rw [hl] at h <;> cases h <;> exact hinv.drain
  | waited =>
    simp only [step] at h
    cases hl : w.loop <;> rw [hl] at h <;> cases h
    exact hinv.waited hl
  | gathered =>
    simp only [step] at h
    cases hl : w.loop <;> rw [hl] at h <;> try cases h
    dsimp only at h
    split_ifs at h with hp
    obtain rfl := Option.some.inj h
    exact hinv.gathered hl (by simpa using hp)

theorem mem_alive {i : ℕ} : i ∈ w.alive ↔ ∃ t, w.tasks.get? i = some t ∧ t.alive = true := by
  rw [alive, List.mem_filter, List.mem_range, isAlive]
  constructor
  · rintro ⟨-, h⟩
    cases hg : w.tasks.get? i with
    | none => rw [hg] at h; cases h
    | some t => exact ⟨t, rfl, by rw [hg] at h; exact h⟩
  · rintro ⟨t, hg, ha⟩
    exact ⟨Table.lt_size hg, by rw [hg]; exact ha⟩

/-- The entries are the tasks alive, one for each. -/
theorem SlotInv.perm (hinv : SlotInv s w) : (w.running.map Prod.snd).Perm w.alive := by
  have hnodup : (w.running.map Prod.snd).Nodup := by
    refine List.Nodup.map_on (fun e he f hf hef => ?_) (List.Nodup.of_map Prod.fst hinv.keys)
    obtain ⟨t, hg, -, hid⟩ := hinv.entry e he
    obtain ⟨u, hu, -, hid'⟩ := hinv.entry f hf
    rw [hef, hu] at hg
    exact Prod.ext (by rw [← hid, ← hid', Option.some.inj hg]) hef
  refine (List.perm_ext_iff_of_nodup hnodup (List.nodup_range.filter _)).mpr fun i => ?_
  show _ ↔ i ∈ w.alive
  rw [mem_alive, List.mem_map]
  constructor
  · rintro ⟨e, he, rfl⟩
    obtain ⟨t, hg, ha, -⟩ := hinv.entry e he
    exact ⟨t, hg, ha⟩
  · rintro ⟨t, hg, ha⟩
    exact ⟨_, hinv.known i t hg ha, rfl⟩

theorem SlotInv.drained_alive (hinv : SlotInv s w) : w.Drained := by
  have hd := hinv.drained
  have hmem : ∀ i ∈ w.alive, ∃ e ∈ w.running, e.2 = i := fun i hi => List.mem_map.mp (hinv.perm.mem_iff.mpr hi)
  unfold DrainedEntries at hd
  unfold Drained
  cases hl : w.loop <;> rw [hl] at hd <;> try trivial
  · intro i hi
    obtain ⟨e, he, rfl⟩ := hmem i hi
    exact hd e he
  · intro i hi
    obtain ⟨e, he, rfl⟩ := hmem i hi
    exact hd e he
  · have := hinv.perm
    rw [show w.running = [] from hd] at this
    exact this.symm.eq_nil

/-- In a run that never starts a job while an earlier task of the worker for it is alive:
`_running` has one entry for each task alive, under the id of its job; the tasks alive take no
more slots than there are, and those below P0 none of the reserved ones; and shutdown waits
for, or cancels, every one of them. -/
theorem slots_accounted {jobs : JobTable} {ops : List WorkerOp} (h : Runs.run (step s) (init jobs) ops = some w)
    (hok : Runs.Admits (step s) NoOverlap (init jobs) ops) :
    (w.running.map Prod.snd).Perm w.alive ∧
      (∀ e ∈ w.running, (w.tasks.get? e.2).map (fun t => t.job.id) = some e.1) ∧
      w.alive.length ≤ s.concurrency.toNat ∧
      (w.alive.filter w.belowP0).length ≤ (s.concurrency - s.reservedP0Slots).toNat ∧ w.Drained := by
  have hinv : SlotInv s w :=
    Runs.invariant_under (fun _ _ _ hs hop hstep => slotInv_step hs hop hstep) h hok (slotInv_init jobs)
  refine ⟨hinv.perm, fun e he => ?_, ?_, ?_, hinv.drained_alive⟩
  · obtain ⟨t, hg, -, hid⟩ := hinv.entry e he
    rw [hg, Option.map_some, hid]
  · rw [← hinv.perm.length_eq, List.length_map]
    exact hinv.slots
  · rw [← (hinv.perm.filter _).length_eq, List.filter_map, List.length_map]
    exact hinv.below

/-! Two slots, one of them reserved, and three jobs. -/

def twoSlots : WorkerSettings := { workerId := "w1", concurrency := 2, reservedP0Slots := 1, kinds := [.verify] }

def verifyJob (priority : ℕ) : WorkerOp :=
  .queue (.enqueue 0 { tenantId := "t1", kind := .verify, priority, maxAttempts := 5, agingStepS := 60 })

def startNext (now : Time) : List WorkerOp := [.poll, .claim now (fun _ => false) false, .start]

def reapAll (now : Time) : WorkerOp := .queue (.reap now fun _ => false)

/-- The old task ends before the job is claimed back. -/
theorem slots_accounted_reclaimed :
    let ops := [verifyJob 0] ++ startNext 1 ++ [reapAll 40, .finish 0] ++ startNext 41
    ∃ w, Runs.run (step twoSlots) (init .empty) ops = some w ∧ w.running = [(0, 1)] ∧ w.alive.length ≤ 2 := by
  intro ops
  have hrun : (Runs.run (step twoSlots) (init .empty) ops).map Worker.running = some [(0, 1)] := by decide +kernel
  obtain ⟨w, hw, hr⟩ := Option.map_eq_some_iff.mp hrun
  exact ⟨w, hw, hr, (slots_accounted hw (by decide +kernel)).2.2.1⟩

/-- The old task ends after it: it takes the entry of the new one, the worker runs more than
it may, and shutdown leaves a task behind. -/
def overlapOps : List WorkerOp :=
  [verifyJob 0, verifyJob 0, verifyJob 0] ++ startNext 1 ++ [reapAll 40] ++ startNext 41 ++ [.finish 0] ++
    startNext 42 ++ startNext 43

theorem slots_overlap :
    (Runs.run (step twoSlots) (init .empty) overlapOps).map (fun w => (w.running, w.alive)) =
      some ([(1, 2), (2, 3)], [1, 2, 3]) ∧
    (Runs.run (step twoSlots) (init .empty)
      (overlapOps ++ [.setStop, .poll, .finish 2, .finish 3, .waited, .gathered])).map (fun w => (w.loop, w.alive)) =
      some (.stopped, [1]) := by
  decide +kernel

end Blackboard.Worker
