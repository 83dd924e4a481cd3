import Blackboard.Proofs.Requests
import Blackboard.Proofs.Settlement

/-! The whole system keeps the invariant: every job attempt and every call of the API meets its
terms, and so does everything that happens around them. -/

namespace Blackboard

open Threads

/-- Of an attempt that has not started nothing was sent and nothing is owed; a call that has not
started has committed nothing. -/
def Unused : Caller → Core → Prop
  | .job a, c => (∀ s ∈ c.hist.sent, s.attempt ≠ a) ∧ Clear a c
  | .request n, c => n ∉ c.hist.wrote

theorem Unused.later {k : Caller} {c c' : Core} (h : Unused k c) (hr : rely k c c') : Unused k c' := by
  cases k with
  | job a => exact ⟨fun s hs ha => h.1 s (hr.2.sent s hs ha) ha, h.2.later hr.2⟩
  | request n => exact fun hn => h (hr.2 hn)

/-- A call that ends with an error that is no fault has committed nothing. -/
def Answered : Caller → Except Err Response → Core → Prop
  | .request n, .error e, c => Refused n e c
  | _, _, _ => True

theorem inv_init : Inv {} where
  jobs := ⟨fun n r hr => by simp at hr, fun n m r s hr => by simp at hr, fun n r hr => by simp at hr⟩
  driven _ id i hi := by simp at hi
  plans := ⟨fun p q r s hp => by simp at hp, fun p r hp => by simp at hp, fun p r hp => by simp at hp,
    fun p r i hp => by simp at hp, fun p r i hp => by simp at hp, fun id i hi => by simp at hi,
    fun n a ha => by simp at ha, fun n m a b ha => by simp at ha, fun n r p hn => by simp at hn,
    ⟨fun p hp => by simp at hp, fun id ⟨x, hx, _⟩ => by simp at hx⟩⟩
  exec := ⟨fun n e hn => by simp at hn, fun n m e f hn => by simp at hn,
    fun p => by simp [Db.executionsOf, Table.empty],
    fun p e he => by simp [Db.executionsOf, Table.empty] at he, fun s hs => by simp at hs, by simp,
    fun s hs => by simp at hs, fun a p i b hm => by simp at hm, fun n e b hn => by simp at hn,
    fun p i b hpos => by simp [Db.audited] at hpos⟩

/-! What happens outside the programs. -/

/-- Nothing the invariant speaks of changes. -/
theorem QueueStep.quiet {c c' : Core} (hjobs : c'.db.jobs = c.db.jobs) (hinc : c'.db.incidents = c.db.incidents)
    (hplans : c'.db.plans = c.db.plans) (happr : c'.db.approvals = c.db.approvals)
    (hexec : c'.db.executions = c.db.executions) (haudit : c'.db.audit = c.db.audit) (hdbs : c.dbs <+: c'.dbs)
    (hclusters : c.clusters <+: c'.clusters) (hhist : c'.hist = c.hist) : QueueStep c c' fun _ r => r where
  jobs := by rw [hjobs, Table.update_eq_self fun _ _ _ => rfl]
  later _ r _ := .refl r
  dead _ _ _ h := Or.inl h
  incidents := hinc
  plans := hplans
  approvals := happr
  executions := hexec
  audit := ⟨[], by rw [haudit, List.append_nil], by simp⟩
  dbs := hdbs
  clusters := hclusters
  sent := by rw [hhist]
  owed := by rw [hhist]
  decided := by rw [hhist]
  timedOut := by rw [hhist]
  wrote := by rw [hhist]
  auto hm := by rw [← hhist]; exact hm

theorem QueueStep.claim {c : Core} {p : Process} {now : Time} {maxPriority : ℕ} {locked : ℕ → Bool} {b : Bool}
    {x : JobTable × Option Job}
    (h : Jobs.claim now p.workerId p.settings.queueLeaseTtlS maxPriority (some p.kinds) locked c.db.jobs = x) :
    QueueStep c { c.write { c.db with jobs := x.1 } with hist := { c.hist with manual := c.hist.manual ||
      b } } fun n r =>
      if x.2.map Job.id = some n then Jobs.leased now p.workerId p.settings.queueLeaseTtlS r else r where
  jobs := by
    obtain ⟨jobs, _ | job⟩ := x
    · rw [Jobs.claim_none h, Table.update_eq_self fun _ _ _ => by simp]
      rfl
    · obtain ⟨r, -, -, -, rfl, -⟩ := Jobs.claim_some h
      simp [Table.modify, Core.write, eq_comm]
  later n r _ := by
    split_ifs
    · exact ⟨.leased now _ _ r, Nat.le_succ _, fun he => absurd he (Nat.lt_succ_self _).ne⟩
    · exact .refl r
  dead n r _ hd := by
    split_ifs at hd
    · cases hd
    · exact Or.inl hd
  incidents := rfl
  plans := rfl
  approvals := rfl
  executions := rfl
  audit := ⟨[], (List.append_nil _).symm, by simp⟩
  dbs := List.prefix_append _ _
  clusters := List.prefix_refl _
  sent := rfl
  owed := rfl
  decided := rfl
  timedOut := rfl
  wrote := rfl
  auto hm := (Bool.or_eq_false_iff.mp hm).1

theorem QueueStep.reap {c : Core} {workerId : String} {now : Time} {locked : ℕ → Bool} :
    QueueStep c (c.write (Blackboard.reap workerId now locked c.db)) fun n r =>
      if Jobs.expired now locked n r then Jobs.reaped now r else r where
  jobs := rfl
  later n r _ := by
    split_ifs with he
    · exact (reaped_moves he).later (.reaped now r)
    · exact .refl r
  dead n r hr hd := by
    split_ifs at hd with he
    · refine Or.inr ⟨_, List.mem_append_right _
        (List.mem_map.mpr ⟨(n, Jobs.afterExpiry r), List.mem_filter.mpr ⟨?_, ?_⟩, rfl⟩),
        rfl, _, _, _, rfl⟩
      · exact List.mem_map.mpr ⟨(n, r), Table.mem_select.mpr ⟨hr, he⟩, rfl⟩
      · simpa [Jobs.reaped] using hd
    · exact Or.inl hd
  incidents := rfl
  plans := rfl
  approvals := rfl
  executions := rfl
  audit := ⟨_, rfl, by simp [Event.outcome, AuditEntry.TimesOut]⟩
  dbs := List.prefix_append _ _
  clusters := List.prefix_refl _
  sent := rfl
  owed := rfl
  decided := rfl
  timedOut := rfl
  wrote := rfl
  auto := id

theorem QueueStep.heartbeat {c : Core} {job : Job} {now ttl : Time} :
    QueueStep c (c.write { c.db with jobs := (Jobs.heartbeat now job ttl c.db.jobs).1 }) fun n r =>
      if Jobs.holds job c.db.jobs = true ∧ n = job.id then { r with leaseUntil := some (now + ttl), updatedAt := now }
      else r where
  jobs := by
    unfold Jobs.heartbeat
    split_ifs with hh
    · simp [hh, Table.modify, Core.write]
    · exact (Table.update_eq_self fun i r _ => if_neg fun h => hh h.1).symm
  later n r _ := by
    split_ifs
    · exact ⟨⟨rfl, rfl, rfl, rfl, rfl, rfl, rfl, rfl, rfl⟩, le_rfl, fun _ h => h⟩
    · exact .refl r
  dead n r _ hd := by
    split_ifs at hd <;> exact Or.inl hd
  incidents := rfl
  plans := rfl
  approvals := rfl
  executions := rfl
  audit := ⟨[], (List.append_nil _).symm, by simp⟩
  dbs := List.prefix_append _ _
  clusters := List.prefix_refl _
  sent := rfl
  owed := rfl
  decided := rfl
  timedOut := rfl
  wrote := rfl
  auto := id

/-- What happens outside keeps the invariant, and leaves every program what is its own. -/
theorem happen_keeps {sha256 : String → String} {c c' : Core} {e : Happening} {started : Option (Caller × Program)}
    (hinv : Inv c) (h : happen sha256 c e = some (c', started)) (k : Caller) : Inv c' ∧ rely k c c' := by
  have hstep : ∀ {f}, QueueStep c c' f →
    (∀ n r, c.db.jobs.get? n = some r → r.status ≠ .done → (f n r).status ≠ .done) →
      c'.hist.ready = c.hist.ready → Inv c' ∧ rely k c c' := fun hs hd hr =>
    ⟨hs.inv hinv fun n r _ _ hn hst _ _ => hd n r hn hst, hs.evolves, hs.apart k fun a _ ha => hr ▸ ha⟩
  cases e with
  | claim p now maxPriority locked =>
    simp only [happen, Option.some.injEq, Prod.mk.injEq] at h
    obtain ⟨rfl, -⟩ := h
    refine hstep (.claim rfl) (fun n r _ hst => ?_) rfl
    split_ifs
    · exact fun hd => by cases hd
    · exact hst
  | heartbeat job now ttl =>
    simp only [happen, Option.some.injEq, Prod.mk.injEq] at h
    obtain ⟨rfl, -⟩ := h
    refine hstep .heartbeat (fun n r _ hst => ?_) rfl
    split_ifs <;> exact hst
  | reap workerId now locked =>
    simp only [happen, Option.some.injEq, Prod.mk.injEq] at h
    obtain ⟨rfl, -⟩ := h
    refine hstep .reap (fun n r _ hst => ?_) rfl
    split_ifs
    · simp only [Jobs.reaped, Jobs.afterExpiry]
      split_ifs <;> decide
    · exact hst
  | request n r =>
    simp only [happen, Option.some.injEq, Prod.mk.injEq] at h
    obtain ⟨rfl, -⟩ := h
    exact ⟨hinv, rely_refl k c⟩
  | cluster x =>
    simp only [happen, Option.some.injEq, Prod.mk.injEq] at h
    obtain ⟨rfl, -⟩ := h
    exact hstep (.quiet rfl rfl rfl rfl rfl rfl (List.prefix_refl _) (List.prefix_append _ _) rfl)
      (fun _ _ _ hst => hst) rfl
  | evidence x =>
    simp only [happen, Option.some.injEq, Prod.mk.injEq] at h
    obtain ⟨rfl, -⟩ := h
    exact hstep (.quiet rfl rfl rfl rfl rfl rfl (List.prefix_append _ _) (List.prefix_refl _) rfl)
      (fun _ _ _ hst => hst) rfl
  | diagnosis id d =>
    simp only [happen, Option.some.injEq, Prod.mk.injEq] at h
    obtain ⟨rfl, -⟩ := h
    exact hstep (.quiet rfl rfl rfl rfl rfl rfl (List.prefix_append _ _) (List.prefix_refl _) rfl)
      (fun _ _ _ hst => hst) rfl

/-- A job attempt, from its claim on. -/
theorem attempt_meets {sha256 : String → String} {p : Process} {job : Job} {c : Core}
    (hk : Knows ⟨job, p.settings, p.workerId⟩ c) (hu : Unused (.job ⟨job.id, job.fence⟩) c) :
    Meets (contract (.job ⟨job.id, job.fence⟩)) (Answered (.job ⟨job.id, job.fence⟩))
    (attemptProgram sha256 p job) c := by
  set ctx : JobContext := ⟨job, p.settings, p.workerId⟩
  have hw : Works ctx (fun _ _ => True) (Worker.execute ctx (p.handler sha256 job.kind)) c := by
    refine attempt_works hk fun f hf => ?_
    unfold Process.handler at hf
    split_ifs at hf with hex
    · cases hkind : job.kind <;> rw [hkind] at hf <;> cases hf
      exact execute_works hk hu.2 hkind hu.1
    · cases hkind : job.kind <;> rw [hkind] at hf <;> cases hf
      · exact triage_works hk hu.2 hkind
      · exact investigate_works hk hu.2 hkind
      · exact plan_works hk hu.2 hkind
      · exact approvalTimeout_works hk hu.2 hkind
      · exact verify_works hk hu.2 hkind
  refine Meets.mono (fun r _ _ => ?_) (show Works ctx (fun _ _ => True) (do
    Worker.execute ctx (p.handler sha256 job.kind)
    return Response.settled) c from .bind hw fun _ _ _ => .pure fun _ _ _ => trivial)
  trivial

/-- What a claim starts is the attempt at the job it took, and the job is the row's. -/
theorem claim_starts {sha256 : String → String} {c c' : Core} {p : Process} {now : Time} {maxPriority : ℕ}
    {locked : ℕ → Bool} {k : Caller} {q : Program}
    (h : happen sha256 c (.claim p now maxPriority locked) = some (c', some (k, q))) :
    ∃ job, (Jobs.claim now p.workerId p.settings.queueLeaseTtlS maxPriority (some p.kinds) locked c.db.jobs).2 =
    some job ∧
      k = .job ⟨job.id, job.fence⟩ ∧ q = attemptProgram sha256 p job ∧ Knows ⟨job, p.settings, p.workerId⟩ c' := by
  simp only [happen, Option.some.injEq, Prod.mk.injEq, Option.map_eq_some_iff] at h
  obtain ⟨rfl, job, hjob, rfl, rfl⟩ := h
  refine ⟨job, hjob, rfl, rfl, ?_, fun hm => ?_⟩
  · obtain ⟨r, hr, -, -, hj, hrow, -⟩ := Jobs.claim_some (Prod.ext rfl hjob)
    refine ⟨Jobs.leased now p.workerId p.settings.queueLeaseTtlS r, ?_, by rw [hrow]; exact ⟨le_rfl, rfl, rfl, rfl⟩⟩
    refine (congrArg (Table.get? · job.id) hj).trans ?_
    rw [Table.get?_modify_self, hr]
    rfl
  · have := (Bool.or_eq_false_iff.mp hm).2
    simpa using this

def protocol (sha256 : String → String) : Protocol (system sha256) where
  inv := Inv
  rely := rely
  guar := Guar
  post := Answered
  fresh := Unused
  refl := rely_refl
  trans := rely_trans
  init := inv_init
  unused k := by
    cases k with
    | job a => exact ⟨fun s hs => (by cases hs), fun x _ => by simp [system]⟩
    | request n => exact List.not_mem_nil
  unused_later _ _ _ := Unused.later
  keeps _ _ _ _ h := h.inv
  apart _ j _ _ hj _ h := ⟨h.evolves, h.apart j hj⟩
  env_keeps e s s' started hinv h := (happen_keeps hinv h (.request 0)).1
  env_apart e s s' started j hinv h := (happen_keeps hinv h j).2
  starts e s s' k p hinv h hu := by
    cases e with
    | claim p now maxPriority locked =>
      obtain ⟨job, -, rfl, rfl, hk⟩ := claim_starts h
      exact attempt_meets hk hu
    | request n r =>
      simp only [system, happen, Option.some.injEq, Prod.mk.injEq] at h
      obtain ⟨rfl, rfl, rfl⟩ := h
      refine Meets.mono (fun r t ht => ?_) (handle_answers (r := r) hu)
      cases r with
      | ok a => trivial
      | error x => exact ht
    | heartbeat | reap | cluster | evidence | diagnosis =>
      simp only [system, happen, Option.some.injEq, Prod.mk.injEq, reduceCtorEq, and_false] at h

/-! Runs. -/

section Runs

variable {sha256 : String → String} {steps : List Step} {c c' : World} {ch : Step}

theorem Reaches.good (h : Reaches sha256 steps c) : (protocol sha256).Good c := Protocol.good_of_run h

theorem Reaches.inv (h : Reaches sha256 steps c) : Inv c.shared := h.good.inv

theorem Reaches.step (h : Reaches sha256 steps c) (hs : (system sha256).step c ch = some c') :
    Reaches sha256 (steps ++ [ch]) c' := by
  unfold Reaches at h ⊢
  rw [Runs.run_append]
  exact ⟨c, h, by rw [Runs.run_cons, hs]; rfl⟩

/-- A step is something that happens outside, an action of a program, or the end of one. -/
theorem step_cases (h : (protocol sha256).Good c) (hs : (system sha256).step c ch = some c') :
    (∃ e started, ch = .env e ∧ happen sha256 c.shared e = some (c'.shared, started)) ∨
      (∃ k i, ch = .act k i ∧ Guar k c.shared c'.shared) ∨ ∃ k, ch = .kill k ∧ c'.shared = c.shared := by
  cases ch with
  | env e =>
    left
    obtain ⟨⟨s, started⟩, he, hs⟩ := Option.bind_eq_some_iff.mp hs
    refine ⟨e, started, rfl, ?_⟩
    cases started with
    | none =>
      obtain rfl := Option.some.inj hs
      exact he
    | some x =>
      obtain ⟨k, p⟩ := x
      dsimp only at hs
      split at hs
      · cases hs
      · obtain rfl := Option.some.inj hs
        exact he
  | act k i => exact Or.inr (Or.inl ⟨k, i, rfl, h.guar hs⟩)
  | kill k =>
    refine Or.inr (Or.inr ⟨k, rfl, ?_⟩)
    simp only [System.step] at hs
    split at hs
    · obtain rfl := Option.some.inj hs
      rfl
    · cases hs

theorem step_evolves (h : (protocol sha256).Good c) (hs : (system sha256).step c ch = some c') :
    Evolves c.shared c'.shared := by
  rcases step_cases h hs with ⟨e, started, -, he⟩ | ⟨k, i, -, hg⟩ | ⟨k, -, he⟩
  · exact (happen_keeps h.inv he (.request 0)).2.1
  · exact hg.evolves
  · rw [he]
    exact .refl _

theorem run_evolves (h : (protocol sha256).Good c) (hs : Runs.run (system sha256).step c steps = some c') :
    Evolves c.shared c'.shared :=
  Runs.related (P := (protocol sha256).Good) (R := fun c c' => Evolves c.shared c'.shared) (fun _ => .refl _)
    (fun _ _ _ => .trans) (fun _ _ _ hg hs => hg.step hs) (fun _ _ _ hg hs => step_evolves hg hs) hs h

/-- Outside the programs nothing is sent, owed, or got ready. -/
theorem happen_hist {c c' : Core} {e : Happening} {started : Option (Caller × Program)}
    (h : happen sha256 c e = some (c', started)) :
    c'.hist.sent = c.hist.sent ∧ c'.hist.owed = c.hist.owed ∧ c'.hist.ready = c.hist.ready := by
  cases e <;> simp only [happen, Option.some.injEq, Prod.mk.injEq] at h <;> obtain ⟨rfl, -⟩ :=
    h <;> exact ⟨rfl, rfl, rfl⟩

/-- A PATCH is sent by the action of an attempt that is ready for it; the database stays. -/
theorem step_sends (h : (protocol sha256).Good c) (hs : (system sha256).step c ch = some c') :
    c'.shared.hist.sent = c.shared.hist.sent ∨ ∃ s, (∃ i, ch = .act (.job s.attempt) i) ∧
      c'.shared.hist.sent = c.shared.hist.sent ++ [s] ∧ c'.shared.db = c.shared.db ∧ s.attempt ∈ c.shared.hist.ready ∧
      (Holds s.attempt c.shared.db → s.held = true ∧ s.state = some .executing) := by
  rcases step_cases h hs with ⟨e, started, -, he⟩ | ⟨k, i, rfl, hg⟩ | ⟨k, -, he⟩
  · exact Or.inl (happen_hist he).1
  · rcases hg.sends with he | ⟨a, s, rfl, rfl, hrest⟩
    · exact Or.inl he
    · exact Or.inr ⟨s, ⟨i, rfl⟩, hrest⟩
  · exact Or.inl (by rw [he])

end Runs

end Blackboard
