import Blackboard.Proofs.Protocol

/-! What the executors do to the cluster, over whole runs: any number of them, with crashes
between any two actions, expired leases, and jobs delivered again. -/

namespace Blackboard

open Threads

variable {sha256 : String → String} {steps : List Step} {c : World}

/-- No two PATCHes are for the same action. -/
theorem ExecOk.sent_once {c : Core} (h : ExecOk c) (p i : ℕ) :
    (c.hist.sent.filter fun s => s.planId = p ∧ s.index = i).length ≤ 1 := by
  have hcount := List.nodup_iff_count_le_one.mp h.once (p, i)
  rw [List.count, List.countP_map, List.countP_eq_length_filter] at hcount
  refine le_of_eq_of_le (congrArg List.length (List.filter_congr fun s _ => ?_)) hcount
  rw [Bool.eq_iff_iff]
  simp [Prod.ext_iff]

/-- At most one PATCH for an action, sent after the actions before it have succeeded; the rows of
a plan are successes and at most one other row after them, and an outcome is final. -/
theorem at_most_once (h : Reaches sha256 steps c) :
    (∀ p i, (c.shared.hist.sent.filter fun s => s.planId = p ∧ s.index = i).length ≤ 1) ∧
    (∀ ch c' s, (system sha256).step c ch = some c' → c'.shared.hist.sent = c.shared.hist.sent ++ [s] →
      ∀ j < s.index, Succeeded c.shared.db s.planId j) ∧
    (∀ p, (c.shared.db.executionsOf p).map (·.actionIndex) = List.range (c.shared.db.executionsOf p).length ∧
      ∀ e ∈ (c.shared.db.executionsOf p).dropLast, e.status = .succeeded) ∧
    ∀ more c', Runs.run (system sha256).step c more = some c' →
      ∀ n e, c.shared.db.executions.get? n = some e → e.status ≠ .started →
        ∃ f, c'.shared.db.executions.get? n = some f ∧ f.planId = e.planId ∧ f.actionIndex = e.actionIndex ∧
          f.status = e.status := by
  refine ⟨h.inv.exec.sent_once, fun ch c' s hs hsent j hj => ?_, fun p => ⟨h.inv.exec.inOrder p, h.inv.exec.done p⟩,
    fun more c' hrun n e hn hst => ?_⟩
  · have hmem : s ∈ c'.shared.hist.sent := by rw [hsent]; exact List.mem_append_right _ (List.mem_singleton_self s)
    have hb := ((h.step hs).inv.exec.sent s hmem).before j hj
    rcases step_sends h.good hs with he | ⟨s', -, -, hdb, -⟩
    · rw [he] at hsent
      exact absurd hsent (by simp)
    · rw [← hdb]
      exact hb
  · obtain ⟨f, hf, hef⟩ := (run_evolves h.good hrun).db.executions n e hn
    exact ⟨f, hf, hef.planId, hef.actionIndex, hef.status hst⟩

/-- A state that a run on concrete inputs comes to. -/
def Sample.worldOf (steps : List Step) (h : (Runs.run (system id).step (system id).start steps).isSome) : World :=
  (Runs.run (system id).step (system id).start steps).get h

theorem Sample.reaches {steps : List Step} (h : (Runs.run (system id).step (system id).start steps).isSome) :
    Reaches id steps (worldOf steps h) := (Option.some_get h).symm

theorem Sample.restarted : (Runs.run (system id).step (system id).start (restarting 18)).isSome := by decide +kernel

theorem Sample.recovered_runs : (Runs.run (system id).step (system id).start recovered).isSome := by decide +kernel

/-- Two attempts, of which the first ends in a crash, send one PATCH for each of the two actions. -/
theorem at_most_once_recovered :
    (Sample.worldOf _ Sample.recovered_runs).shared.hist.sent.map (fun s => (s.attempt, s.planId, s.index)) =
      [(⟨3, 1⟩, 0, 0), (⟨3, 2⟩, 0, 1)] ∧
    (∀ p i, ((Sample.worldOf _ Sample.recovered_runs).shared.hist.sent.filter fun s => s.planId = p ∧
      s.index = i).length ≤ 1) ∧
    ∀ p, ((Sample.worldOf _ Sample.recovered_runs).shared.db.executionsOf p).map (·.actionIndex) =
      List.range ((Sample.worldOf _ Sample.recovered_runs).shared.db.executionsOf p).length :=
  have h := at_most_once (Sample.reaches Sample.recovered_runs)
  ⟨by decide +kernel, h.1, fun p => (h.2.2.1 p).1⟩

/-! A stalled executor. -/

/-- The lease of an attempt does not expire between the audit row of the intent and the PATCH, as
long as the process lives. -/
def Prompt (c : World) : Step → Prop
  | .env (.reap _ now locked) => ∀ a ∈ c.shared.hist.ready, (∃ p, c.threads (.job a) = some (.live p)) →
      ∀ r, c.shared.db.jobs.get? a.job = some r → r.fence = a.fence → Jobs.expired now locked a.job r = false
  | _ => True

/-- Nobody but the reaper takes a job from an attempt that has it. -/
theorem happen_holds {c c' : Core} {e : Happening} {started : Option (Caller × Program)} {a : Attempt}
    (hh : Holds a c.db) (h : happen sha256 c e = some (c', started)) (hreap : ∀ w now locked r, e = .reap w now locked →
      c.db.jobs.get? a.job = some r → r.fence = a.fence →
      Jobs.expired now locked a.job r = false) : Holds a c'.db := by
  obtain ⟨r, hr, hf, hrun⟩ := hh
  cases e with
  | claim p now maxPriority locked =>
    simp only [happen, Option.some.injEq, Prod.mk.injEq] at h
    obtain ⟨rfl, -⟩ := h
    refine ⟨r, ?_, hf, hrun⟩
    have hstep := QueueStep.claim (b := !(p.settings.autoInvestigate && p.settings.autoRemediate))
      (rfl : Jobs.claim now p.workerId p.settings.queueLeaseTtlS maxPriority (some p.kinds) locked c.db.jobs = _)
    refine (hstep.get hr).trans (congrArg some (if_neg fun hid => ?_))
    obtain ⟨job, hjob, hid⟩ := Option.map_eq_some_iff.mp hid
    obtain ⟨s, hs, hq, -⟩ := Jobs.claim_some (Prod.ext rfl hjob)
    obtain rfl : r = s := Option.some.inj (hr.symm.trans (hid ▸ hs))
    rw [(Jobs.runnable_iff.mp hq).1] at hrun
    cases hrun
  | heartbeat job now ttl =>
    simp only [happen, Option.some.injEq, Prod.mk.injEq] at h
    obtain ⟨rfl, -⟩ := h
    refine ⟨_, QueueStep.heartbeat.get hr, ?_, ?_⟩ <;> split_ifs <;> first | exact hf | exact hrun
  | reap w now locked =>
    have hne := hreap w now locked r rfl hr hf
    simp only [happen, Option.some.injEq, Prod.mk.injEq] at h
    obtain ⟨rfl, -⟩ := h
    exact ⟨r, (QueueStep.reap.get hr).trans (by rw [if_neg (by rw [hne]; decide)]), hf, hrun⟩
  | request | cluster | evidence | diagnosis =>
    simp only [happen, Option.some.injEq, Prod.mk.injEq] at h
    obtain ⟨rfl, -⟩ := h
    exact ⟨r, hr, hf, hrun⟩

/-- The attempt of a claim has its job. -/
theorem claim_holds {c c' : Core} {e : Happening} {a : Attempt} {p : Program}
    (h : happen sha256 c e = some (c', some (.job a, p))) : Holds a c'.db := by
  cases e with
  | claim p now maxPriority locked =>
    simp only [happen, Option.some.injEq, Prod.mk.injEq, Option.map_eq_some_iff] at h
    obtain ⟨rfl, job, hjob, hjk, -⟩ := h
    obtain rfl := Caller.job.inj hjk
    obtain ⟨r, hr, -, -, hj, hrow, -⟩ := Jobs.claim_some (Prod.ext rfl hjob)
    refine ⟨Jobs.leased now p.workerId p.settings.queueLeaseTtlS r,
      (congrArg (Table.get? · job.id) hj).trans ?_, ?_, rfl⟩
    · rw [Table.get?_modify_self, hr]
      rfl
    · rw [hrow]
      rfl
  | _ => simp only [happen, Option.some.injEq, Prod.mk.injEq, reduceCtorEq, and_false, false_and] at h

/-- What an attempt that is about to send the PATCH has, as long as its process lives. -/
def ReadyHolds (c : World) : Prop :=
  ∀ a ∈ c.shared.hist.ready, (∃ p, c.threads (.job a) = some (.live p)) → Holds a c.shared.db

theorem ReadyHolds.step {c c' : World} {ch : Step} (hg : (protocol sha256).Good c) (h : ReadyHolds c) (hp : Prompt c ch)
    (hs : (system sha256).step c ch = some c') : ReadyHolds c' := by
  intro a ha hlive
  rcases System.live_step hs hlive with hbefore | ⟨e, p, -, he⟩
  · rcases step_cases hg hs with ⟨e, started, rfl, he⟩ | ⟨k, i, -, hguar⟩ | ⟨k, -, he⟩
    · have ha' := (happen_hist he).2.2 ▸ ha
      refine happen_holds (h a ha' hbefore) he fun w now locked r hreap hr hf => ?_
      subst hreap
      exact hp a ha' hbefore r hr hf
    · obtain ⟨hready, hkept⟩ := hguar.ready a ha
      exact hready.elim (fun ha' => hkept (h a ha' hbefore)) fun hh => hh
    · rw [he] at ha ⊢
      exact h a ha hbefore
  · exact claim_holds he

/-- While no lease expires under an executor that is about to send, every PATCH is sent by the
attempt that has the job, for an incident that is EXECUTING. -/
theorem no_stale_patch (h : Reaches sha256 steps c)
    (hok : Runs.Admits (system sha256).step Prompt (system sha256).start steps) :
    ∀ s ∈ c.shared.hist.sent, s.held = true ∧ s.state = some .executing := by
  have hinv := Runs.invariant_under (K := Prompt) (P := fun c : World => (protocol sha256).Good c ∧ ReadyHolds c ∧
    ∀ s ∈ c.shared.hist.sent, s.held = true ∧ s.state = some .executing) ?_ h hok
    ⟨Protocol.Good.start, fun a ha => (by cases ha), fun s hs => (by cases hs)⟩
  · exact hinv.2.2
  · rintro c ch c' ⟨hg, hready, hsent⟩ hp hs
    refine ⟨hg.step hs, hready.step hg hp hs, fun s hmem => ?_⟩
    rcases step_sends hg hs with he | ⟨t, ⟨i, rfl⟩, he, -, hmem', hheld⟩
    · exact hsent s (he ▸ hmem)
    · rw [he, List.mem_append, List.mem_singleton] at hmem
      rcases hmem with hmem | rfl
      · exact hsent s hmem
      · exact hheld (hready s.attempt hmem' (System.act_live hs))

instance decidableLive (c : World) (k : Caller) : Decidable (∃ p, c.threads k = some (.live p)) :=
  match h : c.threads k with
  | some (.live p) => isTrue ⟨p, rfl⟩
  | some .dead | none => isFalse fun ⟨_, hp⟩ => by cases hp

instance decidablePrompt (c : World) : ∀ ch, Decidable (Prompt c ch)
  | .env (.reap _ now locked) => inferInstanceAs (Decidable (∀ a ∈ c.shared.hist.ready,
      (∃ p, c.threads (.job a) = some (.live p)) → ∀ r ∈ c.shared.db.jobs.get? a.job,
        r.fence = a.fence → Jobs.expired now locked a.job r = false))
  | .env (.claim ..) | .env (.heartbeat ..) | .env (.request ..) | .env (.cluster _) | .env (.evidence ..)
  | .env (.diagnosis ..) | .act .. | .kill _ => isTrue trivial

theorem no_stale_patch_recovered : (Sample.worldOf _ Sample.recovered_runs).shared.hist.sent ≠ [] ∧
    ∀ s ∈ (Sample.worldOf _ Sample.recovered_runs).shared.hist.sent, s.held = true ∧ s.state = some .executing :=
  ⟨by decide +kernel, no_stale_patch (Sample.reaches Sample.recovered_runs) (by decide +kernel)⟩

/-- The first executor stalls after it has audited the intent. Another one marks the action
unknown and escalates; then the first one sends the PATCH. -/
def Sample.stalled : List Step := restarting 10 ++ retried 11 ++ acts (.job ⟨3, 1⟩) [accepted 200]

theorem Sample.stalled_runs : (Runs.run (system id).step (system id).start stalled).isSome := by decide +kernel

theorem stale_patch : ¬ ∀ steps c, Reaches id steps c →
    ∀ s ∈ c.shared.hist.sent, s.held = true ∧ s.state = some .executing := by
  intro h
  have hall := h _ _ (Sample.reaches Sample.stalled_runs)
  have hsent : (Sample.worldOf _ Sample.stalled_runs).shared.hist.sent.map (fun s => (s.held, s.state)) =
      [(false, some .escalated)] := by decide +kernel
  obtain ⟨s, hs, he⟩ := List.mem_map.mp (hsent ▸ List.mem_singleton_self _)
  rw [(hall s hs).1] at he
  cases (Prod.mk.inj he).1

/-! The audit rows of an execution. -/

/-- No attempt loses its job or gives it up between a row of `executions` and its audit row. -/
def Pays (c : World) (ch : Step) : Prop :=
  ∀ c', (system sha256).step c ch = some c' → ∀ a, Owes a c.shared → Holds a c.shared.db → Holds a c'.shared.db

instance (a : Attempt) (d : Db) : Decidable (Holds a d) :=
  match hr : d.jobs.get? a.job with
  | none => isFalse fun ⟨_, h, _⟩ => by rw [hr] at h; cases h
  | some r => decidable_of_iff (r.fence = a.fence ∧ r.status = .running)
      ⟨fun h => ⟨r, hr, h⟩, fun ⟨s, hs, h⟩ => by rw [Option.some.inj (hr.symm.trans hs)]; exact h⟩

instance (c : World) (ch : Step) : Decidable (@Pays sha256 c ch) :=
  match hs : (system sha256).step c ch with
  | none => isTrue fun c' hc => by rw [hs] at hc; cases hc
  | some c' => decidable_of_iff (∀ x ∈ c.shared.hist.owed, Holds x.1 c.shared.db → Holds x.1 c'.shared.db)
      ⟨fun h d hd a ⟨x, hx, hxa⟩ hh => by
        obtain rfl := Option.some.inj (hs.symm.trans hd)
        exact hxa ▸ h x hx (hxa ▸ hh), fun h x hx hh => h c' hs x.1 ⟨x, hx, rfl⟩ hh⟩

/-- What an attempt that owes an audit row has. -/
def OwesHolds (c : Core) : Prop := ∀ a, Owes a c → Holds a c.db

theorem OwesHolds.step {c c' : World} {ch : Step} (hg : (protocol sha256).Good c) (h : OwesHolds c.shared)
    (hp : @Pays sha256 c ch) (hs : (system sha256).step c ch = some c') : OwesHolds c'.shared := by
  intro a ha
  have hkept : Owes a c.shared → Holds a c'.shared.db := fun ho => hp c' hs a ho (h a ho)
  rcases step_cases hg hs with ⟨e, started, -, he⟩ | ⟨k, i, -, hguar⟩ | ⟨k, -, he⟩
  · obtain ⟨x, hx, hxa⟩ := ha
    exact hkept ⟨x, (happen_hist he).2.1 ▸ hx, hxa⟩
  · exact (hguar.owes a ha).elim hkept fun hh => hh
  · rw [he] at ha
    exact hkept ha

/-- Every row of the plan that calls for an audit row has exactly one, and there is no other. -/
def AuditsComplete (d : Db) (p : ℕ) : Prop :=
  (∀ n e, d.executions.get? n = some e → e.planId = p →
    (e.insertedAs = .started → d.audited (p, e.actionIndex, false) = 1) ∧
    (e.status = .succeeded → d.audited (p, e.actionIndex, true) = 1)) ∧
  ∀ i b, 0 < d.audited (p, i, b) → ∃ n e, d.executions.get? n = some e ∧ e.planId = p ∧ e.actionIndex = i

/-- A job whose attempt owes an audit row is not done. -/
theorem audits_complete (h : Reaches sha256 steps c)
    (hok : Runs.Admits (system sha256).step (@Pays sha256) (system sha256).start steps) :
    ∀ n r p, c.shared.db.jobs.get? n = some r → r.kind = .execute → r.payload.planId = some p → r.status = .done →
      AuditsComplete c.shared.db p := by
  have hinv := Runs.invariant_under (P := fun c : World => (protocol sha256).Good c ∧ OwesHolds c.shared)
    (fun c ch c' ⟨hg, ho⟩ hp hs => ⟨hg.step hs, ho.step hg hp hs⟩) h hok
    ⟨Protocol.Good.start, fun a ⟨x, hx, _⟩ => (by cases hx)⟩
  intro n r p hr hk hp hdone
  have hexec := h.inv.exec
  have hpaid : ∀ m e b, c.shared.db.executions.get? m = some e → e.planId = p → e.Calls b →
      c.shared.db.audited (p, e.actionIndex, b) = 1 := by
    intro m e b hm hep hc
    have hcount := hexec.audited m e b hm hc
    rw [hep, if_neg fun howed => ?_] at hcount
    · exact hcount
    -- the attempt that inserted the row has the job of the plan, which is done
    have hheld := hinv.2 e.insertedBy ⟨_, howed, rfl⟩
    obtain ⟨s, hs, -, hks, hps⟩ := hexec.inserted m e hm
    have hjob := h.inv.jobs.same_plan hr hs (hk.trans hks.symm) (by rw [hk]; rfl) hp (hep ▸ hps)
    exact hheld.not_done (hjob ▸ hr) hdone
  refine ⟨fun m e hm hep => ⟨hpaid m e false hm hep, hpaid m e true hm hep⟩, fun i b hpos => ?_⟩
  obtain ⟨m, e, hm, hep, hi, -⟩ := hexec.recorded p i b hpos
  exact ⟨m, e, hm, hep, hi⟩

theorem audits_complete_recovered : AuditsComplete (Sample.worldOf _ Sample.recovered_runs).shared.db 0 := by
  have hdone : ((Sample.worldOf _ Sample.recovered_runs).shared.db.jobs.get? 3).map
      (fun r => (r.kind, r.payload.planId, r.status)) = some (.execute, some 0, .done) := by decide +kernel
  obtain ⟨r, hr, he⟩ := Option.map_eq_some_iff.mp hdone
  simp only [Prod.mk.injEq] at he
  exact audits_complete (Sample.reaches Sample.recovered_runs) (by decide +kernel) 3 r 0 hr he.1 he.2.1 he.2.2

/-- The first executor stops after it has committed the row. -/
def Sample.crashed : List Step := restarting 9 ++ [.kill (.job ⟨3, 1⟩)] ++ retried 11

theorem Sample.crashed_runs : (Runs.run (system id).step (system id).start crashed).isSome := by decide +kernel

theorem audit_row_missing : ¬ ∀ steps c, Reaches id steps c →
    ∀ n r p, c.shared.db.jobs.get? n = some r → r.kind = .execute → r.payload.planId = some p → r.status = .done →
      AuditsComplete c.shared.db p := by
  intro h
  have hdone : ((Sample.worldOf _ Sample.crashed_runs).shared.db.jobs.get? 3).map
      (fun r => (r.kind, r.payload.planId, r.status)) = some (.execute, some 0, .done) := by decide +kernel
  have hrow : ((Sample.worldOf _ Sample.crashed_runs).shared.db.executions.get? 0).map
      (fun e => (e.planId, e.actionIndex, e.insertedAs)) = some (0, 0, .started) := by decide +kernel
  obtain ⟨r, hr, he⟩ := Option.map_eq_some_iff.mp hdone
  obtain ⟨e, hn, hrow⟩ := Option.map_eq_some_iff.mp hrow
  simp only [Prod.mk.injEq] at he hrow
  have hone := ((h _ _ (Sample.reaches Sample.crashed_runs) 3 r 0 hr he.1 he.2.1 he.2.2).1 0 e hn hrow.1).1 hrow.2.2
  rw [hrow.2.1] at hone
  exact absurd hone (by decide +kernel)

/-! What a failed execution says of the cluster. -/

/-- The connection breaks while the PATCH is on its way. -/
def Sample.broken : List Step :=
  restarting 10 ++ acts (.job ⟨3, 1⟩) ({ now := 1, reply := .noAnswer "ReadTimeout" } :: plain 5 1)

end Blackboard
