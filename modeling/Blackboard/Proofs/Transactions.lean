import Blackboard.Proofs.Invariant

/-! What a transaction did when it committed, statement by statement, and the terms every
program of the system is verified on: the invariant, what it relies on, and what it
guarantees. -/

namespace Blackboard

open Threads

namespace Tx

theorem pure_ok {α : Type} {a b : α} {d e : Db} : (pure a : Tx α).run d = .ok (b, e) ↔ a = b ∧ d = e := by
  show (Except.ok (a, d) : Except Err (α × Db)) = .ok (b, e) ↔ _
  simp

theorem bind_ok {α β : Type} {x : Tx α} {f : α → Tx β} {d e : Db} {b : β} :
    (x >>= f).run d = .ok (b, e) ↔ ∃ a m, x.run d = .ok (a, m) ∧ (f a).run m = .ok (b, e) := by
  show (x d >>= fun y => f y.1 y.2) = .ok (b, e) ↔ ∃ a m, x d = .ok (a, m) ∧ f a m = .ok (b, e)
  cases x d with
  | error e => simp [bind, Except.bind]
  | ok y => simp [bind, Except.bind, Prod.ext_iff, and_assoc]

theorem append_ok {x : AuditEntry} {d e : Db} {u : Unit} :
    (append x).run d = .ok (u, e) ↔ e = { d with audit := d.audit ++ [x] } := by
  unfold append run StateT.run
  simp [eq_comm]

theorem assertFence_ok {job : Job} {d e : Db} {u : Unit} (h : (assertFence job).run d = .ok (u, e)) :
    Holds ⟨job.id, job.fence⟩ d ∧ e = d := by
  unfold assertFence Jobs.assertFence run StateT.run at h
  dsimp only at h
  split_ifs at h with hh
  · cases h
    exact ⟨holds_job.mp hh, rfl⟩
  · cases h

theorem transition_ok {now : Time} {m : Transition} {d e : Db} {v : ℕ}
    (h : (transition now m).run d = .ok (v, e)) :
    Incidents.checkTransition m.fromState m.toState = .ok () ∧
      ∃ i, d.incidents.get? m.incident = some i ∧ i.state = m.fromState ∧ i.version = m.expectedVersion ∧
        v = i.version + 1 ∧
        e = { d with incidents := d.incidents.modify m.incident (Incidents.moved now m.toState),
                     audit := d.audit ++ [Incidents.transitionEntry m i.tenantId (i.version + 1)] } := by
  unfold transition run StateT.run at h
  dsimp only at h
  cases hc : Incidents.checkTransition m.fromState m.toState with
  | error x => rw [hc] at h; cases h
  | ok u =>
    rw [hc] at h
    refine ⟨rfl, ?_⟩
    cases hi : d.incidents.get? m.incident with
    | none => rw [hi] at h; cases h
    | some i =>
      rw [hi] at h
      dsimp only at h
      split_ifs at h with hat
      simp only [Incidents.isAt, Bool.and_eq_true, decide_eq_true_eq] at hat
      cases h
      exact ⟨i, rfl, hat.1, hat.2, rfl, rfl⟩

theorem enqueue_ok {now : Time} {x : Enqueue} {d e : Db} {o : Option ℕ}
    (h : (enqueue now x).run d = .ok (o, e)) :
    Jobs.keyTaken d.jobs x.idempotencyKey = true ∧ e = d ∨
      Jobs.keyTaken d.jobs x.idempotencyKey = false ∧ e = { d with jobs := d.jobs.insert (Jobs.rowOf now x) } := by
  unfold enqueue run StateT.run at h
  dsimp only at h
  cases hq : Jobs.enqueue now x d.jobs with
  | error y => rw [hq] at h; cases h
  | ok y =>
    rw [hq] at h
    cases h
    rcases Jobs.enqueue_ok hq with ⟨ht, hj, -⟩ | ⟨ht, hj, -⟩
    · exact Or.inl ⟨ht, by rw [hj]⟩
    · exact Or.inr ⟨ht, by rw [hj]⟩

theorem insertPlan_ok {p : PlanRow} {d e : Db} {n : ℕ} (h : (insertPlan p).run d = .ok (n, e)) :
    n = d.plans.size ∧ e = { d with plans := d.plans.insert p } := by
  unfold insertPlan run StateT.run at h
  dsimp only at h
  split_ifs at h
  cases h
  exact ⟨rfl, rfl⟩

theorem insertApproval_ok {a : Approval} {d e : Db} {b : Bool} (h : (insertApproval a).run d = .ok (b, e)) :
    b = false ∧ e = d ∨ b = true ∧ Undecided d a.planId ∧ e = { d with approvals := d.approvals.insert a } := by
  unfold insertApproval run StateT.run at h
  dsimp only at h
  split_ifs at h with hs
  · cases h
    exact Or.inl ⟨rfl, rfl⟩
  · cases h
    refine Or.inr ⟨rfl, fun n x hx hp => hs ?_, rfl⟩
    rw [Db.approval, List.find?_isSome]
    exact ⟨x, Table.mem_rows.mpr ⟨n, hx⟩, by simp [hp]⟩

theorem insertExecution_ok {x : Execution} {d e : Db} {u : Unit}
    (h : (insertExecution x).run d = .ok (u, e)) :
    (∀ n y, d.executions.get? n = some y → y.planId = x.planId → y.actionIndex ≠ x.actionIndex) ∧
      e = { d with executions := d.executions.insert x } := by
  unfold insertExecution run StateT.run at h
  dsimp only at h
  split_ifs at h with hs
  cases h
  refine ⟨fun n y hy hp hi => hs ?_, rfl⟩
  rw [Db.execution, List.find?_isSome]
  exact ⟨y, Table.mem_rows.mpr ⟨n, hy⟩, by simp [hp, hi]⟩

theorem updateExecution_ok {p index : ℕ} {f : Execution → Execution} {d e : Db} {u : Unit} :
    (updateExecution p index f).run d = .ok (u, e) ↔
      e = { d with executions := d.executions.update fun _ => Execution.updated p index f } := by
  unfold updateExecution run StateT.run
  simp [eq_comm]

end Tx

/-- A move the state machine allows is from an open state. -/
theorem checkTransition_open {s t : State} (h : Incidents.checkTransition s t = .ok ()) : s.rank < 9 := by
  unfold Incidents.checkTransition at h
  split_ifs at h with h1 h2
  have := s.rank_le
  by_contra hn
  exact h1 (State.terminal_iff.mpr (by omega))

/-! A key that no job has yet. -/

theorem JobsOk.fresh_incident {d : Db} (h : JobsOk d) {id : ℕ} {i : Incident} {kind : Kind}
    (hi : d.incidents.get? id = some i) (hr : i.state.rank < kind.since) :
    Jobs.keyTaken d.jobs (some (.incident id kind)) = false := by
  refine Jobs.keyTaken_eq_false.mpr fun n r hn hk => ?_
  obtain ⟨id', j, -, hj, hrank, ⟨-, he⟩ | ⟨-, p, row, -, he, -⟩⟩ := h.rows n r hn
  · rw [hk] at he
    simp only [Option.some.injEq, Key.incident.injEq] at he
    obtain ⟨rfl, rfl⟩ := he
    obtain rfl : i = j := Option.some.inj (hi.symm.trans hj)
    omega
  · rw [hk] at he
    cases he

theorem JobsOk.fresh_opened {d : Db} (h : JobsOk d) {kind : Kind} :
    Jobs.keyTaken d.jobs (some (.incident d.incidents.size kind)) = false := by
  refine Jobs.keyTaken_eq_false.mpr fun n r hn hk => ?_
  obtain ⟨id', j, -, hj, -, ⟨-, he⟩ | ⟨-, p, row, -, he, -⟩⟩ := h.rows n r hn
  · rw [hk] at he
    simp only [Option.some.injEq, Key.incident.injEq] at he
    rw [← he.1, Table.get?_size] at hj
    cases hj
  · rw [hk] at he
    cases he

/-- Such a job would be for a plan of an incident that is not that far. -/
theorem JobsOk.fresh_plan {d : Db} (h : JobsOk d) {p : ℕ} {kind : Kind}
    (hr : ∀ row i, d.plans.get? p = some row → d.incidents.get? row.incidentId = some i → i.state.rank < kind.since) :
    Jobs.keyTaken d.jobs (some (.plan p kind)) = false := by
  refine Jobs.keyTaken_eq_false.mpr fun n r hn hk => ?_
  obtain ⟨id, i, -, hi, hrank, ⟨-, he⟩ | ⟨-, q, row, -, he, hrow, rfl⟩⟩ := h.rows n r hn
  · rw [hk] at he
    cases he
  · rw [hk] at he
    simp only [Option.some.injEq, Key.plan.injEq] at he
    obtain ⟨rfl, rfl⟩ := he
    have := hr row i hrow hi
    omega

/-- Of one plan there is one job of a kind. -/
theorem JobsOk.same_plan {d : Db} (h : JobsOk d) {n m p : ℕ} {r s : JobRow} (hn : d.jobs.get? n = some r)
    (hm : d.jobs.get? m = some s) (hk : r.kind = s.kind) (ho : r.kind.ofPlan = true)
    (hp : r.payload.planId = some p) (hq : s.payload.planId = some p) : n = m := by
  refine h.keys n m r s hn hm ?_
  obtain ⟨-, -, -, -, -, ⟨hf, -⟩ | ⟨-, q, -, hq', hkey, -⟩⟩ := h.rows n r hn
  · rw [ho] at hf
    cases hf
  obtain ⟨-, -, -, -, -, ⟨hf, -⟩ | ⟨-, q', -, hq'', hkey', -⟩⟩ := h.rows m s hm
  · rw [← hk, ho] at hf
    cases hf
  rw [hkey, hkey', hk]
  rw [hp] at hq'
  rw [hq] at hq''
  cases hq'
  cases hq''
  rfl

/-! What a program guarantees of each of its actions. -/

/-- Besides the invariant and what the others rely on: it takes the job from nobody, it sends
only what it is ready to send, and it owes an audit row only while it has its job. -/
structure Guar (k : Caller) (c c' : Core) : Prop where
  inv : Inv c'
  evolves : Evolves c c'
  apart : ∀ j, j ≠ k → Apart j c c'
  ready : ∀ b ∈ c'.hist.ready, (b ∈ c.hist.ready ∨ Holds b c'.db) ∧ (Holds b c.db → Holds b c'.db)
  sends : c'.hist.sent = c.hist.sent ∨ ∃ a s, k = .job a ∧ s.attempt = a ∧ c'.hist.sent = c.hist.sent ++ [s] ∧
    c'.db = c.db ∧ a ∈ c.hist.ready ∧ (Holds a c.db → s.held = true ∧ s.state = some .executing)
  owes : ∀ b, Owes b c' → Owes b c ∨ Holds b c'.db
  settled : ∀ b, Owes b c' → Holds b c.db → ∀ r, c'.db.jobs.get? b.job = some r → r.status ≠ .done
  wrote : ∀ n, k = .request n → c'.db = c.db ∨ n ∈ c'.hist.wrote
  manual : c'.hist.manual = c.hist.manual

/-- An attempt that has its job keeps it: rows that stay as they are stay running. -/
theorem Holds.of_keeps {a : Attempt} {d e : Db} (h : Holds a d) (hj : Table.Keeps Eq d.jobs e.jobs) :
    Holds a e := by
  obtain ⟨r, hr, hrest⟩ := h
  exact ⟨r, hj.get hr, hrest⟩

theorem Holds.not_done {a : Attempt} {d : Db} (h : Holds a d) {r : JobRow} (hr : d.jobs.get? a.job = some r) :
    r.status ≠ .done := by
  obtain ⟨s, hs, -, hrun⟩ := h
  obtain rfl : r = s := Option.some.inj (hr.symm.trans hs)
  rw [hrun]
  decide

/-- An action that leaves jobs that exist, executions and what the history says of them alone. -/
theorem Guar.of_flow {k : Caller} {c c' : Core} (hinv : Inv c') (hev : Evolves c c')
    (hjobs : Table.Keeps Eq c.db.jobs c'.db.jobs) (hexec : c'.db.executions = c.db.executions)
    (hsent : c'.hist.sent = c.hist.sent) (hready : c'.hist.ready = c.hist.ready)
    (howed : c'.hist.owed = c.hist.owed)
    (hexecuting : ∀ b r id i, .job b ≠ k → c.db.jobs.get? b.job = some r → b.fence ≤ r.fence →
      r.kind = .execute → r.incidentId = some id → c.db.incidents.get? id = some i → i.state = .executing →
      (∃ j, c'.db.incidents.get? id = some j ∧ j.state = .executing) ∨ Lost b c'.db)
    (hwrote : ∀ n ∈ c'.hist.wrote, n ∈ c.hist.wrote ∨ k = .request n)
    (hreq : ∀ n, k = .request n → c'.db = c.db ∨ n ∈ c'.hist.wrote) (hman : c'.hist.manual = c.hist.manual) :
    Guar k c c' where
  inv := hinv
  evolves := hev
  apart j hj := by
    cases j with
    | job b =>
      exact ⟨fun s hs _ => hsent ▸ hs, fun h => hready ▸ h, fun x _ => by rw [howed],
        fun n e f he _ hf => Or.inl (by rw [hexec, he] at hf; rw [Option.some.inj hf]),
        fun _ n e _ _ _ _ hn => Or.inl (by rw [hexec]; exact hn),
        fun r id i hr hf hk hid hi hs => hexecuting b r id i hj hr hf hk hid hi hs⟩
    | request m => exact fun hm => (hwrote m hm).resolve_right fun h => hj h.symm
  ready b hb := ⟨Or.inl (hready ▸ hb), fun h => h.of_keeps hjobs⟩
  sends := Or.inl hsent
  owes b hb := by
    unfold Owes at hb ⊢
    rw [howed] at hb
    exact Or.inl hb
  settled b _ hh r hr := (hh.of_keeps hjobs).not_done hr
  wrote := hreq
  manual := hman

theorem Guar.refl {k : Caller} {c : Core} (h : Inv c) : Guar k c c :=
  .of_flow h (.refl c) (.refl (fun _ => rfl) _) rfl rfl rfl rfl
    (fun _ _ _ i _ _ _ _ _ hi hs => Or.inl ⟨i, hi, hs⟩) (fun _ hn => Or.inl hn) (fun _ _ => Or.inl rfl) rfl

def contract (k : Caller) : Contract Core := ⟨Inv, rely k, Guar k, rely_refl k, rely_trans k⟩

/-! Rules for the atomic actions. `E` is what is promised of an error. -/

section Rules

variable {α β : Type} {k : Caller} {Q : β → Core → Prop} {E : Err → Core → Prop} {s : Core}

theorem look_does {f : Input → Core → Except Err β} (hE : ∀ e t, rely k s t → Inv t → E e t)
    (h : ∀ i a t, rely k s t → Inv t → f i t = .ok a → ∀ u, rely k t u → Inv u → Q a u) :
    Does (contract k) Q E (look f) s := by
  refine Does.lift fun t ht hi i => ?_
  have herr : ∀ e u, rely k t u → Inv u → E e u := fun e u hu hiu => hE e u (rely_trans k _ _ _ ht hu) hiu
  cases hx : i.fault with
  | some x => exact ⟨Guar.refl hi, fun u hu hiu => herr _ u hu hiu⟩
  | none =>
    refine ⟨Guar.refl hi, fun u hu hiu => ?_⟩
    cases ha : f i t with
    | error e =>
      simp only [Ends]
      exact herr e u hu hiu
    | ok a =>
      simp only [Ends]
      exact h i a t ht hi ha u hu hiu

theorem look_bind {f : Input → Core → Except Err α} {g : α → Handler β}
    (hE : ∀ e t, rely k s t → Inv t → E e t)
    (h : ∀ i a t, rely k s t → Inv t → f i t = .ok a → Does (contract k) Q E (g a) t) :
    Does (contract k) Q E (look f >>= g) s :=
  Does.bind (look_does hE fun i a t ht hi ha _ hu _ => (h i a t ht hi ha).later hu)

theorem select_bind {f : Db → α} {g : α → Handler β} (hE : ∀ e t, rely k s t → Inv t → E e t)
    (h : ∀ t, rely k s t → Inv t → Does (contract k) Q E (g (f t.db)) t) :
    Does (contract k) Q E (select f >>= g) s :=
  look_bind hE fun _ a t ht hi ha => by
    cases ha
    exact h t ht hi

theorem clock_bind {g : Time → Handler β} (hE : ∀ e t, rely k s t → Inv t → E e t)
    (h : ∀ now t, rely k s t → Inv t → Does (contract k) Q E (g now) t) :
    Does (contract k) Q E (clock >>= g) s :=
  look_bind hE fun i a t ht hi ha => by
    cases ha
    exact h i.now t ht hi

/-- What is in the database now was in it since. -/
theorem mem_since {c : Core} {n : ℕ} (h : n ≤ c.log.length) : c.db ∈ c.dbs.drop n := by
  unfold Core.dbs
  rw [List.drop_append_of_le_length h]
  simp

theorem Evolves.log {c c' : Core} (h : Evolves c c') : c.log.length ≤ c'.log.length := by
  have := h.dbs.length_le
  simpa [Core.dbs] using this

/-- The review of a plan: the policy's verdict on what was read since `n`. -/
theorem review_bind {id n : ℕ} {incident : Incident} {plan : RemediationPlan} {settings : Settings}
    {g : PolicyContext × Decision → Handler β} (hE : ∀ e t, rely k s t → Inv t → E e t) (hn : n ≤ s.log.length)
    (h : ∀ context t, rely k s t → Inv t →
      (∃ d ∈ t.dbs.drop n, ∃ d' ∈ t.dbs.drop n, ∃ now,
        context = Flow.policyContext incident (d'.evidenceOf id) (d.diagnosis id) settings now) →
      Does (contract k) Q E (g (context, Policy.evaluate CATALOGUE plan context)) t) :
    Does (contract k) Q E (Flow.review id incident plan settings >>= g) s := by
  refine Does.bind ?_
  unfold Flow.review
  refine select_bind hE fun t ht hi => look_bind
    (fun e u hu => hE e u (rely_trans k _ _ _ ht hu)) fun i a u hu hiu ha => ?_
  cases ha
  have hnt := hn.trans ht.1.log
  have hmem : t.db ∈ u.dbs.drop n := (List.IsPrefix.drop hu.1.dbs n).subset (mem_since hnt)
  refine Does.pure fun w hw hiw => ?_
  refine (h _ u (rely_trans k _ _ _ ht hu) hiu ?_).later hw
  exact ⟨t.db, hmem, u.db, mem_since (hnt.trans hu.1.log), i.now, rfl⟩

/-- A fault that hits after the commit is promised nothing but what a fault is promised. -/
theorem commit_does {body : Input → Tx β} {note : Input → β → Core → Hist}
    (hE : ∀ e t, rely k s t → Inv t → E e t) (hF : ∀ (x : Fault) t, E x.err t)
    (h : ∀ i a d t, rely k s t → Inv t → (body i).run t.db = .ok (a, d) →
      Guar k t { t.write d with hist := note i a t } ∧
        ∀ u, rely k { t.write d with hist := note i a t } u → Inv u → i.fault = none → Q a u) :
    Does (contract k) Q E (commit body note) s := by
  refine Does.lift fun t ht hi i => ?_
  have herr : ∀ e u, rely k t u → Inv u → E e u := fun e u hu hiu => hE e u (rely_trans k _ _ _ ht hu) hiu
  cases hb : (body i).run t.db with
  | error e => exact ⟨Guar.refl hi, fun u hu hiu => herr _ u hu hiu⟩
  | ok x =>
    obtain ⟨a, d⟩ := x
    obtain ⟨hg, hq⟩ := h i a d t ht hi hb
    cases hx : i.fault with
    | none => exact ⟨hg, fun u hu hiu => hq u hu hiu hx⟩
    | some x =>
      cases hl : i.late with
      | true =>
        simp only [if_true]
        exact ⟨hg, fun u _ _ => hF x u⟩
      | false =>
        simp only [Bool.false_eq_true, if_false]
        exact ⟨Guar.refl hi, fun u _ _ => hF x u⟩

end Rules

end Blackboard
