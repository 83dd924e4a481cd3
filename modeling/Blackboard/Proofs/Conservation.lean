import Blackboard.Spec.Webhooks

/-! Ingest loses nothing. An incident's counters agree with its alerts at every moment: the
committed version with the committed rows, the version a transaction wrote with those and the
transaction's own, the alert it has counted but not yet recorded among them. A row that one
transaction counted for is a row it holds, so no two have counted for the same incident. -/

namespace Blackboard

namespace Slot

/-- The version of the row if the transactions that `d` says commit, and no others. -/
def value (d : ℕ → Bool) (x : Slot) : Option Incident :=
  match x.dirty with
  | some (u, i) => if d u then some i else x.committed
  | none => x.committed

end Slot

namespace Ingest

def Tables.slot (s : Tables) (i : ℕ) : Slot := (s.slots.get? i).getD {}

/-! The rows of an incident. -/

def firingOf (id : ℕ) (rows : List AlertRow) : List AlertRow :=
  rows.filter fun r => r.status = .firing && r.incidentId = some id

def triageOf (id : ℕ) (jobs : List Enqueue) : List Enqueue :=
  jobs.filter fun e => e.kind = .triage && e.incidentId = some id

def isCreated : AuditEntry → Bool
  | { event := .incidentCreated .., .. } => true
  | _ => false

def createdOf (id : ℕ) (audit : List AuditEntry) : List AuditEntry :=
  audit.filter fun e => isCreated e && e.subject = .incident id

/-- The row without the incident it was given to. -/
def AlertRow.bare (r : AlertRow) : AlertRow := { r with incidentId := none }

/-- What the counters of an incident say, by its alerts, jobs and audit rows. -/
structure Holds (rows : List AlertRow) (jobs : List Enqueue) (audit : List AuditEntry) (i : Incident) : Prop where
  count : i.alertCount = rows.length
  urgent : ∃ r ∈ rows, priorityOf r.labels = i.priority
  least : ∀ r ∈ rows, i.priority ≤ priorityOf r.labels
  key : ∀ r ∈ rows, r.tenantId = i.tenantId ∧ r.fingerprint = i.fingerprint
  triage : jobs.length = 1
  created : audit.length = 1

/-- In every committed state: one open incident to a key, counters that agree with the alerts,
one triage job and one audit row to an incident, and one row to an alert, with the incident
of its key if it is firing. -/
structure Conserved (s : Tables) : Prop where
  oneOpen : ∀ i j a b, s.incident? i = some a → s.incident? j = some b → a.closedAt = none → b.closedAt = none →
    a.tenantId = b.tenantId → a.fingerprint = b.fingerprint → i = j
  alertCount : ∀ i a, s.incident? i = some a → a.alertCount = (firingOf i s.alerts).length
  priority : ∀ i a, s.incident? i = some a →
    (∃ r ∈ firingOf i s.alerts, priorityOf r.labels = a.priority) ∧
      ∀ r ∈ firingOf i s.alerts, a.priority ≤ priorityOf r.labels
  triage : ∀ i a, s.incident? i = some a → (triageOf i s.jobs).length = 1
  created : ∀ i a, s.incident? i = some a → (createdOf i s.audit).length = 1
  linked : ∀ r ∈ s.alerts, r.status = .firing → ∃ i a, r.incidentId = some i ∧ s.incident? i = some a ∧
    r.tenantId = a.tenantId ∧ r.fingerprint = a.fingerprint
  rows : s.alerts.map AlertRow.bare = s.received.map fun x => alertRow x.1 none x.2

/-! What an open transaction has counted, in its rows and in flight. -/

namespace Work

def inFlight : Work → List AlertRow
  | .webhook h (a :: _) (.enqueueing id) | .webhook h (a :: _) (.auditing id)
  | .webhook h (a :: _) (.recording (some id)) => [alertRow h.tenantId (some id) a]
  | _ => []

def jobInFlight : Work → List Enqueue
  | .webhook h (a :: _) (.enqueueing id) => [Handlers.job id h.tenantId (priorityOf a.2.labels) .triage h.settings]
  | _ => []

def auditInFlight : Work → List AuditEntry
  | .webhook h (a :: _) (.enqueueing id) | .webhook h (a :: _) (.auditing id) =>
    [Api.createdEntry id (opening h.tenantId a) h.actor]
  | _ => []

end Work

namespace Session

def counted (x : Session) : List AlertRow := x.alerts ++ x.work.inFlight

def countedJobs (x : Session) : List Enqueue := x.jobs ++ x.work.jobInFlight

def countedAudit (x : Session) : List AuditEntry := x.audit ++ x.work.auditInFlight

end Session

/-- The key of a triage job is a triage job's. -/
def Keyed (jobs : List Enqueue) : Prop :=
  ∀ e ∈ jobs, ∀ i, e.idempotencyKey = some (.incident i .triage) → e.kind = .triage ∧ e.incidentId = some i

/-- Firing alerts are merged, resolved ones looked up. -/
def PcOk (a : Identified) : WebhookPc → Prop
  | .inserting _ | .merging _ | .rechecking _ _ | .enqueueing _ | .auditing _ => a.2.status = .firing
  | .looking | .recording none => a.2.status = .resolved
  | _ => True

def WorkOk (sha256 : String → String) (rows : List AlertRow) : Work → Prop
  | .webhook h todo pc =>
    (rows.map AlertRow.bare ++ todo.map (alertRow h.tenantId none) =
      (h.identified sha256).map (alertRow h.tenantId none)) ∧
      ∀ a rest, todo = a :: rest → PcOk a pc
  | .other _ => rows = []
  | .ended => rows = []

structure SessionOk (sha256 : String → String) (x : Session) : Prop where
  work : WorkOk sha256 x.alerts x.work
  linked : ∀ r ∈ x.alerts, r.status = .firing → r.incidentId.isSome = true
  keyed : Keyed x.jobs
  call : ∀ e, x.work = .other (.enqueueing e) → Keyed [e] ∧ e.kind ≠ .triage
  entry : ∀ e, x.work = .other (.appending e) → isCreated e = false

/-- Whoever commits, one open incident to a key. -/
def Exclusive (s : Tables) : Prop :=
  ∀ d o i j, ((s.slot i).value d).any (Incidents.openFor o) = true →
    ((s.slot j).value d).any (Incidents.openFor o) = true → i = j

structure Inv (sha256 : String → String) (s : Tables) : Prop where
  exclusive : Exclusive s
  owner : ∀ i u inc, (s.slot i).dirty = some (u, inc) → ∃ x, s.sessions.get? u = some x ∧ x.work ≠ .ended
  committed : ∀ i inc, (s.slot i).committed = some inc →
    Holds (firingOf i s.alerts) (triageOf i s.jobs) (createdOf i s.audit) inc
  absent : ∀ i, (s.slot i).committed = none →
    firingOf i s.alerts = [] ∧ triageOf i s.jobs = [] ∧ createdOf i s.audit = []
  dirty : ∀ i u inc x, (s.slot i).dirty = some (u, inc) → s.sessions.get? u = some x →
    Holds (firingOf i (s.alerts ++ x.counted)) (triageOf i (s.jobs ++ x.countedJobs))
      (createdOf i (s.audit ++ x.countedAudit)) inc
  firing : ∀ u x i, s.sessions.get? u = some x → firingOf i x.counted ≠ [] → ∃ inc, (s.slot i).dirty = some (u, inc)
  created : ∀ u x i, s.sessions.get? u = some x → triageOf i x.countedJobs ≠ [] ∨ createdOf i x.countedAudit ≠ [] →
    (s.slot i).committed = none ∧ ∃ inc, (s.slot i).dirty = some (u, inc)
  session : ∀ u x, s.sessions.get? u = some x → SessionOk sha256 x
  keyed : Keyed s.jobs
  linked : ∀ r ∈ s.alerts, r.status = .firing → r.incidentId.isSome = true
  rows : s.alerts.map AlertRow.bare = s.received.map fun x => alertRow x.1 none x.2

theorem Inv.conserved {sha256 : String → String} {s : Tables} (hinv : Inv sha256 s) : Conserved s := by
  have hslot : ∀ i, s.incident? i = (s.slot i).committed := by
    intro i
    unfold Tables.incident? Tables.slot
    cases s.slots.get? i <;> rfl
  -- no transaction commits
  have hvalue : ∀ i, (s.slot i).value (fun _ => false) = s.incident? i := by
    intro i
    rw [hslot, Slot.value]
    cases (s.slot i).dirty <;> rfl
  constructor
  · intro i j a b ha hb hca hcb ht hf
    let o : Opening := ⟨a.tenantId, a.fingerprint, "", "", "", 0, []⟩
    refine hinv.exclusive (fun _ => false) o i j ?_ ?_
    · rw [hvalue, ha]
      simp [Incidents.openFor, o, hca]
    · rw [hvalue, hb]
      simp [Incidents.openFor, o, hcb, ht, hf]
  · exact fun i a ha => (hinv.committed i a (hslot i ▸ ha)).count
  · exact fun i a ha => ⟨(hinv.committed i a (hslot i ▸ ha)).urgent, (hinv.committed i a (hslot i ▸ ha)).least⟩
  · exact fun i a ha => (hinv.committed i a (hslot i ▸ ha)).triage
  · exact fun i a ha => (hinv.committed i a (hslot i ▸ ha)).created
  · intro r hr hf
    obtain ⟨i, hi⟩ := Option.isSome_iff_exists.mp (hinv.linked r hr hf)
    have hmem : r ∈ firingOf i s.alerts := List.mem_filter.mpr ⟨hr, by simp [hf, hi]⟩
    cases hc : (s.slot i).committed with
    | none =>
      rw [(hinv.absent i hc).1] at hmem
      cases hmem
    | some a => exact ⟨i, a, hi, (hslot i).trans hc, (hinv.committed i a hc).key r hmem⟩
  · exact hinv.rows

/-! Slots. -/

theorem value_settle (t : ℕ) (d : ℕ → Bool) (y : Slot) :
    (y.settle t).value d = y.value fun u => if u = t then true else d u := by
  obtain ⟨c, _ | ⟨u, i⟩⟩ := y
  · rfl
  · by_cases hu : u = t <;> simp [Slot.settle, Slot.value, hu]

theorem value_abandon (t : ℕ) (d : ℕ → Bool) (y : Slot) :
    (y.abandon t).value d = y.value fun u => if u = t then false else d u := by
  obtain ⟨c, _ | ⟨u, i⟩⟩ := y
  · rfl
  · by_cases hu : u = t <;> simp [Slot.abandon, Slot.value, hu]

/-- Nobody else having written the row, it is what `t` sees if `t` commits. -/
theorem value_visible {t : ℕ} {d : ℕ → Bool} {y : Slot} (hl : y.lockedFor t = false) (ht : d t = true) :
    y.value d = y.visible t := by
  unfold Slot.lockedFor at hl
  unfold Slot.value Slot.visible
  rcases hd : y.dirty with _ | ⟨u, i⟩
  · rfl
  · rw [hd] at hl
    simp only [ne_eq, decide_eq_false_iff_not, not_not] at hl
    subst hl
    simp [ht]

theorem value_committed {t : ℕ} {d : ℕ → Bool} {y : Slot} (hl : y.lockedFor t = false) (ht : d t = false) :
    y.value d = y.committed := by
  unfold Slot.lockedFor at hl
  unfold Slot.value
  rcases hd : y.dirty with _ | ⟨u, i⟩
  · rfl
  · rw [hd] at hl
    simp only [ne_eq, decide_eq_false_iff_not, not_not] at hl
    subst hl
    simp [ht]

theorem slot_modify (s : Tables) (k i : ℕ) {f : Slot → Slot} (hf : f {} = {}) :
    ((s.slots.modify k f).get? i).getD {} = if i = k then f (s.slot i) else s.slot i := by
  unfold Tables.slot
  rw [Table.get?_modify]
  split_ifs
  · cases s.slots.get? i with
    | none => exact hf.symm
    | some x => rfl
  · rfl

theorem slot_insert (s : Tables) (x : Slot) (i : ℕ) :
    ((s.slots.insert x).get? i).getD {} = if i = s.slots.size then x else s.slot i := by
  unfold Tables.slot
  rw [Table.get?_insert]
  split_ifs <;> rfl

theorem slot_update (s : Tables) {f : Slot → Slot} (hf : f {} = {}) (i : ℕ) :
    ((s.slots.update fun _ => f).get? i).getD {} = f (s.slot i) := by
  unfold Tables.slot
  rw [Table.get?_update]
  cases s.slots.get? i with
  | none => exact hf.symm
  | some x => rfl

theorem slot_size (s : Tables) : s.slot s.slots.size = {} := by simp [Tables.slot]

theorem slot_any {s : Tables} {p : Slot → Bool} (h : ¬ s.slots.rows.any p = true) (hp : p {} = false) (i : ℕ) :
    p (s.slot i) = false := by
  unfold Tables.slot
  cases hx : s.slots.get? i with
  | none => exact hp
  | some x =>
    rw [Bool.not_eq_true, List.any_eq_false] at h
    simpa using h x (Table.mem_rows.mpr ⟨i, hx⟩)

theorem slot_of_bind {s : Tables} {t i : ℕ} {a : Incident} (h : (s.slots.get? i).bind (Slot.visible t) = some a) :
    (s.slot i).visible t = some a := by
  obtain ⟨x, hx, ha⟩ := Option.bind_eq_some_iff.mp h
  simpa [Tables.slot, hx] using ha

theorem slot_locked {s : Tables} {t i : ℕ} (h : ¬ s.lockedFor t i = true) : (s.slot i).lockedFor t = false := by
  unfold Tables.slot
  unfold Tables.lockedFor at h
  cases hx : s.slots.get? i with
  | none => rfl
  | some x => simpa [hx] using h

/-! One open incident to a key. -/

namespace Exclusive

variable {s s' : Tables} {t : ℕ}

theorem congr (h : Exclusive s) (hs : s'.slots = s.slots) : Exclusive s' := by
  intro d o i j hi hj
  unfold Tables.slot at hi hj
  rw [hs] at hi hj
  exact h d o i j hi hj

/-- A transaction wrote a row it sees, and opened nothing by it. -/
theorem written (h : Exclusive s) {k : ℕ} {f : Incident → Incident} (hl : (s.slot k).lockedFor t = false)
    (hf : ∀ o i, Incidents.openFor o (f i) = true → Incidents.openFor o i = true)
    (hs : s'.slots = s.slots.modify k (Slot.write t f)) : Exclusive s' := by
  have hslot : ∀ i, s'.slot i = if i = k then (s.slot i).write t f else s.slot i := by
    intro i
    unfold Tables.slot
    rw [hs]
    exact slot_modify s k i rfl
  -- what is open now was open before, whoever commits
  have hback : ∀ d o i, ((s'.slot i).value d).any (Incidents.openFor o) = true →
      ((s.slot i).value d).any (Incidents.openFor o) = true := by
    intro d o i hi
    rw [hslot] at hi
    split_ifs at hi with hk
    · subst hk
      unfold Slot.write at hi
      cases hv : (s.slot i).visible t with
      | none => simpa [hv] using hi
      | some inc =>
        rw [hv] at hi
        cases hd : d t with
        | true =>
          rw [value_visible hl hd, hv]
          exact hf o inc (by simpa [Slot.value, hd] using hi)
        | false =>
          rw [value_committed hl hd]
          simpa [Slot.value, hd] using hi
    · exact hi
  intro d o i j hi hj
  exact h d o i j (hback d o i hi) (hback d o j hj)

/-- A transaction opened a row for a key that nobody has an open row for, committed or not. -/
theorem opened (h : Exclusive s) {now : Time} {o : Opening} (hu : ∀ i, (s.slot i).undecided t o = false)
    (hn : ∀ i, (s.slot i).isOpen t o = false)
    (hs : s'.slots = s.slots.insert { dirty := some (t, Incidents.opened now o) }) : Exclusive s' := by
  have hslot : ∀ i, s'.slot i = if i = s.slots.size then { dirty := some (t, Incidents.opened now o) }
      else s.slot i := by
    intro i
    unfold Tables.slot
    rw [hs]
    exact slot_insert s _ i
  have hfree : ∀ d i, d t = true → ((s.slot i).value d).any (Incidents.openFor o) = false := by
    intro d i hd
    cases hl : (s.slot i).lockedFor t with
    | false =>
      rw [value_visible hl hd]
      exact hn i
    | true =>
      have hno := hu i
      simp only [Slot.undecided, hl, Bool.true_and, Bool.or_eq_false_iff] at hno
      unfold Slot.value
      rcases hdirty : (s.slot i).dirty with _ | ⟨u, inc⟩
      · exact hno.1
      · rw [hdirty] at hno
        dsimp only
        split_ifs
        · exact hno.2
        · exact hno.1
  -- the new row is open only if `t` commits, and then for this key only
  have hnew : ∀ d o', ((⟨none, some (t, Incidents.opened now o)⟩ : Slot).value d).any (Incidents.openFor o') = true →
      d t = true ∧ Incidents.openFor o' = Incidents.openFor o := by
    intro d o' ho
    cases hd : d t with
    | false => simp [Slot.value, hd] at ho
    | true =>
      have hkey : Incidents.openFor o' (Incidents.opened now o) = true := by simpa [Slot.value, hd] using ho
      simp only [Incidents.openFor, Bool.and_eq_true, decide_eq_true_eq] at hkey
      have ht : o.tenantId = o'.tenantId := hkey.1.1
      have hf : o.fingerprint = o'.fingerprint := hkey.1.2
      refine ⟨rfl, funext fun i => ?_⟩
      simp only [Incidents.openFor, ht, hf]
  intro d o' i j hi hj
  rw [hslot] at hi hj
  split_ifs at hi hj with h1 h2 h2
  · exact h1.trans h2.symm
  · obtain ⟨hd, ho⟩ := hnew d o' hi
    rw [ho, hfree d j hd] at hj
    cases hj
  · obtain ⟨hd, ho⟩ := hnew d o' hj
    rw [ho, hfree d i hd] at hi
    cases hi
  · exact h d o' i j hi hj

theorem settle (h : Exclusive s) (hs : s'.slots = s.slots.update fun _ => Slot.settle t) : Exclusive s' := by
  intro d o i j hi hj
  have hslot : ∀ i, s'.slot i = (s.slot i).settle t := by
    intro i
    unfold Tables.slot
    rw [hs]
    exact slot_update s rfl i
  rw [hslot, value_settle] at hi hj
  exact h _ o i j hi hj

theorem abandon (h : Exclusive s) (hs : s'.slots = s.slots.update fun _ => Slot.abandon t) : Exclusive s' := by
  intro d o i j hi hj
  have hslot : ∀ i, s'.slot i = (s.slot i).abandon t := by
    intro i
    unfold Tables.slot
    rw [hs]
    exact slot_update s rfl i
  rw [hslot, value_abandon] at hi hj
  exact h _ o i j hi hj

end Exclusive

/-! The rows of one incident among rows that were added. -/

theorem firingOf_append (i : ℕ) (a b : List AlertRow) : firingOf i (a ++ b) = firingOf i a ++ firingOf i b :=
  List.filter_append ..

theorem triageOf_append (i : ℕ) (a b : List Enqueue) : triageOf i (a ++ b) = triageOf i a ++ triageOf i b :=
  List.filter_append ..

theorem createdOf_append (i : ℕ) (a b : List AuditEntry) : createdOf i (a ++ b) = createdOf i a ++ createdOf i b :=
  List.filter_append ..

theorem firingOf_row (i k : ℕ) (tenantId : String) {a : Identified} (hf : a.2.status = .firing) :
    firingOf i [alertRow tenantId (some k) a] = if i = k then [alertRow tenantId (some k) a] else [] := by
  by_cases hik : i = k
  · simp [firingOf, alertRow, hf, hik]
  · simp [firingOf, alertRow, hik, Ne.symm hik]

theorem triageOf_job (i k : ℕ) (tenantId : String) (priority : ℕ) (settings : Settings) :
    triageOf i [Handlers.job k tenantId priority .triage settings] =
      if i = k then [Handlers.job k tenantId priority .triage settings] else [] := by
  by_cases hik : i = k
  · simp [triageOf, Handlers.job, hik]
  · simp [triageOf, Handlers.job, hik, Ne.symm hik]

theorem createdOf_entry (i k : ℕ) (o : Opening) (actor : Actor) :
    createdOf i [Api.createdEntry k o actor] = if i = k then [Api.createdEntry k o actor] else [] := by
  by_cases hik : i = k
  · simp [createdOf, Api.createdEntry, isCreated, hik]
  · simp [createdOf, Api.createdEntry, isCreated, hik, Ne.symm hik]

theorem createdOf_other (i : ℕ) {e : AuditEntry} (he : isCreated e = false) : createdOf i [e] = [] := by
  simp [createdOf, he]

theorem triageOf_other (i : ℕ) {e : Enqueue} (he : e.kind ≠ .triage) : triageOf i [e] = [] := by
  simp [triageOf, he]

namespace Holds

variable {rows : List AlertRow} {jobs : List Enqueue} {audit : List AuditEntry}

theorem opened (now : Time) (tenantId : String) (k : ℕ) (a : Identified) (e : Enqueue) (entry : AuditEntry) :
    Holds [alertRow tenantId (some k) a] [e] [entry] (Incidents.opened now (opening tenantId a)) := by
  refine ⟨rfl, ⟨_, List.mem_singleton_self _, rfl⟩, ?_, ?_, rfl, rfl⟩
  · rintro r hr
    rw [List.mem_singleton.mp hr]
    exact Nat.le_refl _
  · rintro r hr
    rw [List.mem_singleton.mp hr]
    exact ⟨rfl, rfl⟩

theorem merged {i : Incident} (h : Holds rows jobs audit i) (now : Time) {tenantId : String} (k : ℕ) {a : Identified}
    (ho : Incidents.openFor (opening tenantId a) i = true) :
    Holds (rows ++ [alertRow tenantId (some k) a]) jobs audit (Incidents.merged now (opening tenantId a) i) := by
  simp only [Incidents.openFor, Bool.and_eq_true, decide_eq_true_eq] at ho
  obtain ⟨r, hr, hur⟩ := h.urgent
  refine ⟨?_, ?_, ?_, ?_, h.triage, h.created⟩
  · simp [Incidents.merged, h.count]
  · by_cases hle : i.priority ≤ priorityOf a.2.labels
    · refine ⟨r, List.mem_append_left _ hr, ?_⟩
      rw [hur]
      exact (Nat.min_eq_left hle).symm
    · refine ⟨alertRow tenantId (some k) a, List.mem_append_right _ (List.mem_singleton_self _), ?_⟩
      exact (Nat.min_eq_right (Nat.le_of_not_le hle)).symm
  · intro q hq
    rcases List.mem_append.mp hq with hq | hq
    · exact Nat.le_trans (Nat.min_le_left ..) (h.least q hq)
    · rw [List.mem_singleton.mp hq]
      exact Nat.min_le_right ..
  · intro q hq
    rcases List.mem_append.mp hq with hq | hq
    · exact h.key q hq
    · rw [List.mem_singleton.mp hq]
      exact ⟨ho.1.1.symm, ho.1.2.symm⟩

theorem moved {i : Incident} (h : Holds rows jobs audit i) (now : Time) (toState : State) :
    Holds rows jobs audit (Incidents.moved now toState i) :=
  ⟨h.count, h.urgent, h.least, h.key, h.triage, h.created⟩

end Holds

/-! What a statement does. -/

/-- The slot of one incident after a statement of `t`: as it was, with nothing new counted for
it, or written, by what is now counted. -/
inductive Touched (s : Tables) (t : ℕ) (x x' : Session) (i : ℕ) (y : Slot) : Prop
  | kept (slot : y = s.slot i) (firing : firingOf i x'.counted = firingOf i x.counted)
      (triage : triageOf i x'.countedJobs = triageOf i x.countedJobs)
      (created : createdOf i x'.countedAudit = createdOf i x.countedAudit)
  | wrote (inc : Incident) (slot : y = { s.slot i with dirty := some (t, inc) })
      (free : (s.slot i).lockedFor t = false)
      (holds : Holds (firingOf i (s.alerts ++ x'.counted)) (triageOf i (s.jobs ++ x'.countedJobs))
        (createdOf i (s.audit ++ x'.countedAudit)) inc)
      (new : triageOf i x'.countedJobs ≠ [] ∨ createdOf i x'.countedAudit ≠ [] → (s.slot i).committed = none)

variable {sha256 : String → String} {s s' : Tables} {t : ℕ} {x x' : Session}

namespace Inv

theorem no_firing (h : Inv sha256 s) (ht : s.sessions.get? t = some x) {i : ℕ}
    (hd : ∀ inc, (s.slot i).dirty ≠ some (t, inc)) : firingOf i x.counted = [] := by
  by_contra hne
  obtain ⟨inc, hinc⟩ := h.firing t x i ht hne
  exact hd inc hinc

theorem no_created (h : Inv sha256 s) (ht : s.sessions.get? t = some x) {i : ℕ}
    (hd : ∀ inc, (s.slot i).dirty ≠ some (t, inc)) :
    triageOf i x.countedJobs = [] ∧ createdOf i x.countedAudit = [] := by
  constructor <;> by_contra hne
  · obtain ⟨-, inc, hinc⟩ := h.created t x i ht (Or.inl hne)
    exact hd inc hinc
  · obtain ⟨-, inc, hinc⟩ := h.created t x i ht (Or.inr hne)
    exact hd inc hinc

/-- What a transaction sees and nobody else has locked agrees with what the transaction counted. -/
theorem visible (h : Inv sha256 s) (ht : s.sessions.get? t = some x) {i : ℕ} {inc : Incident}
    (hv : (s.slot i).visible t = some inc) (hl : (s.slot i).lockedFor t = false) :
    Holds (firingOf i (s.alerts ++ x.counted)) (triageOf i (s.jobs ++ x.countedJobs))
      (createdOf i (s.audit ++ x.countedAudit)) inc := by
  unfold Slot.visible at hv
  unfold Slot.lockedFor at hl
  rcases hd : (s.slot i).dirty with _ | ⟨u, j⟩
  · rw [hd] at hv
    have hno : ∀ inc, (s.slot i).dirty ≠ some (t, inc) := by simp [hd]
    rw [firingOf_append, h.no_firing ht hno, triageOf_append, (h.no_created ht hno).1, createdOf_append,
      (h.no_created ht hno).2, List.append_nil, List.append_nil, List.append_nil]
    exact h.committed i inc hv
  · rw [hd] at hv hl
    simp only [ne_eq, decide_eq_false_iff_not, not_not] at hl
    subst hl
    simp only [if_true, Option.some.injEq] at hv
    subst hv
    exact h.dirty i u j x hd ht

theorem advance (h : Inv sha256 s) (ht : s.sessions.get? t = some x) (halerts : s'.alerts = s.alerts)
    (hjobs : s'.jobs = s.jobs) (haudit : s'.audit = s.audit) (hreceived : s'.received = s.received)
    (hses : s'.sessions = s.sessions.modify t fun _ => x') (hex : Exclusive s')
    (hslot : ∀ i, Touched s t x x' i (s'.slot i)) (hok : SessionOk sha256 x') (hlive : x'.work ≠ .ended) :
    Inv sha256 s' := by
  have hself : s'.sessions.get? t = some x' := by rw [hses, Table.get?_modify_self, ht]; rfl
  have hother : ∀ u, u ≠ t → s'.sessions.get? u = s.sessions.get? u := fun u hu => by
    rw [hses, Table.get?_modify_ne _ _ hu]
  have hcommitted : ∀ i, (s'.slot i).committed = (s.slot i).committed := by
    intro i
    rcases hslot i with ⟨hy, -, -, -⟩ | ⟨inc, hy, -, -, -⟩ <;> rw [hy]
  refine ⟨hex, ?_, ?_, ?_, ?_, ?_, ?_, ?_, ?_, ?_, ?_⟩
  · intro i u inc hd
    by_cases hut : u = t
    · exact ⟨x', hut ▸ hself, hlive⟩
    · rw [hother u hut]
      rcases hslot i with ⟨hy, -, -, -⟩ | ⟨j, hy, -, -, -⟩
      · exact h.owner i u inc (hy ▸ hd)
      · rw [hy] at hd
        exact absurd (congrArg Prod.fst (Option.some.inj hd)).symm hut
  · intro i inc hi
    rw [hcommitted] at hi
    rw [halerts, hjobs, haudit]
    exact h.committed i inc hi
  · intro i hi
    rw [hcommitted] at hi
    rw [halerts, hjobs, haudit]
    exact h.absent i hi
  · intro i u inc y hd hu
    rw [halerts, hjobs, haudit]
    rcases hslot i with ⟨hy, hf, htr, hc⟩ | ⟨j, hy, -, hh, -⟩
    · rw [hy] at hd
      by_cases hut : u = t
      · subst hut
        rw [hself] at hu
        obtain rfl := Option.some.inj hu
        have hh := h.dirty i u inc x hd ht
        rw [firingOf_append, triageOf_append, createdOf_append] at hh ⊢
        rw [hf, htr, hc]
        exact hh
      · rw [hother u hut] at hu
        exact h.dirty i u inc y hd hu
    · rw [hy] at hd
      simp only [Option.some.injEq, Prod.mk.injEq] at hd
      obtain ⟨rfl, rfl⟩ := hd
      rw [hself] at hu
      obtain rfl := Option.some.inj hu
      exact hh
  · intro u y i hu hne
    rcases hslot i with ⟨hy, hf, -, -⟩ | ⟨j, hy, hl, -, -⟩
    · rw [hy]
      by_cases hut : u = t
      · subst hut
        rw [hself] at hu
        obtain rfl := Option.some.inj hu
        rw [hf] at hne
        exact h.firing u x i ht hne
      · rw [hother u hut] at hu
        exact h.firing u y i hu hne
    · by_cases hut : u = t
      · exact ⟨j, by rw [hy, hut]⟩
      · rw [hother u hut] at hu
        obtain ⟨inc, hd⟩ := h.firing u y i hu hne
        unfold Slot.lockedFor at hl
        rw [hd] at hl
        simp [hut] at hl
  · intro u y i hu hne
    rw [hcommitted]
    rcases hslot i with ⟨hy, -, htr, hc⟩ | ⟨j, hy, hl, -, hnew⟩
    · rw [hy]
      by_cases hut : u = t
      · subst hut
        rw [hself] at hu
        obtain rfl := Option.some.inj hu
        rw [htr, hc] at hne
        exact h.created u x i ht hne
      · rw [hother u hut] at hu
        exact h.created u y i hu hne
    · by_cases hut : u = t
      · subst hut
        rw [hself] at hu
        obtain rfl := Option.some.inj hu
        exact ⟨hnew hne, j, by rw [hy]⟩
      · rw [hother u hut] at hu
        obtain ⟨-, inc, hd⟩ := h.created u y i hu hne
        unfold Slot.lockedFor at hl
        rw [hd] at hl
        simp [hut] at hl
  · intro u y hu
    by_cases hut : u = t
    · subst hut
      rw [hself] at hu
      obtain rfl := Option.some.inj hu
      exact hok
    · rw [hother u hut] at hu
      exact h.session u y hu
  · rw [hjobs]
    exact h.keyed
  · rw [halerts]
    exact h.linked
  · rw [halerts, hreceived]
    exact h.rows

/-- A statement that writes no row of `incidents`, and counts nothing new. -/
theorem still (h : Inv sha256 s) (ht : s.sessions.get? t = some x) (halerts : s'.alerts = s.alerts)
    (hjobs : s'.jobs = s.jobs) (haudit : s'.audit = s.audit) (hreceived : s'.received = s.received)
    (hses : s'.sessions = s.sessions.modify t fun _ => x') (hslots : s'.slots = s.slots)
    (hf : ∀ i, firingOf i x'.counted = firingOf i x.counted)
    (htr : ∀ i, triageOf i x'.countedJobs = triageOf i x.countedJobs)
    (hc : ∀ i, createdOf i x'.countedAudit = createdOf i x.countedAudit)
    (hok : SessionOk sha256 x') (hlive : x'.work ≠ .ended) : Inv sha256 s' := by
  refine h.advance ht halerts hjobs haudit hreceived hses (h.exclusive.congr hslots) (fun i => ?_) hok hlive
  refine .kept ?_ (hf i) (htr i) (hc i)
  unfold Tables.slot
  rw [hslots]

/-- A statement that writes a row it sees, that nobody else has locked. -/
theorem written (h : Inv sha256 s) (ht : s.sessions.get? t = some x) (halerts : s'.alerts = s.alerts)
    (hjobs : s'.jobs = s.jobs) (haudit : s'.audit = s.audit) (hreceived : s'.received = s.received)
    (hses : s'.sessions = s.sessions.modify t fun _ => x') {k : ℕ} {inc : Incident} {f : Incident → Incident}
    (hslots : s'.slots = s.slots.modify k (Slot.write t f)) (hv : (s.slot k).visible t = some inc)
    (hl : (s.slot k).lockedFor t = false) (hopen : ∀ o i, Incidents.openFor o (f i) = true →
      Incidents.openFor o i = true)
    (hf : ∀ i, i ≠ k → firingOf i x'.counted = firingOf i x.counted)
    (htr : ∀ i, triageOf i x'.countedJobs = triageOf i x.countedJobs)
    (hc : ∀ i, createdOf i x'.countedAudit = createdOf i x.countedAudit)
    (hholds : ∀ rows jobs audit, Holds (firingOf k rows ++ firingOf k x.counted) jobs audit inc →
      Holds (firingOf k rows ++ firingOf k x'.counted) jobs audit (f inc))
    (hok : SessionOk sha256 x') (hlive : x'.work ≠ .ended) : Inv sha256 s' := by
  refine h.advance ht halerts hjobs haudit hreceived hses (h.exclusive.written hl hopen hslots) (fun i => ?_) hok hlive
  have hslot : s'.slot i = if i = k then (s.slot i).write t f else s.slot i := by
    unfold Tables.slot
    rw [hslots]
    exact slot_modify s k i rfl
  by_cases hik : i = k
  · subst hik
    rw [if_pos rfl] at hslot
    refine .wrote (f inc) ?_ hl ?_ ?_
    · rw [hslot, Slot.write, hv]
    · have hh := h.visible ht hv hl
      rw [firingOf_append, triageOf_append, createdOf_append] at hh ⊢
      rw [htr, hc]
      exact hholds _ _ _ hh
    · rw [htr, hc]
      exact fun hne => (h.created t x i ht hne).1
  · rw [if_neg hik] at hslot
    exact .kept hslot (hf i hik) (htr i) (hc i)

end Inv

variable {h : Webhook} {a : Identified} {rest : List Identified} {pc pc' : WebhookPc}

theorem SessionOk.goto (hok : SessionOk sha256 x) (hw : x.work = .webhook h (a :: rest) pc) {p : WebhookPc}
    (hpc : PcOk a p) : SessionOk sha256 { x with work := .webhook h (a :: rest) p } := by
  have hwork := hok.work
  rw [hw] at hwork
  refine ⟨⟨hwork.1, fun b tl hb => ?_⟩, hok.linked, hok.keyed, by simp, by simp⟩
  obtain ⟨rfl, -⟩ := List.cons.inj hb
  exact hpc

/-- The front alert is recorded. -/
theorem SessionOk.recorded (hok : SessionOk sha256 x) {incidentId : Option ℕ}
    (hw : x.work = .webhook h (a :: rest) (.recording incidentId)) :
    SessionOk sha256 { x with alerts := x.alerts ++ [alertRow h.tenantId incidentId a],
                              work := .webhook h rest .next } := by
  have hwork := hok.work
  rw [hw] at hwork
  obtain ⟨hrows, hpc⟩ := hwork
  refine ⟨⟨?_, fun _ _ _ => trivial⟩, ?_, hok.keyed, by simp, by simp⟩
  · rw [← hrows, List.map_append, List.append_assoc]
    rfl
  · intro r hr hf
    rcases List.mem_append.mp hr with hr | hr
    · exact hok.linked r hr hf
    · rw [List.mem_singleton.mp hr] at hf ⊢
      cases incidentId with
      | some i => rfl
      | none =>
        have hres : a.2.status = .resolved := hpc a rest rfl
        have hfir : a.2.status = .firing := hf
        rw [hres] at hfir
        cases hfir

theorem Keyed.append {jobs new : List Enqueue} (hj : Keyed jobs) (hn : Keyed new) : Keyed (jobs ++ new) := by
  intro e he i hk
  rcases List.mem_append.mp he with he | he
  · exact hj e he i hk
  · exact hn e he i hk

theorem Keyed.insertJob {e : Enqueue} (hj : Keyed x.jobs) (he : Keyed [e]) : Keyed (s.insertJob x e) := by
  unfold Tables.insertJob
  split_ifs
  · exact hj
  · exact hj.append he

theorem keyed_job (k : ℕ) (tenantId : String) (priority : ℕ) (settings : Settings) :
    Keyed [Handlers.job k tenantId priority .triage settings] := by
  intro e he i hk
  rw [List.mem_singleton.mp he] at hk ⊢
  simp only [Handlers.job, Option.some.injEq, Key.incident.injEq] at hk
  exact ⟨rfl, by rw [← hk.1]; rfl⟩

namespace Inv

/-- The triage job of a new incident is inserted: no row has its key yet. -/
theorem insertJob (hinv : Inv sha256 s) (ht : s.sessions.get? t = some x) {id : ℕ}
    (hw : x.work = .webhook h (a :: rest) (.enqueueing id)) :
    s.insertJob x (Handlers.job id h.tenantId (priorityOf a.2.labels) .triage h.settings) =
      x.jobs ++ [Handlers.job id h.tenantId (priorityOf a.2.labels) .triage h.settings] := by
  set e := Handlers.job id h.tenantId (priorityOf a.2.labels) .triage h.settings
  have hcounted : triageOf id x.countedJobs = triageOf id x.jobs ++ [e] := by
    rw [Session.countedJobs, hw, triageOf_append, show Work.jobInFlight _ = [e] from rfl, triageOf_job, if_pos rfl]
  have hne : triageOf id x.countedJobs ≠ [] := by simp [hcounted]
  obtain ⟨hnew, inc, hd⟩ := hinv.created t x id ht (Or.inl hne)
  have hone := (hinv.dirty id t inc x hd ht).triage
  rw [triageOf_append, hcounted] at hone
  have hs : triageOf id s.jobs = [] := (hinv.absent id hnew).2.1
  have hx : triageOf id x.jobs = [] := by
    rw [hs] at hone
    simpa using hone
  unfold Tables.insertJob
  rw [if_neg]
  simp only [Bool.and_eq_true, not_and, Bool.not_eq_true, List.any_eq_false, decide_eq_true_eq]
  intro _ j hj hk
  have hmem : j ∈ triageOf id (s.jobs ++ x.jobs) := by
    have hkey := hinv.keyed.append (hinv.session t x ht).keyed j hj id hk
    exact List.mem_filter.mpr ⟨hj, by simp [hkey]⟩
  rw [triageOf_append, hs, hx] at hmem
  cases hmem

theorem goto (hinv : Inv sha256 s) (ht : s.sessions.get? t = some x) (hw : x.work = .webhook h (a :: rest) pc)
    (hf : (Work.webhook h (a :: rest) pc').inFlight = (Work.webhook h (a :: rest) pc).inFlight)
    (htr : (Work.webhook h (a :: rest) pc').jobInFlight = (Work.webhook h (a :: rest) pc).jobInFlight)
    (hc : (Work.webhook h (a :: rest) pc').auditInFlight = (Work.webhook h (a :: rest) pc).auditInFlight)
    (hpc : PcOk a pc') : Inv sha256 (s.goto t x h (a :: rest) pc') := by
  refine hinv.still ht rfl rfl rfl rfl rfl rfl (fun i => ?_)
    (fun i => ?_) (fun i => ?_) ((hinv.session t x ht).goto hw hpc) (by simp)
  · simp only [Session.counted, hw, hf]
  · simp only [Session.countedJobs, hw, htr]
  · simp only [Session.countedAudit, hw, hc]

theorem noRow (hinv : Inv sha256 s) (ht : s.sessions.get? t = some x) (hw : x.work = .webhook h (a :: rest) pc)
    (hf : (Work.webhook h (a :: rest) pc).inFlight = []) (htr : (Work.webhook h (a :: rest) pc).jobInFlight = [])
    (hc : (Work.webhook h (a :: rest) pc).auditInFlight = []) (hfiring : a.2.status = .firing) (left : ℕ) :
    Inv sha256 (s.noRow t x h (a :: rest) left) := by
  unfold Tables.noRow
  split_ifs
  · exact hinv.goto ht hw (by rw [hf]; rfl) (by rw [htr]; rfl) (by rw [hc]; rfl) hfiring
  · exact hinv.goto ht hw (by rw [hf]; rfl) (by rw [htr]; rfl) (by rw [hc]; rfl) trivial

theorem mergeInto (hinv : Inv sha256 s) (ht : s.sessions.get? t = some x) (hw : x.work = .webhook h (a :: rest) pc)
    (hf : (Work.webhook h (a :: rest) pc).inFlight = []) (htr : (Work.webhook h (a :: rest) pc).jobInFlight = [])
    (hc : (Work.webhook h (a :: rest) pc).auditInFlight = []) (hfiring : a.2.status = .firing) {id : ℕ}
    (hopen : (s.slot id).isOpen t (opening h.tenantId a) = true) (hl : (s.slot id).lockedFor t = false) :
    Inv sha256 (s.mergeInto t x h (a :: rest) (opening h.tenantId a) id) := by
  obtain ⟨inc, hv, ho⟩ := (Option.any_eq_true _ _).mp hopen
  have hcounted : x.counted = x.alerts := by simp only [Session.counted, hw, hf, List.append_nil]
  have hx' : Session.counted { x with work := .webhook h (a :: rest) (.recording (some id)) } =
      x.alerts ++ [alertRow h.tenantId (some id) a] := rfl
  refine hinv.written ht rfl rfl rfl rfl rfl rfl
    hv hl (fun o i hi => hi) (fun i hi => ?_) (fun i => ?_) (fun i => ?_) (fun rows jobs audit hh => ?_)
    ((hinv.session t x ht).goto hw trivial) (by simp)
  · rw [hx', hcounted, firingOf_append, firingOf_row i id h.tenantId hfiring, if_neg hi, List.append_nil]
  · simp only [Session.countedJobs, hw, htr]
    rfl
  · simp only [Session.countedAudit, hw, hc]
    rfl
  · rw [hx', firingOf_append, firingOf_row id id h.tenantId hfiring, if_pos rfl, ← List.append_assoc, ← hcounted]
    exact hh.merged x.now id ho

theorem opened (hinv : Inv sha256 s) (ht : s.sessions.get? t = some x) {left : ℕ}
    (hw : x.work = .webhook h (a :: rest) (.inserting left)) (hfiring : a.2.status = .firing)
    (hu : ∀ i, (s.slot i).undecided t (opening h.tenantId a) = false)
    (hn : ∀ i, (s.slot i).isOpen t (opening h.tenantId a) = false) :
    Inv sha256
      ({ s with slots := s.slots.insert { dirty := some (t, Incidents.opened x.now (opening h.tenantId a)) } }.goto
        t x h (a :: rest) (.enqueueing s.slots.size)) := by
  set k := s.slots.size with hk
  set x' : Session := { x with work := .webhook h (a :: rest) (.enqueueing k) } with hx'
  set e := Handlers.job k h.tenantId (priorityOf a.2.labels) .triage h.settings
  set entry := Api.createdEntry k (opening h.tenantId a) h.actor
  have hempty : s.slot k = {} := slot_size s
  have hno : ∀ inc, (s.slot k).dirty ≠ some (t, inc) := by simp [hempty]
  have hc : x.counted = x.alerts := by simp only [Session.counted, hw, Work.inFlight, List.append_nil]
  have hcj : x.countedJobs = x.jobs := by simp only [Session.countedJobs, hw, Work.jobInFlight, List.append_nil]
  have hca : x.countedAudit = x.audit := by simp only [Session.countedAudit, hw, Work.auditInFlight, List.append_nil]
  have hc' : x'.counted = x.counted ++ [alertRow h.tenantId (some k) a] := by rw [hc]; rfl
  have hcj' : x'.countedJobs = x.countedJobs ++ [e] := by rw [hcj]; rfl
  have hca' : x'.countedAudit = x.countedAudit ++ [entry] := by rw [hca]; rfl
  refine hinv.advance ht rfl rfl rfl rfl rfl (hinv.exclusive.opened hu hn rfl) (fun i => ?_)
    ((hinv.session t x ht).goto hw hfiring) (by simp)
  have hslot := slot_insert s { dirty := some (t, Incidents.opened x.now (opening h.tenantId a)) } i
  by_cases hik : i = k
  · rw [if_pos hik] at hslot
    subst hik
    obtain ⟨hf0, htr0, hcr0⟩ := hinv.absent k (by rw [hempty])
    refine .wrote (Incidents.opened x.now (opening h.tenantId a)) (by rw [hempty]; exact hslot) (by rw [hempty]; rfl) ?_
      (fun _ => by rw [hempty])
    rw [hc', hcj', hca', firingOf_append, firingOf_append, triageOf_append, triageOf_append, createdOf_append,
      createdOf_append, hf0, htr0, hcr0, hinv.no_firing ht hno, (hinv.no_created ht hno).1, (hinv.no_created ht hno).2,
      firingOf_row k k h.tenantId hfiring, triageOf_job, createdOf_entry, if_pos rfl, if_pos rfl, if_pos rfl]
    exact .opened x.now h.tenantId k a e entry
  · rw [if_neg hik] at hslot
    refine .kept hslot ?_ ?_ ?_
    · rw [hc', firingOf_append, firingOf_row i k h.tenantId hfiring, if_neg hik, List.append_nil]
    · rw [hcj', triageOf_append, triageOf_job, if_neg hik, List.append_nil]
    · rw [hca', createdOf_append, createdOf_entry, if_neg hik, List.append_nil]

end Inv

namespace Inv

theorem webhookStmt (hinv : Inv sha256 s) (ht : s.sessions.get? t = some x) (hw : x.work = .webhook h (a :: rest) pc)
    (hs : s.webhookStmt t x h a rest pc = some s') : Inv sha256 s' := by
  have hok := hinv.session t x ht
  have hpc : PcOk a pc := by
    have hwork := hok.work
    rw [hw] at hwork
    exact hwork.2 a rest rfl
  cases pc with
  | next =>
    obtain rfl := Option.some.inj hs
    by_cases hf : a.2.status = .firing
    · rw [if_pos hf]
      exact hinv.goto ht hw rfl rfl rfl hf
    · rw [if_neg hf]
      refine hinv.goto ht hw rfl rfl rfl ?_
      change a.2.status = .resolved
      cases hst : a.2.status with
      | firing => exact absurd hst hf
      | resolved => rfl
  | inserting left =>
    simp only [Tables.webhookStmt] at hs
    split_ifs at hs with hu hn
    · obtain rfl := Option.some.inj hs
      exact hinv.goto ht hw rfl rfl rfl hpc
    · obtain rfl := Option.some.inj hs
      exact hinv.opened ht hw hpc (slot_any hu rfl) (slot_any hn rfl)
  | merging left =>
    simp only [Tables.webhookStmt] at hs
    split at hs
    · obtain rfl := Option.some.inj hs
      exact hinv.noRow ht hw rfl rfl rfl hpc left
    · rename_i id hid
      split_ifs at hs with hl
      · obtain rfl := Option.some.inj hs
        exact hinv.goto ht hw rfl rfl rfl hpc
      · obtain rfl := Option.some.inj hs
        obtain ⟨hlt, hopen, -⟩ := List.findIdx?_eq_some_iff_getElem.mp hid
        refine hinv.mergeInto ht hw rfl rfl rfl hpc ?_ (slot_locked hl)
        simpa [Tables.slot, Table.get?, hlt] using hopen
  | rechecking id left =>
    simp only [Tables.webhookStmt] at hs
    split_ifs at hs with hl hopen
    · obtain rfl := Option.some.inj hs
      refine hinv.mergeInto ht hw rfl rfl rfl hpc ?_ (slot_locked hl)
      obtain ⟨y, hy, ho⟩ := (Option.any_eq_true _ _).mp hopen
      simpa [Tables.slot, hy] using ho
    · obtain rfl := Option.some.inj hs
      exact hinv.noRow ht hw rfl rfl rfl hpc left
  | enqueueing id =>
    simp only [Tables.webhookStmt] at hs
    split_ifs at hs
    obtain rfl := Option.some.inj hs
    rw [hinv.insertJob ht hw]
    have hgoto := hok.goto (p := .auditing id) hw hpc
    refine hinv.still ht rfl rfl rfl rfl rfl rfl (fun i => ?_) (fun i => ?_) (fun i => ?_)
      ⟨hgoto.work, hok.linked, hok.keyed.append (keyed_job id _ _ _), by simp, by simp⟩ (by simp)
    · simp only [Session.counted, hw]
      rfl
    · simp only [Session.countedJobs, hw, Work.jobInFlight, List.append_nil]
    · simp only [Session.countedAudit, hw]
      rfl
  | auditing id =>
    simp only [Tables.webhookStmt] at hs
    split_ifs at hs
    obtain rfl := Option.some.inj hs
    have hgoto := hok.goto (p := .recording (some id)) hw trivial
    refine hinv.still ht rfl rfl rfl rfl rfl rfl (fun i => ?_) (fun i => ?_) (fun i => ?_)
      ⟨hgoto.work, hok.linked, hok.keyed, by simp, by simp⟩ (by simp)
    · simp only [Session.counted, hw]
      rfl
    · simp only [Session.countedJobs, hw]
      rfl
    · simp only [Session.countedAudit, hw, Work.auditInFlight, List.append_nil]
  | looking =>
    obtain rfl := Option.some.inj hs
    have hres : a.2.status = .resolved := hpc
    refine hinv.still
      ht rfl rfl rfl rfl rfl rfl (fun i => ?_) (fun i => ?_) (fun i => ?_) (hok.goto hw ?_) (by simp)
    · -- a resolved alert is not counted, whatever incident it goes to
      simp only [Session.counted, hw, firingOf_append, List.append_cancel_left_eq]
      cases s.findOpen t (opening h.tenantId a) with
      | none => rfl
      | some id => simp [Work.inFlight, firingOf, alertRow, hres]
    · simp only [Session.countedJobs, hw]
      rfl
    · simp only [Session.countedAudit, hw]
      rfl
    · cases s.findOpen t (opening h.tenantId a) with
      | none => exact hres
      | some id => trivial
  | recording incidentId =>
    obtain rfl := Option.some.inj hs
    refine hinv.still ht rfl rfl rfl rfl rfl rfl (fun i => ?_) (fun i => ?_) (fun i => ?_) (hok.recorded hw) (by simp)
    · cases incidentId with
      | none => simp [Session.counted, hw, Work.inFlight, firingOf, alertRow]
      | some id => simp [Session.counted, hw, Work.inFlight]
    · cases incidentId <;> simp [Session.countedJobs, hw, Work.jobInFlight]
    · cases incidentId <;> simp [Session.countedAudit, hw, Work.auditInFlight]
  | failed => cases hs

/-- A session of another transaction counts the rows it has. -/
theorem other_still (hinv : Inv sha256 s) (ht : s.sessions.get? t = some x) {o o' : OtherPc} (hw : x.work = .other o)
    (halerts : s'.alerts = s.alerts) (hjobs : s'.jobs = s.jobs) (haudit : s'.audit = s.audit)
    (hreceived : s'.received = s.received) (hslots : s'.slots = s.slots) {jobs : List Enqueue} {audit : List AuditEntry}
    (hses : s'.sessions = s.sessions.modify t fun _ => { x with jobs, audit, work := .other o' })
    (htr : ∀ i, triageOf i jobs = triageOf i x.jobs) (hc : ∀ i, createdOf i audit = createdOf i x.audit)
    (hkeyed : Keyed jobs) (hcall : ∀ e, o' = .enqueueing e → Keyed [e] ∧ e.kind ≠ .triage)
    (hentry : ∀ e, o' = .appending e → isCreated e = false) : Inv sha256 s' := by
  have hok := hinv.session t x ht
  have hwork := hok.work
  rw [hw] at hwork
  refine hinv.still ht halerts hjobs haudit hreceived hses hslots (fun i => ?_) (fun i => ?_) (fun i => ?_)
    ⟨hwork, hok.linked, hkeyed, fun e he => hcall e (Work.other.inj he),
      fun e he => hentry e (Work.other.inj he)⟩ (by simp)
  · simp only [Session.counted, hw]
    rfl
  · simp only [Session.countedJobs, hw, Work.jobInFlight, List.append_nil, htr]
  · simp only [Session.countedAudit, hw, Work.auditInFlight, List.append_nil, hc]

theorem idle (hinv : Inv sha256 s) (ht : s.sessions.get? t = some x) {o : OtherPc} (hw : x.work = .other o) :
    Inv sha256 (s.set t { x with work := .other .idle }) :=
  hinv.other_still ht hw rfl rfl rfl rfl rfl rfl (fun _ => rfl) (fun _ => rfl) (hinv.session t x ht).keyed
    (by simp) (by simp)

theorem moveStmt (hinv : Inv sha256 s) (ht : s.sessions.get? t = some x) {m : Transition}
    (hw : x.work = .other (.moving m)) (hs : s.moveStmt t x m = some s') : Inv sha256 s' := by
  have hok := hinv.session t x ht
  have hwork := hok.work
  rw [hw] at hwork
  unfold Tables.moveStmt at hs
  split at hs
  · obtain rfl := Option.some.inj hs
    exact hinv.idle ht hw
  · rename_i i hv
    split_ifs at hs with hat hl
    · obtain rfl := Option.some.inj hs
      refine hinv.written (f := Incidents.moved x.now m.toState) ht rfl rfl rfl rfl rfl rfl (slot_of_bind hv)
        (slot_locked hl)
        (fun o j ho => ?_) (fun j _ => ?_) (fun j => ?_) (fun j => ?_) (fun rows jobs audit hh => ?_)
        ⟨hwork, hok.linked, hok.keyed, by simp, fun e he => ?_⟩ (by simp)
      · -- closing opens nothing
        simp only [Incidents.openFor, Bool.and_eq_true, decide_eq_true_eq] at ho ⊢
        refine ⟨ho.1, ?_⟩
        have hnone := ho.2
        unfold Incidents.moved at hnone
        cases hc : j.closedAt with
        | none => rfl
        | some c =>
          simp only [hc] at hnone
          split_ifs at hnone <;> cases hnone
      · simp only [Session.counted, hw]
        rfl
      · simp only [Session.countedJobs, hw]
        rfl
      · simp only [Session.countedAudit, hw]
        rfl
      · have hc : x.counted = x.alerts ++ [] := by simp only [Session.counted, hw, Work.inFlight]
        rw [hc] at hh
        exact hh.moved x.now m.toState
      · simp only [Work.other.injEq, OtherPc.appending.injEq] at he
        subst he
        rfl
    · obtain rfl := Option.some.inj hs
      exact hinv.idle ht hw

theorem otherStmt (hinv : Inv sha256 s) (ht : s.sessions.get? t = some x) {o : OtherPc} (hw : x.work = .other o)
    (hs : s.otherStmt t x o = some s') : Inv sha256 s' := by
  have hok := hinv.session t x ht
  cases o with
  | idle => cases hs
  | moving m => exact hinv.moveStmt ht hw hs
  | appending e =>
    simp only [Tables.otherStmt] at hs
    split_ifs at hs
    obtain rfl := Option.some.inj hs
    refine hinv.other_still ht hw rfl rfl rfl rfl rfl rfl (fun _ => rfl) (fun i => ?_) hok.keyed (by simp) (by simp)
    rw [createdOf_append, createdOf_other i (hok.entry e hw), List.append_nil]
  | enqueueing e =>
    simp only [Tables.otherStmt] at hs
    split_ifs at hs
    obtain rfl := Option.some.inj hs
    obtain ⟨hkey, hkind⟩ := hok.call e hw
    refine hinv.other_still ht hw rfl rfl rfl rfl rfl rfl (fun i => ?_) (fun _ => rfl) (hok.keyed.insertJob hkey)
      (by simp) (by simp)
    unfold Tables.insertJob
    split_ifs
    · rfl
    · rw [triageOf_append, triageOf_other i hkind, List.append_nil]

theorem call (hinv : Inv sha256 s) (ht : s.sessions.get? t = some x) (hw : x.work = .other .idle) {c : Call}
    (hforeign : c.foreign = true) (hs : s.call t x c = some s') : Inv sha256 s' := by
  have hok := hinv.session t x ht
  cases c with
  | transition m =>
    simp only [Tables.call] at hs
    split at hs
    · obtain rfl := Option.some.inj hs
      exact hinv.other_still ht hw rfl rfl rfl rfl rfl rfl (fun _ => rfl) (fun _ => rfl) hok.keyed (by simp) (by simp)
    · obtain rfl := Option.some.inj hs
      exact hinv
  | append e =>
    obtain rfl := Option.some.inj hs
    refine hinv.other_still ht hw rfl rfl rfl rfl rfl rfl (fun _ => rfl) (fun _ => rfl) hok.keyed
      (by simp) fun e' he => ?_
    obtain rfl := OtherPc.appending.inj he
    obtain ⟨actor, event, subject, tenantId⟩ := e
    cases event <;> first | rfl | cases hforeign
  | enqueue e =>
    obtain rfl := Option.some.inj hs
    refine hinv.other_still ht hw rfl rfl rfl rfl rfl rfl (fun _ => rfl) (fun _ => rfl) hok.keyed
      (fun e' he => ?_) (by simp)
    obtain rfl := OtherPc.enqueueing.inj he
    simp only [Call.foreign, ne_eq, Bool.and_eq_true, decide_eq_true_eq] at hforeign
    obtain ⟨hkind, hkey⟩ := hforeign
    refine ⟨fun e' he' i hi => ?_, hkind⟩
    rw [List.mem_singleton.mp he'] at hi
    rw [hi] at hkey
    simp only [decide_eq_true_eq] at hkey
    exact absurd hkey.symm hkind

/-! A transaction ends. -/

/-- What the transaction counted is its rows: it stands between two alerts. -/
structure Between (x : Session) : Prop where
  alerts : x.counted = x.alerts
  jobs : x.countedJobs = x.jobs
  audit : x.countedAudit = x.audit

theorem commit (hinv : Inv sha256 s) (ht : s.sessions.get? t = some x) (hb : Between x)
    {received : List (String × Identified)}
    (hrows : x.alerts.map AlertRow.bare = received.map fun y => alertRow y.1 none y.2) :
    Inv sha256 (s.commit t x received) := by
  have hok := hinv.session t x ht
  have hslot : ∀ i, (s.commit t x received).slot i = (s.slot i).settle t := fun i => slot_update s rfl i
  have hses : ∀ u y, (s.commit t x received).sessions.get? u = some y →
      (u = t ∧ y = Tables.close x) ∨ (u ≠ t ∧ s.sessions.get? u = some y) := by
    intro u y hu
    by_cases hut : u = t
    · subst hut
      have hself : (s.sessions.modify u fun _ => Tables.close x).get? u = some y := hu
      rw [Table.get?_modify_self, ht] at hself
      exact Or.inl ⟨rfl, (Option.some.inj hself).symm⟩
    · exact Or.inr ⟨hut, by rw [← Table.get?_modify_ne _ _ hut]; exact hu⟩
  -- the slot of an incident, with what the transaction did to it
  have hcases : ∀ i, (∃ inc, (s.slot i).dirty = some (t, inc) ∧
      (s.commit t x received).slot i = { committed := some inc }) ∨
      ((∀ inc, (s.slot i).dirty ≠ some (t, inc)) ∧ (s.commit t x received).slot i = s.slot i) := by
    intro i
    rw [hslot]
    unfold Slot.settle
    rcases hd : (s.slot i).dirty with _ | ⟨u, inc⟩
    · exact Or.inr ⟨by simp, rfl⟩
    · by_cases hut : u = t
      · subst hut
        exact Or.inl ⟨inc, rfl, by simp⟩
      · exact Or.inr ⟨by simp [hut], by simp [hut]⟩
  have hclean : ∀ i, (∀ inc, (s.slot i).dirty ≠ some (t, inc)) →
      firingOf i x.alerts = [] ∧ triageOf i x.jobs = [] ∧ createdOf i x.audit = [] := by
    intro i hno
    have hf := hinv.no_firing ht hno
    obtain ⟨htr, hc⟩ := hinv.no_created ht hno
    rw [hb.alerts] at hf
    rw [hb.jobs] at htr
    rw [hb.audit] at hc
    exact ⟨hf, htr, hc⟩
  refine ⟨hinv.exclusive.settle rfl, ?_, ?_, ?_, ?_, ?_, ?_, ?_, ?_, ?_, ?_⟩
  · intro i u inc hd
    rcases hcases i with ⟨j, -, hs⟩ | ⟨hno, hs⟩
    · rw [hs] at hd
      cases hd
    · rw [hs] at hd
      have hut : u ≠ t := by
        rintro rfl
        exact hno inc hd
      obtain ⟨y, hy, hlive⟩ := hinv.owner i u inc hd
      exact ⟨y, by rw [← hy]; exact Table.get?_modify_ne _ _ hut, hlive⟩
  · intro i inc hi
    change Holds (firingOf i (s.alerts ++ x.alerts)) (triageOf i (s.jobs ++ x.jobs))
      (createdOf i (s.audit ++ x.audit)) inc
    rcases hcases i with ⟨j, hd, hs⟩ | ⟨hno, hs⟩
    · rw [hs] at hi
      obtain rfl := Option.some.inj hi
      have hh := hinv.dirty i t j x hd ht
      rwa [hb.alerts, hb.jobs, hb.audit] at hh
    · obtain ⟨hf, htr, hc⟩ := hclean i hno
      rw [hs] at hi
      rw [firingOf_append, triageOf_append, createdOf_append, hf, htr, hc, List.append_nil, List.append_nil,
        List.append_nil]
      exact hinv.committed i inc hi
  · intro i hi
    change firingOf i (s.alerts ++ x.alerts) = [] ∧ triageOf i (s.jobs ++ x.jobs) = [] ∧
      createdOf i (s.audit ++ x.audit) = []
    rcases hcases i with ⟨j, -, hs⟩ | ⟨hno, hs⟩
    · rw [hs] at hi
      cases hi
    · obtain ⟨hf, htr, hc⟩ := hclean i hno
      rw [hs] at hi
      rw [firingOf_append, triageOf_append, createdOf_append, hf, htr, hc, List.append_nil, List.append_nil,
        List.append_nil]
      exact hinv.absent i hi
  · intro i u inc y hd hu
    change Holds (firingOf i (s.alerts ++ x.alerts ++ y.counted)) (triageOf i (s.jobs ++ x.jobs ++ y.countedJobs))
      (createdOf i (s.audit ++ x.audit ++ y.countedAudit)) inc
    rcases hcases i with ⟨j, -, hs⟩ | ⟨hno, hs⟩
    · rw [hs] at hd
      cases hd
    · rw [hs] at hd
      rcases hses u y hu with ⟨rfl, -⟩ | ⟨-, hy⟩
      · exact absurd hd (hno inc)
      · obtain ⟨hf, htr, hc⟩ := hclean i hno
        have hh := hinv.dirty i u inc y hd hy
        rw [firingOf_append, triageOf_append, createdOf_append] at hh
        rw [firingOf_append, triageOf_append, createdOf_append, firingOf_append, triageOf_append, createdOf_append,
          hf, htr, hc, List.append_nil, List.append_nil, List.append_nil]
        exact hh
  · intro u y i hu hne
    rcases hses u y hu with ⟨-, rfl⟩ | ⟨hut, hy⟩
    · exact absurd rfl hne
    · obtain ⟨inc, hd⟩ := hinv.firing u y i hy hne
      rcases hcases i with ⟨j, hdt, -⟩ | ⟨-, hs⟩
      · rw [hdt] at hd
        exact absurd (congrArg Prod.fst (Option.some.inj hd)).symm hut
      · exact ⟨inc, by rw [hs, hd]⟩
  · intro u y i hu hne
    rcases hses u y hu with ⟨-, rfl⟩ | ⟨hut, hy⟩
    · exact absurd hne (by simp [Session.countedJobs, Session.countedAudit, Tables.close, Work.jobInFlight,
        Work.auditInFlight, triageOf, createdOf])
    · obtain ⟨hnew, inc, hd⟩ := hinv.created u y i hy hne
      rcases hcases i with ⟨j, hdt, -⟩ | ⟨-, hs⟩
      · rw [hdt] at hd
        exact absurd (congrArg Prod.fst (Option.some.inj hd)).symm hut
      · exact ⟨by rw [hs, hnew], inc, by rw [hs, hd]⟩
  · intro u y hu
    rcases hses u y hu with ⟨-, rfl⟩ | ⟨-, hy⟩
    · exact ⟨rfl, by simp [Tables.close], by simp [Tables.close, Keyed], by simp [Tables.close], by simp [Tables.close]⟩
    · exact hinv.session u y hy
  · exact hinv.keyed.append hok.keyed
  · intro r hr hf
    rcases List.mem_append.mp hr with hr | hr
    · exact hinv.linked r hr hf
    · exact hok.linked r hr hf
  · change (s.alerts ++ x.alerts).map AlertRow.bare = (s.received ++ received).map _
    rw [List.map_append, List.map_append, hinv.rows, hrows]

theorem rollback (hinv : Inv sha256 s) (ht : s.sessions.get? t = some x) : Inv sha256 (s.rollback t x) := by
  have hslot : ∀ i, (s.rollback t x).slot i = (s.slot i).abandon t := fun i => slot_update s rfl i
  have hses : ∀ u y, (s.rollback t x).sessions.get? u = some y →
      (u = t ∧ y = Tables.close x) ∨ (u ≠ t ∧ s.sessions.get? u = some y) := by
    intro u y hu
    by_cases hut : u = t
    · subst hut
      have hself : (s.sessions.modify u fun _ => Tables.close x).get? u = some y := hu
      rw [Table.get?_modify_self, ht] at hself
      exact Or.inl ⟨rfl, (Option.some.inj hself).symm⟩
    · exact Or.inr ⟨hut, by rw [← Table.get?_modify_ne _ _ hut]; exact hu⟩
  have hcommitted : ∀ i, ((s.rollback t x).slot i).committed = (s.slot i).committed := by
    intro i
    rw [hslot]
    unfold Slot.abandon
    rcases (s.slot i).dirty with _ | ⟨u, inc⟩
    · rfl
    · dsimp only
      split_ifs <;> rfl
  have hdirty : ∀ i u inc, ((s.rollback t x).slot i).dirty = some (u, inc) ↔ u ≠ t ∧
      (s.slot i).dirty = some (u, inc) := by
    intro i u inc
    rw [hslot]
    unfold Slot.abandon
    rcases hd : (s.slot i).dirty with _ | ⟨v, j⟩
    · simp [hd]
    · by_cases hvt : v = t
      · subst hvt
        simp only [if_true, reduceCtorEq, Option.some.injEq, Prod.mk.injEq, false_iff, not_and]
        exact fun hne heq => absurd heq.symm hne
      · simp only [hvt, if_false, hd, Option.some.injEq, Prod.mk.injEq]
        constructor
        · rintro ⟨rfl, rfl⟩
          exact ⟨hvt, rfl, rfl⟩
        · exact And.right
  refine ⟨hinv.exclusive.abandon rfl, ?_, ?_, ?_, ?_, ?_, ?_, ?_, hinv.keyed, hinv.linked, hinv.rows⟩
  · intro i u inc hd
    obtain ⟨hut, hd⟩ := (hdirty i u inc).mp hd
    obtain ⟨y, hy, hlive⟩ := hinv.owner i u inc hd
    exact ⟨y, by rw [← hy]; exact Table.get?_modify_ne _ _ hut, hlive⟩
  · intro i inc hi
    rw [hcommitted] at hi
    exact hinv.committed i inc hi
  · intro i hi
    rw [hcommitted] at hi
    exact hinv.absent i hi
  · intro i u inc y hd hu
    obtain ⟨hut, hd⟩ := (hdirty i u inc).mp hd
    rcases hses u y hu with ⟨rfl, -⟩ | ⟨-, hy⟩
    · exact absurd rfl hut
    · exact hinv.dirty i u inc y hd hy
  · intro u y i hu hne
    rcases hses u y hu with ⟨-, rfl⟩ | ⟨hut, hy⟩
    · exact absurd rfl hne
    · obtain ⟨inc, hd⟩ := hinv.firing u y i hy hne
      exact ⟨inc, (hdirty i u inc).mpr ⟨hut, hd⟩⟩
  · intro u y i hu hne
    rcases hses u y hu with ⟨-, rfl⟩ | ⟨hut, hy⟩
    · exact absurd hne (by simp [Session.countedJobs, Session.countedAudit, Tables.close, Work.jobInFlight,
        Work.auditInFlight, triageOf, createdOf])
    · obtain ⟨hnew, inc, hd⟩ := hinv.created u y i hy hne
      exact ⟨(hcommitted i).trans hnew, inc, (hdirty i u inc).mpr ⟨hut, hd⟩⟩
  · intro u y hu
    rcases hses u y hu with ⟨-, rfl⟩ | ⟨-, hy⟩
    · exact ⟨rfl, by simp [Tables.close], by simp [Tables.close, Keyed], by simp [Tables.close], by simp [Tables.close]⟩
    · exact hinv.session u y hy

/-- A transaction that begins has nothing to its name. -/
theorem begin (hinv : Inv sha256 s) {x : Session} (hc : x.counted = []) (hj : x.countedJobs = [])
    (ha : x.countedAudit = []) (hok : SessionOk sha256 x) : Inv sha256 { s with sessions := s.sessions.insert x } := by
  have hses : ∀ u y, (s.sessions.insert x).get? u = some y → y = x ∨ s.sessions.get? u = some y := by
    intro u y hu
    rw [Table.get?_insert] at hu
    split_ifs at hu
    · exact Or.inl (Option.some.inj hu).symm
    · exact Or.inr hu
  refine ⟨hinv.exclusive.congr rfl, ?_, hinv.committed, hinv.absent, ?_, ?_, ?_, ?_, hinv.keyed, hinv.linked, hinv.rows⟩
  · intro i u inc hd
    obtain ⟨y, hy, hlive⟩ := hinv.owner i u inc hd
    exact ⟨y, Table.get?_insert_of_some x hy, hlive⟩
  · intro i u inc y hd hu
    obtain ⟨z, hz, -⟩ := hinv.owner i u inc hd
    have hzy := Table.get?_insert_of_some x hz
    rw [hu] at hzy
    obtain rfl := Option.some.inj hzy
    exact hinv.dirty i u inc y hd hz
  · intro u y i hu hne
    rcases hses u y hu with rfl | hy
    · rw [hc] at hne
      exact absurd rfl hne
    · exact hinv.firing u y i hy hne
  · intro u y i hu hne
    rcases hses u y hu with rfl | hy
    · rw [hj, ha] at hne
      exact absurd hne (by simp [triageOf, createdOf])
    · exact hinv.created u y i hy hne
  · intro u y hu
    rcases hses u y hu with rfl | hy
    · exact hok
    · exact hinv.session u y hy

theorem init : Inv sha256 {} := by
  refine ⟨?_, ?_, ?_, ?_, ?_, ?_, ?_, ?_, ?_, ?_, rfl⟩ <;>
    simp [Exclusive, Tables.slot, Slot.value, firingOf, triageOf, createdOf, Keyed]

/-- One step of anybody. -/
theorem step (hinv : Inv sha256 s) {op : Op} (hs : Ingest.step sha256 s op = some s') : Inv sha256 s' := by
  cases op with
  | webhook now h =>
    obtain rfl := Option.some.inj hs
    refine hinv.begin ?_ ?_ ?_ ⟨⟨rfl, fun _ _ _ => trivial⟩, ?_, ?_, ?_, ?_⟩ <;>
      simp [Keyed, Session.counted, Session.countedJobs, Session.countedAudit, Work.inFlight, Work.jobInFlight,
        Work.auditInFlight]
  | begin now =>
    obtain rfl := Option.some.inj hs
    refine hinv.begin rfl rfl rfl ⟨rfl, ?_, ?_, ?_, ?_⟩ <;> simp [Keyed]
  | call t c =>
    obtain ⟨x, ht, hs⟩ := Option.bind_eq_some_iff.mp hs
    split at hs
    · rename_i hw
      split_ifs at hs with hf
      exact hinv.call ht hw hf hs
    · cases hs
  | next t =>
    obtain ⟨x, ht, hs⟩ := Option.bind_eq_some_iff.mp hs
    split at hs
    · rename_i hw
      exact hinv.webhookStmt ht hw hs
    · rename_i hw
      exact hinv.otherStmt ht hw hs
    · cases hs
  | commit t =>
    obtain ⟨x, ht, hs⟩ := Option.bind_eq_some_iff.mp hs
    have hwork := (hinv.session t x ht).work
    split at hs
    · rename_i h hw
      obtain rfl := Option.some.inj hs
      rw [hw] at hwork
      refine hinv.commit ht ⟨?_, ?_, ?_⟩ ?_
      · simp only [Session.counted, hw, Work.inFlight, List.append_nil]
      · simp only [Session.countedJobs, hw, Work.jobInFlight, List.append_nil]
      · simp only [Session.countedAudit, hw, Work.auditInFlight, List.append_nil]
      · rw [List.map_map]
        exact (List.append_nil _).symm.trans hwork.1
    · rename_i hw
      obtain rfl := Option.some.inj hs
      rw [hw] at hwork
      refine hinv.commit ht ⟨?_, ?_, ?_⟩ ?_
      · simp only [Session.counted, hw, Work.inFlight, List.append_nil]
      · simp only [Session.countedJobs, hw, Work.jobInFlight, List.append_nil]
      · simp only [Session.countedAudit, hw, Work.auditInFlight, List.append_nil]
      · rw [show x.alerts = [] from hwork]
        rfl
    · cases hs
  | rollback t =>
    obtain ⟨x, ht, hs⟩ := Option.bind_eq_some_iff.mp hs
    split at hs
    · cases hs
    · obtain rfl := Option.some.inj hs
      exact hinv.rollback ht

theorem run {ops : List Op} (hs : Runs.run (Ingest.step sha256) {} ops = some s) : Inv sha256 s :=
  Runs.invariant (fun _ _ _ hinv hstep => hinv.step hstep) hs init

end Inv

/-- Whatever webhooks and moves of incidents run at once, in whatever order. -/
theorem ingest_conserved (sha256 : String → String) (ops : List Op) (s : Tables)
    (hs : Runs.run (step sha256) {} ops = some s) : Conserved s := (Inv.run hs).conserved

/-- The digest of `["HighErrorRate","checkout","production"]`. -/
def sampleSha : String → String := fun _ => "ac3af31964d058b8939376526771c98695441d47109d1954988e9d067395b93f"

def sampleAlert (status : AlertStatus) (severity : String) : Alert :=
  { status, labels := [("alertname", "HighErrorRate"), ("service", "checkout"), ("env", "production"),
    ("severity", severity)], named := by simp }

def sampleWebhook (severity : String) : Webhook :=
  { tenantId := "acme", actor := .webhook "alertmanager", settings := {}, alerts := [sampleAlert .firing severity] }

/-- Two webhooks for one incident at once. The second finds it only when the first has committed. -/
def sampleOps : List Op :=
  [.webhook 0 (sampleWebhook "warning"), .webhook 0 (sampleWebhook "critical"), .next 0, .next 1, .next 0,
    .next 0, .next 0, .next 0, .commit 0, .next 1, .next 1, .next 1, .commit 1]

theorem sampleOps_run : ((Runs.run (step sampleSha) {} sampleOps).map fun s =>
    (s.incident? 0).map fun i => (i.alertCount, i.priority)) = some (some (2, 1)) := by decide +kernel

theorem ingest_conserved_merged : ∃ s, Runs.run (step sampleSha) {} sampleOps = some s ∧
    ((s.incident? 0).map fun i => (i.alertCount, i.priority)) = some (2, 1) ∧ Conserved s := by
  obtain ⟨s, hs, hi⟩ := Option.map_eq_some_iff.mp sampleOps_run
  exact ⟨s, hs, hi, ingest_conserved sampleSha sampleOps s hs⟩

end Ingest

end Blackboard
