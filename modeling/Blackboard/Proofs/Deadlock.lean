import Blackboard.Proofs.Conservation

/-! Two webhooks at once. Rows are locked in the order of the fingerprints, but the lock of the
audit log is taken in between, by the first alert that opens an incident. So one of them can hold
that lock and wait for a row of the other, which is about to open an incident of its own. -/

namespace Blackboard.Ingest

/-- An open incident of the key. -/
def atKey (tenantId fingerprint : String) (i : Incident) : Bool :=
  i.tenantId = tenantId && i.fingerprint = fingerprint && i.closedAt.isNone

theorem openFor_opening (tenantId : String) (a : Identified) :
    Incidents.openFor (opening tenantId a) = atKey tenantId a.1.fingerprint := rfl

theorem atKey_iff {tenantId fingerprint : String} {i : Incident} :
    atKey tenantId fingerprint i = true ↔ i.tenantId = tenantId ∧ i.fingerprint = fingerprint ∧ i.closedAt = none := by
  simp [atKey, and_assoc]

/-- Tables that nobody is at work on, with their unique index. -/
structure Database where
  slots : Table Slot := .empty
  alerts : List AlertRow := []
  jobs : List Enqueue := []
  audit : List AuditEntry := []
  received : List (String × Identified) := []
  clean : ∀ y ∈ slots.rows, y.dirty = none
  unique : ∀ o i j y z, slots.get? i = some y → slots.get? j = some z → y.committed.any (Incidents.openFor o) = true →
    z.committed.any (Incidents.openFor o) = true → i = j

namespace Database

def slot (D : Database) (i : ℕ) : Slot := (D.slots.get? i).getD {}

def isOpen (D : Database) (tenantId fingerprint : String) : Prop :=
  ∃ i inc, (D.slot i).committed = some inc ∧ atKey tenantId fingerprint inc = true

/-- Two transactions have begun. -/
def tables (D : Database) (sha256 : String → String) (now : ℕ → Time) (hooks : ℕ → Webhook) : Tables :=
  { slots := D.slots, alerts := D.alerts, jobs := D.jobs, audit := D.audit, received := D.received,
    sessions := ⟨[⟨now 0, .webhook (hooks 0) ((hooks 0).identified sha256) .next, [], [], []⟩,
      ⟨now 1, .webhook (hooks 1) ((hooks 1).identified sha256) .next, [], [], []⟩]⟩ }

end Database

def Op.begins : Op → Bool
  | .webhook .. | .begin _ => true
  | _ => false

/-- Each of the two comes to wait for the other. -/
def Deadlock (sha256 : String → String) (D : Database) (now : ℕ → Time) (hooks : ℕ → Webhook) : Prop :=
  ∃ ops s, (∀ op ∈ ops, op.begins = false) ∧ Runs.run (step sha256) (D.tables sha256 now hooks) ops = some s ∧
    s.waitsFor 0 1 = true ∧ s.waitsFor 1 0 = true

def Webhook.fires (sha256 : String → String) (h : Webhook) (fingerprint : String) : Prop :=
  ∃ a ∈ h.alerts, a.status = .firing ∧ (identify sha256 a.labels).fingerprint = fingerprint

/-- Before the first key they share, `A` opens an incident and `B` opens none; from there on `B` opens one. -/
def Crossed (sha256 : String → String) (D : Database) (A B : Webhook) : Prop :=
  A.tenantId = B.tenantId ∧ ∃ g, A.fires sha256 g ∧ B.fires sha256 g ∧
    (∀ e < g, ¬ (A.fires sha256 e ∧ B.fires sha256 e)) ∧
    (∃ d < g, A.fires sha256 d ∧ ¬ D.isOpen A.tenantId d) ∧
    (∀ e < g, B.fires sha256 e → D.isOpen B.tenantId e) ∧
    ∃ c, g ≤ c ∧ B.fires sha256 c ∧ ¬ D.isOpen B.tenantId c

/-! The alerts of a webhook, in their order. -/

theorem fires_iff {sha256 : String → String} {h : Webhook} {g : String} :
    h.fires sha256 g ↔ ∃ a ∈ h.identified sha256, a.2.status = .firing ∧ a.1.fingerprint = g := by
  unfold Webhook.fires Webhook.identified
  simp only [List.mem_insertionSort, List.mem_map]
  constructor
  · rintro ⟨a, ha, hf, hg⟩
    exact ⟨_, ⟨a, ha, rfl⟩, hf, hg⟩
  · rintro ⟨_, ⟨a, ha, rfl⟩, hf, hg⟩
    exact ⟨a, ha, hf, hg⟩

theorem identified_sorted (sha256 : String → String) (h : Webhook) :
    (h.identified sha256).Pairwise fun a b => a.1.fingerprint ≤ b.1.fingerprint := by
  have htotal : Std.Total fun a b : Identified => a.1.fingerprint ≤ b.1.fingerprint :=
    ⟨fun a b => String.le_total a.1.fingerprint b.1.fingerprint⟩
  have htrans : IsTrans Identified fun a b => a.1.fingerprint ≤ b.1.fingerprint :=
    ⟨fun _ _ _ => String.le_trans⟩
  exact List.pairwise_insertionSort _ _

namespace WebhookPc

/-- The row of the alert in front is written. -/
def written : WebhookPc → Bool
  | .enqueueing _ | .auditing _ | .recording _ => true
  | _ => false

/-- Its audit row is too, if it opened an incident. -/
def audited : WebhookPc → Bool
  | .recording _ => true
  | _ => false

/-- How many statements are left to it. -/
def left : WebhookPc → ℕ
  | .next => 6
  | .inserting _ => 5
  | .merging _ => 4
  | .rechecking _ _ | .enqueueing _ => 3
  | .auditing _ | .looking => 2
  | .recording _ => 1
  | .failed => 0

end WebhookPc

/-- The alerts done with, and the one in front if `p` says so. -/
def behind (p : WebhookPc → Bool) (done todo : List Identified) (pc : WebhookPc) : List Identified :=
  done ++ if p pc then todo.take 1 else []

theorem mem_behind {p : WebhookPc → Bool} {done rest : List Identified} {a b : Identified} {pc : WebhookPc} :
    b ∈ behind p done (a :: rest) pc ↔ b ∈ done ∨ p pc = true ∧ b = a := by
  unfold behind
  cases p pc <;> simp

theorem behind_nil {p : WebhookPc → Bool} {done : List Identified} {pc : WebhookPc} : behind p done [] pc = done := by
  simp [behind]

/-! What holds of each of them while both are open. -/

/-- How far transaction `t` is with its webhook: the rows it has written are those of the alerts
behind it, and it holds the lock if one of them was new. -/
structure Progress (sha256 : String → String) (D : Database) (s : Tables) (t : ℕ) (h : Webhook) (x : Session)
    (done todo : List Identified) (pc : WebhookPc) : Prop where
  session : s.sessions.get? t = some x
  work : x.work = .webhook h todo pc
  split : h.identified sha256 = done ++ todo
  pcOk : ∀ a rest, todo = a :: rest → PcOk a pc
  held : ∀ i inc, (s.slot i).dirty = some (t, inc) → ∃ a ∈ behind WebhookPc.written done todo pc,
    a.2.status = .firing ∧ atKey h.tenantId a.1.fingerprint inc = true
  holds : ∀ a ∈ behind WebhookPc.written done todo pc, a.2.status = .firing →
    ∃ i inc, (s.slot i).dirty = some (t, inc) ∧ atKey h.tenantId a.1.fingerprint inc = true
  lock : s.lock = some t → ∃ a ∈ behind WebhookPc.audited done todo pc,
    a.2.status = .firing ∧ ¬ D.isOpen h.tenantId a.1.fingerprint
  noLock : s.lock ≠ some t → ∀ a ∈ behind WebhookPc.audited done todo pc, a.2.status = .firing →
    D.isOpen h.tenantId a.1.fingerprint
  new : ∀ a rest id, todo = a :: rest → pc = .enqueueing id ∨ pc = .auditing id → ¬ D.isOpen h.tenantId a.1.fingerprint
  found : ∀ a rest left, todo = a :: rest → pc = .merging left → ∃ i, (s.slot i).isOpen t (opening h.tenantId a) = true
  blocked : ∀ a rest id left, todo = a :: rest → pc = .rechecking id left →
    (s.slot id).lockedFor t = true ∧ (s.slot id).committed.any (Incidents.openFor (opening h.tenantId a)) = true
  jobs : ∀ j ∈ x.jobs, ∃ i inc, j.idempotencyKey = some (.incident i .triage) ∧ (s.slot i).dirty = some (t, inc)
  opened : ∀ id, pc = .enqueueing id → ∃ inc, (s.slot id).dirty = some (t, inc)
  alive : pc ≠ .failed

/-- Both transactions are open. -/
structure Pair (sha256 : String → String) (D : Database) (hooks : ℕ → Webhook) (s : Tables) : Prop where
  committed : ∀ i, (s.slot i).committed = (D.slot i).committed
  exclusive : Exclusive s
  keyed : ∀ i u inc c, (s.slot i).dirty = some (u, inc) → (s.slot i).committed = some c →
    inc.tenantId = c.tenantId ∧ inc.fingerprint = c.fingerprint
  owner : ∀ i u inc, (s.slot i).dirty = some (u, inc) → u < 2
  lock : ∀ u, s.lock = some u → u < 2
  size : s.sessions.size = 2
  each : ∀ t < 2, ∃ x done todo pc, Progress sha256 D s t (hooks t) x done todo pc

/-- What a statement of `t` does to the rows. -/
def Wrote (s s' : Tables) (t : ℕ) : Prop :=
  ∀ i, s'.slot i = s.slot i ∨ (s.slot i).lockedFor t = false ∧
  ∃ inc, s'.slot i = { s.slot i with dirty := some (t, inc) } ∧
    ∀ c, (s.slot i).committed = some c → inc.tenantId = c.tenantId ∧ inc.fingerprint = c.fingerprint

variable {sha256 : String → String} {D : Database} {hooks : ℕ → Webhook} {s s' : Tables} {t u : ℕ} {h : Webhook}
  {x x' : Session} {done todo rest : List Identified} {a : Identified} {pc pc' : WebhookPc}

namespace Wrote

theorem committed (hw : Wrote s s' t) (i : ℕ) : (s'.slot i).committed = (s.slot i).committed := by
  rcases hw i with hi | ⟨-, inc, hi, -⟩ <;> rw [hi]

/-- The rows of another transaction are left alone. -/
theorem dirty_other (hw : Wrote s s' t) (hut : u ≠ t) {i : ℕ} {inc : Incident} :
    (s'.slot i).dirty = some (u, inc) ↔ (s.slot i).dirty = some (u, inc) := by
  rcases hw i with hi | ⟨hl, j, hi, -⟩
  · rw [hi]
  · rw [hi]
    constructor
    · intro hd
      exact absurd (congrArg Prod.fst (Option.some.inj hd)).symm hut
    · intro hd
      unfold Slot.lockedFor at hl
      rw [hd] at hl
      simp [hut] at hl

theorem visible_other (hw : Wrote s s' t) (hut : u ≠ t) (i : ℕ) : (s'.slot i).visible u = (s.slot i).visible u := by
  rcases hw i with hi | ⟨hl, j, hi, -⟩
  · rw [hi]
  · rw [hi]
    unfold Slot.lockedFor at hl
    unfold Slot.visible
    rcases hd : (s.slot i).dirty with _ | ⟨v, k⟩
    · simp [Ne.symm hut]
    · rw [hd] at hl
      simp only [ne_eq, decide_eq_false_iff_not, not_not] at hl
      subst hl
      simp [Ne.symm hut]

theorem locked_other (hw : Wrote s s' t) (hut : u ≠ t) {i : ℕ} (hl : (s.slot i).lockedFor u = true) :
    (s'.slot i).lockedFor u = true := by
  rcases hw i with hi | ⟨-, j, hi, -⟩
  · rw [hi]
    exact hl
  · rw [hi]
    simpa [Slot.lockedFor] using Ne.symm hut

end Wrote

/-- What one transaction does leaves the other where it is. -/
theorem Progress.frame (hp : Progress sha256 D s u h x done todo pc) (hut : u ≠ t) (hw : Wrote s s' t)
    (hlock : s'.lock = some u ↔ s.lock = some u) (hses : s'.sessions = s.sessions.modify t fun _ => x') :
    Progress sha256 D s' u h x done todo pc := by
  refine ⟨?_, hp.work, hp.split, hp.pcOk, ?_, ?_, ?_, ?_, hp.new, ?_, ?_, ?_, ?_, hp.alive⟩
  · rw [hses, Table.get?_modify_ne _ _ hut]
    exact hp.session
  · intro i inc hd
    exact hp.held i inc ((hw.dirty_other hut).mp hd)
  · intro a ha hf
    obtain ⟨i, inc, hd, hk⟩ := hp.holds a ha hf
    exact ⟨i, inc, (hw.dirty_other hut).mpr hd, hk⟩
  · exact fun hl => hp.lock (hlock.mp hl)
  · exact fun hl => hp.noLock fun hl' => hl (hlock.mpr hl')
  · intro a rest left ha hpc
    obtain ⟨i, hi⟩ := hp.found a rest left ha hpc
    refine ⟨i, ?_⟩
    unfold Slot.isOpen
    rw [hw.visible_other hut]
    exact hi
  · intro a rest id left ha hpc
    obtain ⟨hl, hc⟩ := hp.blocked a rest id left ha hpc
    exact ⟨hw.locked_other hut hl, by rw [hw.committed]; exact hc⟩
  · intro j hj
    obtain ⟨i, inc, hk, hd⟩ := hp.jobs j hj
    exact ⟨i, inc, hk, (hw.dirty_other hut).mpr hd⟩
  · intro id hpc
    obtain ⟨inc, hd⟩ := hp.opened id hpc
    exact ⟨inc, (hw.dirty_other hut).mpr hd⟩

/-- One statement of `t`, and how far it is then. -/
structure Moved (sha256 : String → String) (D : Database) (s s' : Tables) (t : ℕ) (h : Webhook) (todo : List Identified)
    (pc : WebhookPc) (x' : Session) (done' todo' : List Identified) (pc' : WebhookPc) : Prop where
  progress : Progress sha256 D s' t h x' done' todo' pc'
  wrote : Wrote s s' t
  exclusive : Exclusive s'
  session : s'.sessions = s.sessions.modify t fun _ => x'
  lock : s'.lock = s.lock ∨ (∃ id, pc = .auditing id) ∧ s'.lock = some t ∧ ∀ u, s.lock = some u → u = t
  fewer : 7 * todo'.length + pc'.left < 7 * todo.length + pc.left

theorem Pair.moved (hp : Pair sha256 D hooks s) (ht : t < 2) {done' todo' : List Identified}
    (hm : Moved sha256 D s s' t (hooks t) todo pc x' done' todo' pc') : Pair sha256 D hooks s' := by
  refine ⟨fun i => (hm.wrote.committed i).trans (hp.committed i), hm.exclusive, ?_, ?_, ?_, ?_, ?_⟩
  · intro i u inc c hd hc
    rw [hm.wrote.committed] at hc
    rcases hm.wrote i with hi | ⟨-, j, hi, hk⟩
    · rw [hi] at hd
      exact hp.keyed i u inc c hd hc
    · rw [hi] at hd
      obtain rfl : j = inc := congrArg Prod.snd (Option.some.inj hd)
      exact hk c hc
  · intro i u inc hd
    rcases hm.wrote i with hi | ⟨-, j, hi, -⟩
    · rw [hi] at hd
      exact hp.owner i u inc hd
    · rw [hi] at hd
      obtain rfl : t = u := congrArg Prod.fst (Option.some.inj hd)
      exact ht
  · intro u hu
    rcases hm.lock with hl | ⟨-, hl, -⟩
    · exact hp.lock u (hl ▸ hu)
    · rw [hl] at hu
      obtain rfl := Option.some.inj hu
      exact ht
  · rw [hm.session, Table.size_modify]
    exact hp.size
  · intro u hu
    by_cases hut : u = t
    · subst hut
      exact ⟨_, _, _, _, hm.progress⟩
    · obtain ⟨y, d, td, p, hpr⟩ := hp.each u hu
      refine ⟨y, d, td, p, hpr.frame hut hm.wrote ?_ hm.session⟩
      rcases hm.lock with hl | ⟨-, hl, hfree⟩
      · rw [hl]
      · rw [hl]
        exact ⟨fun he => absurd (Option.some.inj he).symm hut, fun he => absurd (hfree u he) hut⟩

/-! The statements. -/

namespace Pair

/-- A statement that writes no row of `incidents` and takes no lock. -/
theorem still (hp : Pair sha256 D hooks s) {done' todo' : List Identified}
    (hpr : Progress sha256 D s t h x done todo pc) (hslots : s'.slots = s.slots) (hlock : s'.lock = s.lock)
    (hses : s'.sessions = s.sessions.modify t fun _ => x') (hwork : x'.work = .webhook h todo' pc')
    (hsplit : done' ++ todo' = done ++ todo) (hjobs : ∀ j ∈ x'.jobs, ∃ i inc,
      j.idempotencyKey = some (.incident i .triage) ∧ (s.slot i).dirty = some (t, inc))
    (hok : ∀ a rest, todo' = a :: rest → PcOk a pc')
    (hwr : ∀ b, b.2.status = .firing →
      (b ∈ behind WebhookPc.written done' todo' pc' ↔ b ∈ behind WebhookPc.written done todo pc))
    (hau : ∀ b, b.2.status = .firing →
      (b ∈ behind WebhookPc.audited done' todo' pc' ↔ b ∈ behind WebhookPc.audited done todo pc))
    (hnew : ∀ a rest id, todo' = a :: rest → pc' = .enqueueing id ∨ pc' = .auditing id →
      ¬ D.isOpen h.tenantId a.1.fingerprint)
    (hfound : ∀ a rest left, todo' = a :: rest → pc' = .merging left →
      ∃ i, (s.slot i).isOpen t (opening h.tenantId a) = true)
    (hblocked : ∀ a rest id left, todo' = a :: rest → pc' = .rechecking id left →
      (s.slot id).lockedFor t = true ∧ (s.slot id).committed.any (Incidents.openFor (opening h.tenantId a)) = true)
    (hopened : ∀ id, pc' ≠ .enqueueing id) (halive : pc' ≠ .failed)
    (hfewer : 7 * todo'.length + pc'.left < 7 * todo.length + pc.left) :
    Moved sha256 D s s' t h todo pc x' done' todo' pc' := by
  have hslot : ∀ i, s'.slot i = s.slot i := by
    intro i
    unfold Tables.slot
    rw [hslots]
  refine ⟨⟨?_, hwork, ?_, hok, ?_, ?_, ?_, ?_, hnew, ?_, ?_, ?_, ?_, halive⟩, fun i => Or.inl (hslot i),
    hp.exclusive.congr hslots, hses, Or.inl hlock, hfewer⟩
  · rw [hses, Table.get?_modify_self, hpr.session]
    rfl
  · rw [hpr.split, hsplit]
  · intro i inc hd
    rw [hslot] at hd
    obtain ⟨b, hb, hf, hk⟩ := hpr.held i inc hd
    exact ⟨b, (hwr b hf).mpr hb, hf, hk⟩
  · intro b hb hf
    obtain ⟨i, inc, hd, hk⟩ := hpr.holds b ((hwr b hf).mp hb) hf
    exact ⟨i, inc, by rw [hslot, hd], hk⟩
  · intro hl
    rw [hlock] at hl
    obtain ⟨b, hb, hf, hn⟩ := hpr.lock hl
    exact ⟨b, (hau b hf).mpr hb, hf, hn⟩
  · intro hl b hb hf
    rw [hlock] at hl
    exact hpr.noLock hl b ((hau b hf).mp hb) hf
  · intro a rest left ha hpc
    obtain ⟨i, hi⟩ := hfound a rest left ha hpc
    exact ⟨i, by rw [hslot, hi]⟩
  · intro a rest id left ha hpc
    rw [hslot]
    exact hblocked a rest id left ha hpc
  · intro j hj
    obtain ⟨i, inc, hk, hd⟩ := hjobs j hj
    exact ⟨i, inc, hk, by rw [hslot, hd]⟩
  · exact fun id hpc => absurd hpc (hopened id)

/-- A statement that writes the row of the alert in front. -/
theorem wrote (hpr : Progress sha256 D s t h x done (a :: rest) pc) {k : ℕ} {inc : Incident}
    (hslot : ∀ i, s'.slot i = if i = k then { s.slot k with dirty := some (t, inc) } else s.slot i)
    (hfree : (s.slot k).lockedFor t = false)
    (hkey : ∀ c, (s.slot k).committed = some c → inc.tenantId = c.tenantId ∧ inc.fingerprint = c.fingerprint)
    (hsame : ∀ u c, (s.slot k).dirty = some (u, c) → inc.tenantId = c.tenantId ∧ inc.fingerprint = c.fingerprint)
    (hinc : atKey h.tenantId a.1.fingerprint inc = true) (hf : a.2.status = .firing) (hlock : s'.lock = s.lock)
    (hses : s'.sessions = s.sessions.modify t fun _ => x') (hwork : x'.work = .webhook h (a :: rest) pc')
    (hjobs : x'.jobs = x.jobs) (hex : Exclusive s') (hpw : pc.written = false) (hpa : pc.audited = false)
    (hpw' : pc'.written = true) (hok : PcOk a pc')
    (hnew : ∀ id, pc' = .enqueueing id ∨ pc' = .auditing id → ¬ D.isOpen h.tenantId a.1.fingerprint)
    (haud : pc'.audited = true → s.lock ≠ some t → D.isOpen h.tenantId a.1.fingerprint)
    (hopened : ∀ id, pc' = .enqueueing id → id = k) (hfewer : pc'.left < pc.left) :
    Moved sha256 D s s' t h (a :: rest) pc x' done (a :: rest) pc' := by
  have hself : s'.slot k = { s.slot k with dirty := some (t, inc) } := by rw [hslot, if_pos rfl]
  have hother : ∀ i, i ≠ k → s'.slot i = s.slot i := fun i hi => by rw [hslot, if_neg hi]
  -- a row that `t` had written is written still, with its key
  have hstill : ∀ i c, (s.slot i).dirty = some (t, c) → ∃ c', (s'.slot i).dirty = some (t, c') ∧
      ∀ g, atKey h.tenantId g c = true → atKey h.tenantId g c' = true := by
    intro i c hd
    by_cases hik : i = k
    · subst hik
      refine ⟨inc, by rw [hself], fun g hg => ?_⟩
      obtain ⟨ht, hfp⟩ := hsame t c hd
      rw [atKey_iff] at hg hinc ⊢
      exact ⟨ht.trans hg.1, hfp.trans hg.2.1, hinc.2.2⟩
    · exact ⟨c, by rw [hother i hik, hd], fun _ hg => hg⟩
  have hpc' : ∀ b, b ∈ behind WebhookPc.written done (a :: rest) pc' ↔ b ∈ done ∨ b = a := by simp [mem_behind, hpw']
  have hpc : ∀ b, b ∈ behind WebhookPc.written done (a :: rest) pc ↔ b ∈ done := by simp [mem_behind, hpw]
  refine ⟨⟨?_, hwork, hpr.split, ?_, ?_, ?_, ?_, ?_, ?_, ?_, ?_, ?_, ?_, ?_⟩, ?_, hex, hses, Or.inl hlock,
    Nat.add_lt_add_left hfewer _⟩
  · rw [hses, Table.get?_modify_self, hpr.session]
    rfl
  · intro b rest' hb
    obtain ⟨rfl, -⟩ := List.cons.inj hb
    exact hok
  · intro i c hd
    by_cases hik : i = k
    · subst hik
      rw [hself] at hd
      obtain rfl : inc = c := congrArg Prod.snd (Option.some.inj hd)
      exact ⟨a, (hpc' a).mpr (Or.inr rfl), hf, hinc⟩
    · rw [hother i hik] at hd
      obtain ⟨b, hb, hbf, hk⟩ := hpr.held i c hd
      exact ⟨b, (hpc' b).mpr (Or.inl ((hpc b).mp hb)), hbf, hk⟩
  · intro b hb hbf
    rcases (hpc' b).mp hb with hb | rfl
    · obtain ⟨i, c, hd, hk⟩ := hpr.holds b ((hpc b).mpr hb) hbf
      obtain ⟨c', hd', hk'⟩ := hstill i c hd
      exact ⟨i, c', hd', hk' _ hk⟩
    · exact ⟨k, inc, by rw [hself], hinc⟩
  · intro hl
    rw [hlock] at hl
    obtain ⟨b, hb, hbf, hn⟩ := hpr.lock hl
    rw [mem_behind, hpa] at hb
    exact ⟨b, mem_behind.mpr (Or.inl (hb.resolve_right (by simp))), hbf, hn⟩
  · intro hl b hb hbf
    rw [hlock] at hl
    rcases mem_behind.mp hb with hb | ⟨hp', rfl⟩
    · exact hpr.noLock hl b (mem_behind.mpr (Or.inl hb)) hbf
    · exact haud hp' hl
  · intro b rest' id hb hp'
    obtain ⟨rfl, -⟩ := List.cons.inj hb
    exact hnew id hp'
  · intro b rest' left hb hp'
    rw [hp'] at hpw'
    cases hpw'
  · intro b rest' id left hb hp'
    rw [hp'] at hpw'
    cases hpw'
  · rw [hjobs]
    intro j hj
    obtain ⟨i, c, hk, hd⟩ := hpr.jobs j hj
    obtain ⟨c', hd', -⟩ := hstill i c hd
    exact ⟨i, c', hk, hd'⟩
  · intro id hp'
    exact ⟨inc, by rw [hopened id hp', hself]⟩
  · rintro rfl
    cases hpw'
  · intro i
    by_cases hik : i = k
    · subst hik
      exact Or.inr ⟨hfree, inc, hself, hkey⟩
    · exact Or.inl (hother i hik)

/-- The transaction sees the row in the version it wrote, or else in the database's. -/
theorem visible_or (hp : Pair sha256 D hooks s) (hpr : Progress sha256 D s t h x done todo pc) {i : ℕ} {inc : Incident}
    (hv : (s.slot i).visible t = some inc) (hl : (s.slot i).lockedFor t = false) :
    (s.slot i).dirty = some (t, inc) ∨ (s.slot i).dirty = none ∧ (D.slot i).committed = some inc := by
  unfold Slot.visible at hv
  unfold Slot.lockedFor at hl
  rcases hd : (s.slot i).dirty with _ | ⟨u, j⟩
  · rw [hd] at hv
    exact Or.inr ⟨rfl, by rw [← hp.committed, ← hv]⟩
  · rw [hd] at hv hl
    simp only [ne_eq, decide_eq_false_iff_not, not_not] at hl
    subst hl
    simp only [if_true, Option.some.injEq] at hv
    rw [hv]
    exact Or.inl rfl

theorem merged (hp : Pair sha256 D hooks s) (hpr : Progress sha256 D s t h x done (a :: rest) pc)
    (hpw : pc.written = false) (hpa : pc.audited = false) (hf : a.2.status = .firing) {id : ℕ}
    (hopen : (s.slot id).isOpen t (opening h.tenantId a) = true) (hl : (s.slot id).lockedFor t = false)
    (hleft : 1 < pc.left) :
    Moved sha256 D s (s.mergeInto t x h (a :: rest) (opening h.tenantId a) id) t h (a :: rest) pc
      { x with work := .webhook h (a :: rest) (.recording (some id)) } done (a :: rest) (.recording (some id)) := by
  obtain ⟨inc, hv, ho⟩ := (Option.any_eq_true _ _).mp hopen
  rw [openFor_opening] at ho
  have hslot : ∀ i, (s.mergeInto t x h (a :: rest) (opening h.tenantId a) id).slot i =
      if i = id then { s.slot id with dirty := some (t, Incidents.merged x.now (opening h.tenantId a) inc) }
      else s.slot i := by
    intro i
    refine (slot_modify s id i rfl).trans ?_
    split_ifs with hi
    · rw [hi, Slot.write, hv]
    · rfl
  refine wrote hpr hslot hl ?_ ?_ ho hf rfl rfl rfl rfl
    (hp.exclusive.written (f := Incidents.merged x.now (opening h.tenantId a)) hl
      (fun _ _ hi => hi) rfl) hpw hpa rfl trivial
    ?_ ?_ (by simp) hleft
  · intro c hc
    rcases hp.visible_or hpr hv hl with hd | ⟨-, hD⟩
    · exact hp.keyed id t inc c hd hc
    · rw [hp.committed, hD] at hc
      obtain rfl := Option.some.inj hc
      exact ⟨rfl, rfl⟩
  · intro u c hd
    rcases hp.visible_or hpr hv hl with hd' | ⟨hd', -⟩
    · rw [hd'] at hd
      obtain rfl : inc = c := congrArg Prod.snd (Option.some.inj hd)
      exact ⟨rfl, rfl⟩
    · rw [hd'] at hd
      cases hd
  · rintro id' (h' | h') <;> cases h'
  · intro _ hlock
    rcases hp.visible_or hpr hv hl with hd | ⟨-, hD⟩
    · obtain ⟨b, hb, hbf, hk⟩ := hpr.held id inc hd
      rw [mem_behind, hpw] at hb
      have hbd := hb.resolve_right (by simp)
      have hfp : b.1.fingerprint = a.1.fingerprint := (atKey_iff.mp hk).2.1.symm.trans (atKey_iff.mp ho).2.1
      rw [← hfp]
      exact hpr.noLock hlock b (mem_behind.mpr (Or.inl hbd)) hbf
    · exact ⟨id, inc, hD, ho⟩

theorem opened (hp : Pair sha256 D hooks s) {left : ℕ}
    (hpr : Progress sha256 D s t h x done (a :: rest) (.inserting left))
    (hu : ∀ i, (s.slot i).undecided t (opening h.tenantId a) = false)
    (hn : ∀ i, (s.slot i).isOpen t (opening h.tenantId a) = false) :
    Moved sha256 D s
      ({ s with slots := s.slots.insert { dirty := some (t, Incidents.opened x.now (opening h.tenantId a)) } }.goto
        t x h (a :: rest) (.enqueueing s.slots.size)) t h (a :: rest) (.inserting left)
      { x with work := .webhook h (a :: rest) (.enqueueing s.slots.size) } done (a :: rest)
      (.enqueueing s.slots.size) := by
  have hempty := slot_size s
  have hfiring : a.2.status = .firing := hpr.pcOk a rest rfl
  have hnew : ¬ D.isOpen h.tenantId a.1.fingerprint := by
    rintro ⟨i, c, hc, hk⟩
    rw [← hp.committed] at hc
    cases hl : (s.slot i).lockedFor t with
    | true =>
      have hui := hu i
      simp [Slot.undecided, hl, hc, openFor_opening, hk] at hui
    | false =>
      have hni := hn i
      unfold Slot.isOpen Slot.visible at hni
      unfold Slot.lockedFor at hl
      rcases hd : (s.slot i).dirty with _ | ⟨u, inc⟩
      · simp [hd, hc, openFor_opening, hk] at hni
      · -- a row that `t` wrote is open still
        rw [hd] at hl
        simp only [ne_eq, decide_eq_false_iff_not, not_not] at hl
        subst hl
        obtain ⟨b, -, -, hb⟩ := hpr.held i inc hd
        obtain ⟨htn, hfp⟩ := hp.keyed i u inc c hd hc
        have hinc : atKey h.tenantId a.1.fingerprint inc = true := by
          rw [atKey_iff] at hk hb ⊢
          exact ⟨hb.1, hfp.trans hk.2.1, hb.2.2⟩
        simp [hd, openFor_opening, hinc] at hni
  have hslot : ∀ i,
      (({ s with slots := s.slots.insert { dirty := some (t, Incidents.opened x.now (opening h.tenantId a)) } } :
        Tables).goto t x h (a :: rest) (.enqueueing s.slots.size)).slot i =
      if i = s.slots.size then
        { s.slot s.slots.size with dirty := some (t, Incidents.opened x.now (opening h.tenantId a)) }
      else s.slot i := by
    intro i
    rw [hempty]
    exact slot_insert s _ i
  exact wrote hpr hslot (by rw [hempty]; rfl) (by simp [hempty]) (by simp [hempty])
    (atKey_iff.mpr ⟨rfl, rfl, rfl⟩) hfiring rfl
    rfl rfl rfl (hp.exclusive.opened hu hn rfl) rfl rfl rfl hfiring (fun _ _ => hnew) (by simp [WebhookPc.audited])
    (fun id hid => (WebhookPc.enqueueing.inj hid).symm) (by simp [WebhookPc.left])

/-- The audit row: the transaction has the lock from here to its end. -/
theorem audited (hp : Pair sha256 D hooks s) {id : ℕ} (hpr : Progress sha256 D s t h x done (a :: rest) (.auditing id))
    (hfree : ∀ u, s.lock = some u → u = t) (hslots : s'.slots = s.slots) (hlock : s'.lock = some t)
    (hses : s'.sessions = s.sessions.modify t fun _ => x')
    (hwork : x'.work = .webhook h (a :: rest) (.recording (some id))) (hjobs : x'.jobs = x.jobs) :
    Moved sha256 D s s' t h (a :: rest) (.auditing id) x' done (a :: rest) (.recording (some id)) := by
  have hslot : ∀ i, s'.slot i = s.slot i := by
    intro i
    unfold Tables.slot
    rw [hslots]
  refine ⟨⟨?_, hwork, hpr.split, fun _ _ _ => trivial, ?_, ?_, ?_, ?_, ?_, by simp, by simp, ?_, by simp, by simp⟩,
    fun i => Or.inl (hslot i), hp.exclusive.congr hslots, hses, Or.inr ⟨⟨id, rfl⟩, hlock, hfree⟩,
    by simp [WebhookPc.left]⟩
  · rw [hses, Table.get?_modify_self, hpr.session]
    rfl
  · intro i inc hd
    rw [hslot] at hd
    exact hpr.held i inc hd
  · intro b hb hf
    obtain ⟨i, inc, hd, hk⟩ := hpr.holds b hb hf
    exact ⟨i, inc, by rw [hslot, hd], hk⟩
  · exact fun _ => ⟨a, mem_behind.mpr (Or.inr ⟨rfl, rfl⟩), hpr.pcOk a rest rfl, hpr.new a rest id rfl (Or.inr rfl)⟩
  · exact fun hl => absurd hlock hl
  · rintro _ _ id' _ (h' | h') <;> cases h'
  · rw [hjobs]
    intro j hj
    obtain ⟨i, inc, hk, hd⟩ := hpr.jobs j hj
    exact ⟨i, inc, hk, by rw [hslot, hd]⟩

end Pair

namespace Pair

theorem goto (hp : Pair sha256 D hooks s) (hpr : Progress sha256 D s t h x done (a :: rest) pc) (hok : PcOk a pc')
    (hwr : pc'.written = true → pc.written = false → a.2.status = .resolved)
    (hmono : pc.written = true → pc'.written = true) (hau : pc'.audited = true → pc.audited = false →
      a.2.status = .resolved) (hmono' : pc.audited = true → pc'.audited = true)
    (hnew : ∀ id, pc' ≠ .enqueueing id ∧ pc' ≠ .auditing id)
    (hfound : ∀ left, pc' = .merging left → ∃ i, (s.slot i).isOpen t (opening h.tenantId a) = true)
    (hblocked : ∀ id left, pc' = .rechecking id left →
      (s.slot id).lockedFor t = true ∧ (s.slot id).committed.any (Incidents.openFor (opening h.tenantId a)) = true)
    (halive : pc' ≠ .failed) (hfewer : pc'.left < pc.left) :
    Moved sha256 D s (s.goto t x h (a :: rest) pc') t h (a :: rest) pc
    { x with work := .webhook h (a :: rest) pc' } done
      (a :: rest) pc' := by
  -- a resolved alert counts for nothing
  have hiff : ∀ (p : WebhookPc → Bool), (p pc' = true → p pc = false → a.2.status = .resolved) →
      (p pc = true → p pc' = true) → ∀ b : Identified, b.2.status = .firing →
        (b ∈ behind p done (a :: rest) pc' ↔ b ∈ behind p done (a :: rest) pc) := by
    intro p h1 h2 b hb
    rw [mem_behind, mem_behind]
    refine or_congr_right ⟨?_, fun ⟨hp, hba⟩ => ⟨h2 hp, hba⟩⟩
    rintro ⟨hp', rfl⟩
    cases hpb : p pc with
    | true => exact ⟨rfl, rfl⟩
    | false =>
      rw [h1 hp' hpb] at hb
      cases hb
  refine hp.still hpr rfl rfl rfl rfl rfl hpr.jobs ?_ (hiff _ hwr hmono) (hiff _ hau hmono') ?_ ?_ ?_
    (fun id => (hnew id).1)
    halive (Nat.add_lt_add_left hfewer _)
  · intro b rest' hb
    obtain ⟨rfl, -⟩ := List.cons.inj hb
    exact hok
  · rintro b rest' id - (hid | hid)
    · exact absurd hid (hnew id).1
    · exact absurd hid (hnew id).2
  · intro b rest' left hb hl
    obtain ⟨rfl, -⟩ := List.cons.inj hb
    exact hfound left hl
  · intro b rest' id left hb hl
    obtain ⟨rfl, -⟩ := List.cons.inj hb
    exact hblocked id left hl

/-- A statement of a webhook takes it on, while the other one is open. -/
theorem stmt (hp : Pair sha256 D hooks s) (hpr : Progress sha256 D s t h x done (a :: rest) pc)
    (hs : s.webhookStmt t x h a rest pc = some s') :
    ∃ x' done' todo' pc', Moved sha256 D s s' t h (a :: rest) pc x' done' todo' pc' := by
  have hpc := hpr.pcOk a rest rfl
  cases pc with
  | next =>
    obtain rfl := Option.some.inj hs
    cases hst : a.2.status with
    | firing =>
      rw [if_pos rfl]
      exact ⟨_, _, _, _, hp.goto hpr hst (by simp [WebhookPc.written]) (by simp [WebhookPc.written])
        (by simp [WebhookPc.audited]) (by simp [WebhookPc.audited]) (by simp) (by simp) (by simp) (by simp)
        (by simp [WebhookPc.left])⟩
    | resolved =>
      rw [if_neg (by simp)]
      exact ⟨_, _, _, _, hp.goto hpr hst (by simp [WebhookPc.written]) (by simp [WebhookPc.written])
        (by simp [WebhookPc.audited]) (by simp [WebhookPc.audited]) (by simp) (by simp) (by simp) (by simp)
        (by simp [WebhookPc.left])⟩
  | inserting left =>
    simp only [Tables.webhookStmt] at hs
    split_ifs at hs with hu hn
    · obtain rfl := Option.some.inj hs
      obtain ⟨y, hy, hopen⟩ := List.any_eq_true.mp hn
      obtain ⟨i, hi⟩ := Table.mem_rows.mp hy
      refine ⟨_, _, _, _, hp.goto hpr hpc (by simp [WebhookPc.written]) (by simp [WebhookPc.written])
        (by simp [WebhookPc.audited]) (by simp [WebhookPc.audited]) (by simp) (fun _ _ => ⟨i, ?_⟩) (by simp) (by simp)
        (by simp [WebhookPc.left])⟩
      simpa [Tables.slot, hi] using hopen
    · obtain rfl := Option.some.inj hs
      exact ⟨_, _, _, _, hp.opened hpr (slot_any hu rfl) (slot_any hn rfl)⟩
  | merging left =>
    simp only [Tables.webhookStmt] at hs
    split at hs
    · -- the row that was found is there still
      rename_i hnone
      obtain ⟨i, hi⟩ := hpr.found a rest left rfl rfl
      have hany : ¬ s.slots.rows.any (Slot.isOpen t (opening h.tenantId a)) = true := by
        rw [List.any_eq_true]
        rintro ⟨y, hy, hopen⟩
        exact absurd hopen (by simpa using List.findIdx?_eq_none_iff.mp hnone y hy)
      rw [slot_any hany rfl i] at hi
      cases hi
    · rename_i id hid
      obtain ⟨hlt, hopen', -⟩ := List.findIdx?_eq_some_iff_getElem.mp hid
      have hopen : (s.slot id).isOpen t (opening h.tenantId a) = true := by
        simpa [Tables.slot, Table.get?, hlt] using hopen'
      split_ifs at hs with hl
      · obtain rfl := Option.some.inj hs
        have hlock : (s.slot id).lockedFor t = true := by
          obtain ⟨y, hy, hly⟩ := (Option.any_eq_true _ _).mp hl
          simpa [Tables.slot, hy] using hly
        refine ⟨_, _, _, _, hp.goto hpr hpc (by simp [WebhookPc.written]) (by simp [WebhookPc.written])
          (by simp [WebhookPc.audited]) (by simp [WebhookPc.audited]) (by simp) (by simp)
          (fun id' left' hid' => ?_) (by simp)
          (by simp [WebhookPc.left])⟩
        obtain ⟨rfl, -⟩ := WebhookPc.rechecking.inj hid'
        refine ⟨hlock, ?_⟩
        unfold Slot.isOpen Slot.visible at hopen
        unfold Slot.lockedFor at hlock
        rcases hd : (s.slot id).dirty with _ | ⟨u, inc⟩
        · rw [hd] at hlock
          cases hlock
        · rw [hd] at hlock hopen
          simp only [ne_eq, decide_eq_true_eq] at hlock
          simpa [hlock] using hopen
      · obtain rfl := Option.some.inj hs
        exact ⟨_, _, _, _, hp.merged hpr rfl rfl hpc hopen (slot_locked hl) (by simp [WebhookPc.left])⟩
  | rechecking id left =>
    -- the row it waits for is locked as long as the other one is open
    obtain ⟨hl, -⟩ := hpr.blocked a rest id left rfl rfl
    simp only [Tables.webhookStmt] at hs
    split_ifs at hs with hl'
    · rw [slot_locked hl'] at hl
      cases hl
    · rw [slot_locked hl'] at hl
      cases hl
  | enqueueing id =>
    simp only [Tables.webhookStmt] at hs
    split_ifs at hs
    obtain rfl := Option.some.inj hs
    refine ⟨_, done, a :: rest, .auditing id, hp.still hpr rfl rfl rfl rfl rfl (fun j hj => ?_) (fun b rest' hb => ?_)
      (fun b _ => Iff.rfl) (fun b _ => Iff.rfl) (fun b rest' id' hb _ => ?_) (by simp) (by simp) (by simp) (by simp)
      (by simp [WebhookPc.left])⟩
    · have hmem : j ∈ x.jobs ∨ j = Handlers.job id h.tenantId (priorityOf a.2.labels) .triage h.settings := by
        simp only [Tables.insertJob] at hj
        split_ifs at hj
        · exact Or.inl hj
        · exact (List.mem_append.mp hj).imp_right List.mem_singleton.mp
      rcases hmem with hj | rfl
      · exact hpr.jobs j hj
      · obtain ⟨inc, hd⟩ := hpr.opened id rfl
        exact ⟨id, inc, rfl, hd⟩
    · obtain ⟨rfl, -⟩ := List.cons.inj hb
      exact hpc
    · obtain ⟨rfl, -⟩ := List.cons.inj hb
      exact hpr.new a rest id rfl (Or.inl rfl)
  | auditing id =>
    simp only [Tables.webhookStmt] at hs
    split_ifs at hs with hl
    obtain rfl := Option.some.inj hs
    refine ⟨_, _, _, _, hp.audited hpr (fun u hu => ?_) rfl rfl rfl rfl rfl⟩
    rw [hu] at hl
    simpa using hl
  | looking =>
    obtain rfl := Option.some.inj hs
    have hres : a.2.status = .resolved := hpc
    refine ⟨_, _, _, _, hp.goto hpr ?_ (fun _ _ => hres) (by simp [WebhookPc.written]) (fun _ _ => hres)
      (by simp [WebhookPc.audited]) (by simp) (by simp) (by simp) (by simp) (by simp [WebhookPc.left])⟩
    cases s.findOpen t (opening h.tenantId a) with
    | none => exact hres
    | some id => trivial
  | recording incidentId =>
    obtain rfl := Option.some.inj hs
    refine ⟨_, done ++ [a], rest, .next,
      hp.still hpr rfl rfl rfl rfl (by simp) hpr.jobs (fun _ _ _ => trivial) (fun b _ => ?_)
      (fun b _ => ?_) (by simp) (by simp) (by simp) (by simp) (by simp) ?_⟩
    · simp [behind, WebhookPc.written]
    · simp [behind, WebhookPc.audited]
    · simp only [List.length_cons, WebhookPc.left]
      omega
  | failed => exact absurd rfl hpr.alive

/-- A row that a transaction waits for is the other one's. -/
theorem owner_other (hp : Pair sha256 D hooks s) (ht : t < 2) {i : ℕ} (hl : (s.slot i).lockedFor t = true) :
    ∃ inc, (s.slot i).dirty = some (1 - t, inc) := by
  unfold Slot.lockedFor at hl
  rcases hd : (s.slot i).dirty with _ | ⟨u, inc⟩
  · rw [hd] at hl
    cases hl
  · rw [hd] at hl
    simp only [ne_eq, decide_eq_true_eq] at hl
    have hu := hp.owner i u inc hd
    obtain rfl : u = 1 - t := by omega
    exact ⟨inc, rfl⟩

/-- Nobody else has the key of a new incident's job. -/
theorem key_free (hp : Pair sha256 D hooks s) {id : ℕ}
    (hpr : Progress sha256 D s t h x done todo (.enqueueing id)) {u : ℕ}
    (hut : u ≠ t) {e : Enqueue} (he : e.idempotencyKey = some (.incident id .triage)) : s.keyOf u e = false := by
  unfold Tables.keyOf
  cases hy : s.sessions.get? u with
  | none => rfl
  | some y =>
    rw [Option.any_some, List.any_eq_false]
    intro j hj hkey
    rw [decide_eq_true_eq] at hkey
    obtain ⟨y', d, td, p, hpu⟩ := hp.each u (by rw [← hp.size]; exact Table.lt_size hy)
    rw [hpu.session] at hy
    obtain rfl := Option.some.inj hy
    obtain ⟨i, inc, hji, hd⟩ := hpu.jobs j hj
    obtain ⟨c, hc⟩ := hpr.opened id rfl
    rw [hkey, he] at hji
    simp only [Option.some.injEq, Key.incident.injEq, and_true] at hji
    rw [← hji, hc] at hd
    exact absurd (congrArg Prod.fst (Option.some.inj hd)).symm hut

/-- The next statement of a webhook is possible, or it waits for the other one. -/
theorem possible (hp : Pair sha256 D hooks s) (ht : t < 2) (hpr : Progress sha256 D s t h x done (a :: rest) pc) :
    s.waitsFor t (1 - t) = true ∨ ∃ s', s.webhookStmt t x h a rest pc = some s' := by
  have hne : t ≠ 1 - t := by omega
  have hwaits : s.stmtWaits t (1 - t) (.webhook h (a :: rest) pc) = true → s.waitsFor t (1 - t) = true := by
    intro hb
    simp only [Tables.waitsFor, hpr.session, hpr.work, Option.any_some, hb, ne_eq, hne, not_false_eq_true, decide_true,
      Bool.true_and]
  cases pc with
  | next | looking | recording => exact Or.inr ⟨_, rfl⟩
  | inserting left =>
    simp only [Tables.webhookStmt]
    split_ifs with hu hn
    · refine Or.inl (hwaits ?_)
      obtain ⟨y, hy, hund⟩ := List.any_eq_true.mp hu
      obtain ⟨i, hi⟩ := Table.mem_rows.mp hy
      refine List.any_eq_true.mpr ⟨y, hy, ?_⟩
      have hl : (s.slot i).lockedFor t = true := by
        simp only [Slot.undecided, Bool.and_eq_true] at hund
        simpa [Tables.slot, hi] using hund.1
      obtain ⟨inc, hd⟩ := hp.owner_other ht hl
      have hdy : y.dirty = some (1 - t, inc) := by simpa [Tables.slot, hi] using hd
      simp [hund, hdy]
    · exact Or.inr ⟨_, rfl⟩
    · exact Or.inr ⟨_, rfl⟩
  | merging left =>
    simp only [Tables.webhookStmt]
    split
    · exact Or.inr ⟨_, rfl⟩
    · split_ifs <;> exact Or.inr ⟨_, rfl⟩
  | rechecking id left =>
    obtain ⟨hl, -⟩ := hpr.blocked a rest id left rfl rfl
    obtain ⟨inc, hd⟩ := hp.owner_other ht hl
    refine Or.inl (hwaits ?_)
    unfold Tables.slot at hd
    cases hi : s.slots.get? id with
    | none => simp [hi] at hd
    | some y =>
      have hdy : y.dirty = some (1 - t, inc) := by simpa [hi] using hd
      simp [Tables.stmtWaits, Tables.writtenBy, hi, hdy]
  | enqueueing id =>
    simp only [Tables.webhookStmt]
    split_ifs with hk
    · simp only [Tables.keyUndecided, Bool.not_eq_true', List.isEmpty_eq_false_iff_exists_mem] at hk
      obtain ⟨⟨u, y⟩, hu⟩ := hk
      obtain ⟨hy, hcond⟩ := Table.mem_select.mp hu
      simp only [ne_eq, Bool.and_eq_true, decide_eq_true_eq] at hcond
      have hkey := hp.key_free hpr hcond.1
          (e := Handlers.job id h.tenantId (priorityOf a.2.labels) .triage h.settings) rfl
      simp only [Tables.keyOf, hy, Option.any_some] at hkey
      rw [hkey] at hcond
      cases hcond.2
    · exact Or.inr ⟨_, rfl⟩
  | auditing id =>
    simp only [Tables.webhookStmt]
    split_ifs with hl
    · refine Or.inl (hwaits ?_)
      obtain ⟨u, hu, hut⟩ := (Option.any_eq_true _ _).mp hl
      simp only [ne_eq, decide_eq_true_eq] at hut
      have hu2 := hp.lock u hu
      obtain rfl : u = 1 - t := by omega
      simp [Tables.stmtWaits, hu]
    · exact Or.inr ⟨_, rfl⟩
  | failed => exact absurd rfl hpr.alive

end Pair

/-! Who waits for whom. -/

/-- `t` has written the row of a key. -/
def HasKey (s : Tables) (t : ℕ) (tenantId fingerprint : String) : Prop :=
  ∃ i inc, (s.slot i).dirty = some (t, inc) ∧ atKey tenantId fingerprint inc = true

theorem not_both (hex : Exclusive s) {tenantId g : String} (ht : HasKey s t tenantId g) (hu : HasKey s u tenantId g) :
    t = u := by
  obtain ⟨i, inc, hi, hk⟩ := ht
  obtain ⟨j, jnc, hj, hl⟩ := hu
  -- if both commit
  have hij : i = j := by
    refine hex (fun _ => true) ⟨tenantId, g, "", "", "", 0, []⟩ i j ?_ ?_
    · simp only [Slot.value, hi, if_true, Option.any_some]
      exact hk
    · simp only [Slot.value, hj, if_true, Option.any_some]
      exact hl
  subst hij
  rw [hi] at hj
  exact congrArg Prod.fst (Option.some.inj hj)

theorem lt_of_lt_of_le {a b c : String} (h1 : a < b) (h2 : b ≤ c) : a < c := by
  rw [← String.not_le] at h1 ⊢
  exact fun h => h1 (String.le_trans h2 h)

namespace Progress

theorem mem (hp : Progress sha256 D s t h x done todo pc) : a ∈ h.identified sha256 ↔ a ∈ done ∨ a ∈ todo := by
  rw [hp.split, List.mem_append]

theorem done_le (hp : Progress sha256 D s t h x done todo pc) {b : Identified} (hb : b ∈ done) (ha : a ∈ todo) :
    b.1.fingerprint ≤ a.1.fingerprint := by
  have hsorted := identified_sorted sha256 h
  rw [hp.split, List.pairwise_append] at hsorted
  exact hsorted.2.2 b hb a ha

theorem front_le (hp : Progress sha256 D s t h x done (a :: rest) pc) {b : Identified} (hb : b ∈ a :: rest) :
    a.1.fingerprint ≤ b.1.fingerprint := by
  have hsorted := identified_sorted sha256 h
  rw [hp.split, List.pairwise_append, List.pairwise_cons] at hsorted
  rcases List.mem_cons.mp hb with rfl | hb
  · exact String.le_refl _
  · exact hsorted.2.1.1 b hb

/-- What comes before the alert in front is done. -/
theorem done_of_lt (hp : Progress sha256 D s t h x done (a :: rest) pc) {g : String} (hfires : h.fires sha256 g)
    (hg : g < a.1.fingerprint) : ∃ b ∈ done, b.2.status = .firing ∧ b.1.fingerprint = g := by
  obtain ⟨b, hb, hf, rfl⟩ := fires_iff.mp hfires
  refine ⟨b, (hp.mem.mp hb).resolve_right fun hb' => ?_, hf, rfl⟩
  exact absurd (hp.front_le hb') (String.not_le.mpr hg)

theorem fires (hp : Progress sha256 D s t h x done todo pc) (ha : a ∈ done ∨ a ∈ todo) (hf : a.2.status = .firing) :
    h.fires sha256 a.1.fingerprint := fires_iff.mpr ⟨a, hp.mem.mpr ha, hf, rfl⟩

theorem hasKey (hp : Progress sha256 D s t h x done todo pc) (ha : a ∈ done) (hf : a.2.status = .firing) :
    HasKey s t h.tenantId a.1.fingerprint := hp.holds a (List.mem_append_left _ ha) hf

/-- The key of a row it has written is one of its own, behind it. -/
theorem of_hasKey (hp : Progress sha256 D s t h x done todo pc) {tenantId g : String} (hk : HasKey s t tenantId g) :
    h.tenantId = tenantId ∧ ∃ b ∈ behind WebhookPc.written done todo pc, b.2.status = .firing ∧
    b.1.fingerprint = g := by
  obtain ⟨i, inc, hd, hk⟩ := hk
  obtain ⟨b, hb, hf, hkb⟩ := hp.held i inc hd
  rw [atKey_iff] at hk hkb
  exact ⟨hkb.1.symm.trans hk.1, b, hb, hf, hkb.2.1.symm.trans hk.2.1⟩

/-- Where a transaction stands is where its session says. -/
theorem unique (hp : Progress sha256 D s t h x done todo pc) {done' todo' : List Identified}
    (hp' : Progress sha256 D s' t h x done' todo' pc') : done' = done ∧ todo' = todo ∧ pc' = pc := by
  have hwork := hp.work.symm.trans hp'.work
  simp only [Work.webhook.injEq, true_and] at hwork
  obtain ⟨rfl, rfl⟩ := hwork
  have hsplit := hp.split.symm.trans hp'.split
  exact ⟨(List.append_cancel_right hsplit).symm, rfl, rfl⟩

end Progress

namespace Pair

/-- The row that a statement finds open for the alert, and that the other one has written, has the alert's key. -/
theorem hasKey_of_open (hp : Pair sha256 D hooks s) (hu : u < 2) {i : ℕ} {inc : Incident} {tenantId : String}
    (hd : (s.slot i).dirty = some (u, inc))
    (ho : (s.slot i).committed.any (Incidents.openFor (opening tenantId a)) = true) :
    HasKey s u tenantId a.1.fingerprint := by
  obtain ⟨y, d, td, p, hpu⟩ := hp.each u hu
  obtain ⟨c, hc, hk⟩ := (Option.any_eq_true _ _).mp ho
  rw [openFor_opening, atKey_iff] at hk
  obtain ⟨htn, hfp⟩ := hp.keyed i u inc c hd hc
  obtain ⟨b, -, -, hb⟩ := hpu.held i inc hd
  exact ⟨i, inc, hd, atKey_iff.mpr ⟨htn.trans hk.1, hfp.trans hk.2.1, (atKey_iff.mp hb).2.2⟩⟩

/-- A webhook waits for a row of the other one, or for the lock, to audit an incident it opened. -/
theorem waits (hp : Pair sha256 D hooks s) (hpr : Progress sha256 D s t h x done todo pc) (hu : u < 2)
    (hw : s.waitsFor t u = true) : t ≠ u ∧ ∃ a rest, todo = a :: rest ∧ a.2.status = .firing ∧
      ((pc.written = false ∧ pc.audited = false ∧ HasKey s u h.tenantId a.1.fingerprint) ∨
        (∃ id, pc = .auditing id) ∧ s.lock = some u) := by
  simp only [Tables.waitsFor, hpr.session, hpr.work, Option.any_some, Bool.and_eq_true, decide_eq_true_eq] at hw
  obtain ⟨htu, hw⟩ := hw
  refine ⟨htu, ?_⟩
  cases todo with
  | nil => cases hw
  | cons a rest =>
    have hpc := hpr.pcOk a rest rfl
    cases pc with
    | next | merging | looking | recording | failed => cases hw
    | inserting left =>
      refine ⟨a, rest, rfl, hpc, Or.inl ⟨rfl, rfl, ?_⟩⟩
      obtain ⟨y, hy, hcond⟩ := List.any_eq_true.mp hw
      obtain ⟨i, hi⟩ := Table.mem_rows.mp hy
      have hslot : s.slot i = y := by simp [Tables.slot, hi]
      simp only [Slot.undecided, Bool.and_eq_true, Bool.or_eq_true] at hcond
      obtain ⟨⟨-, ho⟩, hown⟩ := hcond
      obtain ⟨⟨v, inc⟩, hd, hv⟩ := (Option.any_eq_true _ _).mp hown
      obtain rfl : v = u := by simpa using hv
      rw [← hslot] at hd ho
      rcases ho with ho | ho
      · exact hp.hasKey_of_open hu hd ho
      · rw [hd, Option.any_some, openFor_opening] at ho
        exact ⟨i, inc, hd, ho⟩
    | rechecking id left =>
      refine ⟨a, rest, rfl, hpc, Or.inl ⟨rfl, rfl, ?_⟩⟩
      obtain ⟨⟨v, inc⟩, hb, hv⟩ := (Option.any_eq_true _ _).mp hw
      obtain rfl : v = u := by simpa using hv
      obtain ⟨y, hi, hd⟩ := Option.bind_eq_some_iff.mp hb
      have hslot : s.slot id = y := by simp [Tables.slot, hi]
      rw [← hslot] at hd
      exact hp.hasKey_of_open hu hd (hpr.blocked a rest id left rfl rfl).2
    | enqueueing id =>
      simp only [Tables.stmtWaits] at hw
      rw [hp.key_free hpr (Ne.symm htu) rfl] at hw
      cases hw
    | auditing id => exact ⟨a, rest, rfl, hpc, Or.inr ⟨⟨id, rfl⟩, by simpa [Tables.stmtWaits] using hw⟩⟩

/-- One waits for a row of the other, which waits for the lock that the one has. -/
theorem crossed (hp : Pair sha256 D hooks s) {c : Identified} {resta restc donea donec : List Identified} {y : Session}
    {hA hB : Webhook} {id : ℕ} (hpt : Progress sha256 D s t hA x donea (a :: resta) pc)
    (hpu : Progress sha256 D s u hB y donec (c :: restc) (.auditing id)) (htu : t ≠ u) (hf : a.2.status = .firing)
    (hpa : pc.audited = false) (hk : HasKey s u hA.tenantId a.1.fingerprint) (hlock : s.lock = some t) :
    Crossed sha256 D hA hB := by
  obtain ⟨htenant, b, hb, hbf, hbg⟩ := hpu.of_hasKey hk
  have hac : a.1.fingerprint ≤ c.1.fingerprint := by
    rw [← hbg]
    rcases mem_behind.mp hb with hb | ⟨-, rfl⟩
    · exact hpu.done_le hb (List.mem_cons_self ..)
    · exact String.le_refl _
  have hfires : hB.fires sha256 a.1.fingerprint := by
    rw [← hbg]
    refine hpu.fires ?_ hbf
    rcases mem_behind.mp hb with hb | ⟨-, rfl⟩
    · exact Or.inl hb
    · exact Or.inr (List.mem_cons_self ..)
  refine ⟨htenant.symm, a.1.fingerprint, hpt.fires (Or.inr (List.mem_cons_self ..)) hf, hfires, ?_, ?_, ?_,
    c.1.fingerprint, hac, hpu.fires (Or.inr (List.mem_cons_self ..)) (hpu.pcOk c restc rfl),
    hpu.new c restc id rfl (Or.inr rfl)⟩
  · -- both would have the row of an earlier key
    rintro e he ⟨heA, heB⟩
    obtain ⟨e₁, h₁, hf₁, rfl⟩ := hpt.done_of_lt heA he
    obtain ⟨e₂, h₂, hf₂, hg₂⟩ := hpu.done_of_lt heB (lt_of_lt_of_le he hac)
    have hk₂ := hpu.hasKey h₂ hf₂
    rw [hg₂, htenant] at hk₂
    exact htu (not_both hp.exclusive (hpt.hasKey h₁ hf₁) hk₂)
  · obtain ⟨d, hd, hdf, hdn⟩ := hpt.lock hlock
    rw [mem_behind, hpa] at hd
    have hdd := hd.resolve_right (by simp)
    refine ⟨d.1.fingerprint, ?_, hpt.fires (Or.inl hdd) hdf, hdn⟩
    rw [← String.not_le]
    intro hle
    have heq := String.le_antisymm (hpt.done_le hdd (List.mem_cons_self ..)) hle
    rw [← heq] at hk
    exact htu (not_both hp.exclusive (hpt.hasKey hdd hdf) hk)
  · intro e he heB
    obtain ⟨e₂, h₂, hf₂, rfl⟩ := hpu.done_of_lt heB (lt_of_lt_of_le he hac)
    exact hpu.noLock (by simpa [hlock] using htu) e₂ (mem_behind.mpr (Or.inl h₂)) hf₂

/-- Two webhooks that wait for each other are crossed. -/
theorem circular (hp : Pair sha256 D hooks s) (h01 : s.waitsFor 0 1 = true) (h10 : s.waitsFor 1 0 = true) :
    Crossed sha256 D (hooks 0) (hooks 1) ∨ Crossed sha256 D (hooks 1) (hooks 0) := by
  obtain ⟨x, dx, tx, px, hp0⟩ := hp.each 0 (by omega)
  obtain ⟨y, dy, ty, py, hp1⟩ := hp.each 1 (by omega)
  obtain ⟨hne, a, ra, rfl, hfa, ha⟩ := hp.waits hp0 (by omega) h01
  obtain ⟨-, b, rb, rfl, hfb, hb⟩ := hp.waits hp1 (by omega) h10
  rcases ha with ⟨hwa, haa, hka⟩ | ⟨⟨ida, rfl⟩, hla⟩ <;> rcases hb with ⟨hwb, hab, hkb⟩ | ⟨⟨idb, rfl⟩, hlb⟩
  · -- each has the row in front of the other, so the keys are the same
    obtain ⟨htn, b', hb', -, hgb⟩ := hp1.of_hasKey hka
    obtain ⟨-, a', ha', -, hga⟩ := hp0.of_hasKey hkb
    rw [mem_behind, hwb] at hb'
    rw [mem_behind, hwa] at ha'
    have h1 := hp1.done_le (hb'.resolve_right (by simp)) (List.mem_cons_self ..)
    have h2 := hp0.done_le (ha'.resolve_right (by simp)) (List.mem_cons_self ..)
    rw [hgb] at h1
    rw [hga] at h2
    rw [htn, String.le_antisymm h2 h1] at hkb
    exact absurd (not_both hp.exclusive hkb hka) hne
  · exact Or.inl (hp.crossed hp0 hp1 hne hfa haa hka hlb)
  · exact Or.inr (hp.crossed hp1 hp0 hne.symm hfb hab hkb hla)
  · rw [hla] at hlb
    cases hlb

end Pair

/-! Runs of the two. -/

theorem Database.slot_tables (now : ℕ → Time) (i : ℕ) : (D.tables sha256 now hooks).slot i = D.slot i := rfl

theorem Database.slot_clean (i : ℕ) : (D.slot i).dirty = none := by
  unfold Database.slot
  cases hi : D.slots.get? i with
  | none => rfl
  | some y => exact D.clean y (Table.mem_rows.mpr ⟨i, hi⟩)

theorem Progress.start (now : ℕ → Time) (ht : t < 2) : Progress sha256 D (D.tables sha256 now hooks) t (hooks t)
    ⟨now t, .webhook (hooks t) ((hooks t).identified sha256) .next, [], [], []⟩ []
    ((hooks t).identified sha256) .next := by
  refine ⟨?_, rfl, rfl, fun _ _ _ => trivial, ?_, ?_, by simp [Database.tables], ?_, by simp, by simp, by simp,
    by simp, by simp, by simp⟩
  · obtain rfl | rfl : t = 0 ∨ t = 1 := by omega
    · rfl
    · rfl
  · intro i inc hd
    rw [Database.slot_tables, Database.slot_clean] at hd
    cases hd
  · intro a ha
    simp [behind, WebhookPc.written] at ha
  · intro _ a ha
    simp [behind, WebhookPc.audited] at ha

theorem Pair.start (now : ℕ → Time) : Pair sha256 D hooks (D.tables sha256 now hooks) := by
  have hvalue : ∀ d i, (D.slot i).value d = (D.slot i).committed := by
    intro d i
    rw [Slot.value, Database.slot_clean]
  refine ⟨fun i => rfl, ?_, ?_, ?_, by simp [Database.tables], rfl, fun t ht => ⟨_, _, _, _, Progress.start now ht⟩⟩
  · intro d o i j hi hj
    rw [Database.slot_tables, hvalue] at hi hj
    unfold Database.slot at hi hj
    cases hx : D.slots.get? i with
    | none => simp [hx] at hi
    | some y =>
      cases hz : D.slots.get? j with
      | none => simp [hz] at hj
      | some z =>
        rw [hx] at hi
        rw [hz] at hj
        exact D.unique o i j y z hx hz hi hj
  · intro i u inc c hd
    rw [Database.slot_tables, Database.slot_clean] at hd
    cases hd
  · intro i u inc hd
    rw [Database.slot_tables, Database.slot_clean] at hd
    cases hd

/-- A transaction of the two has ended. -/
def Over (s : Tables) : Prop := ∃ t < 2, ∃ x, s.sessions.get? t = some x ∧ x.work = .ended

theorem Over.not_waiting (h : Over s) : ¬ (s.waitsFor 0 1 = true ∧ s.waitsFor 1 0 = true) := by
  obtain ⟨t, ht, x, hx, hw⟩ := h
  rintro ⟨h0, h1⟩
  obtain rfl | rfl : t = 0 ∨ t = 1 := by omega
  · simp [Tables.waitsFor, hx, hw, Tables.stmtWaits] at h0
  · simp [Tables.waitsFor, hx, hw, Tables.stmtWaits] at h1

theorem sessions_webhookStmt (hs : s.webhookStmt t x h a rest pc = some s') :
    ∃ y, s'.sessions = s.sessions.modify t fun _ => y := by
  have hnoRow : ∀ left, ∃ y, (s.noRow t x h (a :: rest) left).sessions = s.sessions.modify t fun _ => y := by
    intro left
    unfold Tables.noRow
    split_ifs <;> exact ⟨_, rfl⟩
  cases pc with
  | next | looking | recording =>
    obtain rfl := Option.some.inj hs
    exact ⟨_, rfl⟩
  | inserting left =>
    simp only [Tables.webhookStmt] at hs
    split_ifs at hs <;> obtain rfl := Option.some.inj hs <;> exact ⟨_, rfl⟩
  | merging left =>
    simp only [Tables.webhookStmt] at hs
    split at hs
    · obtain rfl := Option.some.inj hs
      exact hnoRow left
    · split_ifs at hs <;> obtain rfl := Option.some.inj hs <;> exact ⟨_, rfl⟩
  | rechecking id left =>
    simp only [Tables.webhookStmt] at hs
    split_ifs at hs
    · obtain rfl := Option.some.inj hs
      exact ⟨_, rfl⟩
    · obtain rfl := Option.some.inj hs
      exact hnoRow left
  | enqueueing id =>
    simp only [Tables.webhookStmt] at hs
    split_ifs at hs
    obtain rfl := Option.some.inj hs
    exact ⟨_, rfl⟩
  | auditing id =>
    simp only [Tables.webhookStmt] at hs
    split_ifs at hs
    obtain rfl := Option.some.inj hs
    exact ⟨_, rfl⟩
  | failed => cases hs

theorem sessions_otherStmt {o : OtherPc} (hs : s.otherStmt t x o = some s') :
    ∃ y, s'.sessions = s.sessions.modify t fun _ => y := by
  cases o with
  | idle => cases hs
  | moving m =>
    simp only [Tables.otherStmt, Tables.moveStmt] at hs
    split at hs
    · obtain rfl := Option.some.inj hs
      exact ⟨_, rfl⟩
    · split_ifs at hs <;> obtain rfl := Option.some.inj hs <;> exact ⟨_, rfl⟩
  | appending e =>
    simp only [Tables.otherStmt] at hs
    split_ifs at hs
    obtain rfl := Option.some.inj hs
    exact ⟨_, rfl⟩
  | enqueueing e =>
    simp only [Tables.otherStmt] at hs
    split_ifs at hs
    obtain rfl := Option.some.inj hs
    exact ⟨_, rfl⟩

/-- What is done is done in one transaction, that has not ended. -/
theorem sessions_step {op : Op} (hb : op.begins = false) (hs : step sha256 s op = some s') :
    s'.sessions = s.sessions ∨ ∃ t x y, s.sessions.get? t = some x ∧ x.work ≠ .ended ∧
      s'.sessions = s.sessions.modify t fun _ => y := by
  cases op with
  | webhook | begin => cases hb
  | call t c =>
    obtain ⟨x, hx, hs⟩ := Option.bind_eq_some_iff.mp hs
    split at hs
    · rename_i hw
      split_ifs at hs
      have hlive : x.work ≠ .ended := by simp [hw]
      cases c with
      | transition m =>
        simp only [Tables.call] at hs
        split at hs <;> obtain rfl := Option.some.inj hs
        · exact Or.inr ⟨t, x, _, hx, hlive, rfl⟩
        · exact Or.inl rfl
      | append | enqueue =>
        obtain rfl := Option.some.inj hs
        exact Or.inr ⟨t, x, _, hx, hlive, rfl⟩
    · cases hs
  | next t =>
    obtain ⟨x, hx, hs⟩ := Option.bind_eq_some_iff.mp hs
    split at hs
    · rename_i hw
      obtain ⟨y, hy⟩ := sessions_webhookStmt hs
      exact Or.inr ⟨t, x, y, hx, by simp [hw], hy⟩
    · rename_i hw
      obtain ⟨y, hy⟩ := sessions_otherStmt hs
      exact Or.inr ⟨t, x, y, hx, by simp [hw], hy⟩
    · cases hs
  | commit t =>
    obtain ⟨x, hx, hs⟩ := Option.bind_eq_some_iff.mp hs
    split at hs
    · rename_i hw
      obtain rfl := Option.some.inj hs
      exact Or.inr ⟨t, x, _, hx, by simp [hw], rfl⟩
    · rename_i hw
      obtain rfl := Option.some.inj hs
      exact Or.inr ⟨t, x, _, hx, by simp [hw], rfl⟩
    · cases hs
  | rollback t =>
    obtain ⟨x, hx, hs⟩ := Option.bind_eq_some_iff.mp hs
    split at hs
    · cases hs
    · rename_i hw
      obtain rfl := Option.some.inj hs
      exact Or.inr ⟨t, x, _, hx, hw, rfl⟩

theorem Over.step (h : Over s) {op : Op} (hb : op.begins = false) (hs : Ingest.step sha256 s op = some s') :
    Over s' := by
  obtain ⟨t, ht, x, hx, hw⟩ := h
  rcases sessions_step hb hs with he | ⟨u, y, z, hu, hne, he⟩
  · exact ⟨t, ht, x, by rw [he, hx], hw⟩
  · refine ⟨t, ht, x, ?_, hw⟩
    rw [he, Table.get?_modify_ne, hx]
    rintro rfl
    rw [hx] at hu
    obtain rfl := Option.some.inj hu
    exact hne hw

theorem Pair.step (hp : Pair sha256 D hooks s) {op : Op} (hb : op.begins = false)
    (hs : Ingest.step sha256 s op = some s') :
    Over s' ∨ Pair sha256 D hooks s' := by
  have hlive : ∀ t y, s.sessions.get? t = some y → t < 2 ∧
      ∃ done todo pc, Progress sha256 D s t (hooks t) y done todo pc := by
    intro t y hy
    have ht : t < 2 := by
      rw [← hp.size]
      exact Table.lt_size hy
    obtain ⟨y', d, td, p, hpr⟩ := hp.each t ht
    have hyy := hpr.session
    rw [hy] at hyy
    obtain rfl := Option.some.inj hyy
    exact ⟨ht, d, td, p, hpr⟩
  cases op with
  | webhook | begin => cases hb
  | call t c =>
    obtain ⟨x, hx, hs⟩ := Option.bind_eq_some_iff.mp hs
    obtain ⟨-, d, td, p, hpr⟩ := hlive t x hx
    rw [hpr.work] at hs
    cases hs
  | next t =>
    obtain ⟨x, hx, hs⟩ := Option.bind_eq_some_iff.mp hs
    obtain ⟨ht, d, td, p, hpr⟩ := hlive t x hx
    rw [hpr.work] at hs
    cases td with
    | nil => cases hs
    | cons a rest =>
      obtain ⟨_, _, _, _, hm⟩ := hp.stmt hpr hs
      exact Or.inr (hp.moved ht hm)
  | commit t =>
    obtain ⟨x, hx, hs⟩ := Option.bind_eq_some_iff.mp hs
    obtain ⟨ht, d, td, p, hpr⟩ := hlive t x hx
    rw [hpr.work] at hs
    refine Or.inl ⟨t, ht, Tables.close x, ?_, rfl⟩
    cases td <;> cases p <;> cases hs
    exact (Table.get?_modify_self ..).trans (by rw [hx]; rfl)
  | rollback t =>
    obtain ⟨x, hx, hs⟩ := Option.bind_eq_some_iff.mp hs
    obtain ⟨ht, d, td, p, hpr⟩ := hlive t x hx
    rw [hpr.work] at hs
    obtain rfl := Option.some.inj hs
    exact Or.inl ⟨t, ht, Tables.close x, (Table.get?_modify_self ..).trans (by rw [hx]; rfl), rfl⟩

theorem Pair.run {now : ℕ → Time} {ops : List Op} (hb : ∀ op ∈ ops, op.begins = false)
    (hs : Runs.run (Ingest.step sha256) (D.tables sha256 now hooks) ops = some s) : Over s ∨ Pair sha256 D hooks s := by
  have hadmits : ∀ (s : Tables) (ops : List Op), (∀ op ∈ ops, op.begins = false) →
      Runs.Admits (Ingest.step sha256) (fun _ op => op.begins = false) s ops := by
    intro s ops
    induction ops generalizing s with
    | nil => exact fun _ => trivial
    | cons op ops ih =>
      exact fun h => ⟨h op (List.mem_cons_self ..), fun s' _ => ih s' fun o ho => h o (List.mem_cons_of_mem _ ho)⟩
  refine Runs.invariant_under (P := fun s => Over s ∨ Pair sha256 D hooks s) (fun s op s' h hok hstep => ?_) hs
    (hadmits _ _ hb) (Or.inr (Pair.start now))
  rcases h with h | h
  · exact Or.inl (h.step hok hstep)
  · exact h.step hok hstep

/-- On its own a webhook goes on until it is done, or comes to where `p` says, or waits for the other one. -/
theorem Pair.solo (p : WebhookPc → Bool) (n : ℕ) :
    ∀ {s : Tables} {x : Session} {done todo : List Identified} {pc : WebhookPc}, Pair sha256 D hooks s → t < 2 →
      Progress sha256 D s t (hooks t) x done todo pc → 7 * todo.length + pc.left ≤ n →
      ∃ k s' x' done' todo' pc', Runs.run (Ingest.step sha256) s (List.replicate k (.next t)) = some s' ∧
        Pair sha256 D hooks s' ∧ Progress sha256 D s' t (hooks t) x' done' todo' pc' ∧
        s'.sessions.get? (1 - t) = s.sessions.get? (1 - t) ∧
        (todo' = [] ∨ p pc' = true ∨ s'.waitsFor t (1 - t) = true) ∧
        ((∀ id, p (.auditing id) = true) → s'.lock = s.lock) := by
  induction n with
  | zero =>
    intro s x done todo pc hp ht hpr hn
    refine ⟨0, s, x, done, todo, pc, rfl, hp, hpr, rfl, Or.inl ?_, fun _ => rfl⟩
    exact List.eq_nil_of_length_eq_zero (by omega)
  | succ n ih =>
    intro s x done todo pc hp ht hpr hn
    cases todo with
    | nil => exact ⟨0, s, x, done, [], pc, rfl, hp, hpr, rfl, Or.inl rfl, fun _ => rfl⟩
    | cons a rest =>
      rcases hp.possible ht hpr with hw | ⟨s₁, hs₁⟩
      · exact ⟨0, s, x, done, a :: rest, pc, rfl, hp, hpr, rfl, Or.inr (Or.inr hw), fun _ => rfl⟩
      · by_cases hpp : p pc = true
        · exact ⟨0, s, x, done, a :: rest, pc, rfl, hp, hpr, rfl, Or.inr (Or.inl hpp), fun _ => rfl⟩
        · obtain ⟨x₁, done₁, todo₁, pc₁, hm⟩ := hp.stmt hpr hs₁
          obtain ⟨k, s', x', done', todo', pc', hrun, hp', hpr', hother, hend, hlock⟩ :=
            ih (hp.moved ht hm) ht hm.progress (by have := hm.fewer; omega)
          refine ⟨k + 1, s', x', done', todo', pc', ?_, hp', hpr', ?_, hend, fun hall => ?_⟩
          · rw [List.replicate_succ, Runs.run_cons_eq_some]
            refine ⟨s₁, ?_, hrun⟩
            simp only [Ingest.step, hpr.session, Option.bind_some, hpr.work]
            exact hs₁
          · rw [hother, hm.session, Table.get?_modify_ne]
            omega
          · rw [hlock hall]
            rcases hm.lock with hl | ⟨⟨id, rfl⟩, -⟩
            · exact hl
            · exact absurd (hall id) hpp

def WebhookPc.audits : WebhookPc → Bool
  | .auditing _ => true
  | _ => false

/-- The first part of the run to a deadlock: `u` goes up to its first audit row, with the first
key that both have behind it, and without the lock. -/
theorem upToAudit (now : ℕ → Time) (hu : u < 2) {g c : String} (hgu : (hooks u).fires sha256 g)
    (hbefore : ∀ e < g, (hooks u).fires sha256 e → D.isOpen (hooks u).tenantId e) (hcu : (hooks u).fires sha256 c)
    (hcn : ¬ D.isOpen (hooks u).tenantId c) :
    ∃ k s y done b rest id, Runs.run (step sha256) (D.tables sha256 now hooks) (List.replicate k (.next u)) = some s ∧
      Pair sha256 D hooks s ∧ Progress sha256 D s u (hooks u) y done (b :: rest) (.auditing id) ∧
      s.sessions.get? (1 - u) = (D.tables sha256 now hooks).sessions.get? (1 - u) ∧ s.lock = none ∧
      ∃ e ∈ behind WebhookPc.written done (b :: rest) (.auditing id), e.2.status = .firing ∧ e.1.fingerprint = g := by
  have hpair : Pair sha256 D hooks (D.tables sha256 now hooks) := Pair.start now
  obtain ⟨k, s, y, done, todo, pc, hrun, hp, hpr, hother, hend, hlock⟩ :=
    Pair.solo WebhookPc.audits _ hpair hu (Progress.start now hu) (Nat.le_refl _)
  have hnone : s.lock = none := hlock fun id => rfl
  cases todo with
  | nil =>
    -- it would have opened `c`
    obtain ⟨a, ha, hf, rfl⟩ := fires_iff.mp hcu
    have hdone : a ∈ done := (hpr.mem.mp ha).resolve_right (by simp)
    exact absurd (hpr.noLock (by simp [hnone]) a (by rwa [behind_nil]) hf) hcn
  | cons b rest =>
    rcases hend with hend | hend | hend
    · cases hend
    · cases pc with
      | auditing id =>
        refine ⟨k, s, y, done, b, rest, id, hrun, hp, hpr, hother, hnone, ?_⟩
        have hgb : g ≤ b.1.fingerprint := by
          refine String.not_lt.mp fun hlt => hpr.new b rest id rfl (Or.inr rfl) ?_
          exact hbefore _ hlt (hpr.fires (Or.inr (List.mem_cons_self ..)) (hpr.pcOk b rest rfl))
        obtain ⟨e, he, hf, rfl⟩ := fires_iff.mp hgu
        rcases hpr.mem.mp he with he | he
        · exact ⟨e, mem_behind.mpr (Or.inl he), hf, rfl⟩
        · exact ⟨b, mem_behind.mpr (Or.inr ⟨rfl, rfl⟩), hpr.pcOk b rest rfl, String.le_antisymm (hpr.front_le he) hgb⟩
      | _ => cases hend
    · -- the other one has done nothing yet
      have ht : 1 - u < 2 := by omega
      have hne : u ≠ 1 - u := by omega
      obtain ⟨x, dx, tx, px, hpt⟩ := hp.each (1 - u) ht
      have hstart : Progress sha256 D (D.tables sha256 now hooks) (1 - u) _ _ _ _ _ := Progress.start now ht
      have hx := hstart.session
      rw [← hother, hpt.session] at hx
      obtain rfl := Option.some.inj hx
      obtain ⟨rfl, rfl, rfl⟩ := hstart.unique hpt
      obtain ⟨-, a, ra, -, -, ⟨-, -, hk⟩ | ⟨-, hl⟩⟩ := hp.waits hpr ht hend
      · obtain ⟨-, e, he, -⟩ := hpt.of_hasKey hk
        simp [behind, WebhookPc.written] at he
      · rw [hnone] at hl
        cases hl

/-- Two crossed webhooks can come to wait for each other. -/
theorem crossed_waits (now : ℕ → Time) (ht : t < 2) (hu : u < 2) (htu : t ≠ u)
    (hc : Crossed sha256 D (hooks t) (hooks u)) :
    ∃ ops s, (∀ op ∈ ops, op.begins = false) ∧ Runs.run (step sha256) (D.tables sha256 now hooks) ops = some s ∧
      s.waitsFor t u = true ∧ s.waitsFor u t = true := by
  obtain ⟨htenant, g, hgt, hgu, hleast, ⟨d, hdg, hdt, hdn⟩, hbefore, c, -, hcu, hcn⟩ := hc
  obtain ⟨k, s₁, y, du, b, ru, id, hrun₁, hp₁, hpu₁, -, hnone, e, he, hef, heg⟩ := upToAudit now hu hgu hbefore hcu hcn
  -- then `t`, to its end or until it waits
  obtain ⟨x₁, dt₁, tt₁, pt₁, hpt₁⟩ := hp₁.each t ht
  obtain ⟨l, s, x, dt, tt, pt, hrun₂, hp, hpt, hother, hend, -⟩ :=
    Pair.solo (fun _ => false) _ hp₁ ht hpt₁ (Nat.le_refl _)
  obtain rfl : u = 1 - t := by omega
  have hpu : Progress sha256 D s (1 - t) (hooks (1 - t)) y du (b :: ru) (.auditing id) := by
    obtain ⟨y', du', tu', pu', hpu⟩ := hp.each (1 - t) hu
    have hy := hpu.session
    rw [hother, hpu₁.session] at hy
    obtain rfl := Option.some.inj hy
    obtain ⟨rfl, rfl, rfl⟩ := hpu₁.unique hpu
    exact hpu
  have hku : HasKey s (1 - t) (hooks t).tenantId g := by
    rw [htenant, ← heg]
    exact hpu.holds e he hef
  have hnotu : s.lock ≠ some (1 - t) := by
    intro hl
    obtain ⟨a, ha, hf, hn⟩ := hpu.lock hl
    exact hn (hpu₁.noLock (by simp [hnone]) a ha hf)
  -- `t` does not get past the key
  have hpast : ∀ a ∈ dt, a.2.status = .firing → a.1.fingerprint ≠ g := by
    rintro a ha hf rfl
    exact htu (not_both hp.exclusive (hpt.hasKey ha hf) hku)
  have hwt : s.waitsFor t (1 - t) = true := by
    rcases hend with rfl | hend | hend
    · obtain ⟨a, ha, hf, hg⟩ := fires_iff.mp hgt
      exact absurd hg (hpast a ((hpt.mem.mp ha).resolve_right (by simp)) hf)
    · cases hend
    · exact hend
  obtain ⟨-, a, rt, rfl, hf, ⟨-, hpa, hk⟩ | ⟨-, hl⟩⟩ := hp.waits hpt hu hwt
  · refine ⟨List.replicate k (.next (1 - t)) ++ List.replicate l (.next t), s, ?_, ?_, hwt, ?_⟩
    · intro op hop
      rcases List.mem_append.mp hop with hop | hop <;> rw [List.eq_of_mem_replicate hop] <;> rfl
    · exact (Runs.run_append _).mpr ⟨s₁, hrun₁, hrun₂⟩
    · -- what it opened before the key gave it the lock
      have hga : g ≤ a.1.fingerprint := by
        refine String.not_lt.mp fun hlt => hleast _ hlt ⟨hpt.fires (Or.inr (List.mem_cons_self ..)) hf, ?_⟩
        obtain ⟨-, b', hb', hbf, hbg⟩ := hpu.of_hasKey hk
        rw [← hbg]
        refine hpu.fires ?_ hbf
        rcases mem_behind.mp hb' with hb' | ⟨-, rfl⟩
        · exact Or.inl hb'
        · exact Or.inr (List.mem_cons_self ..)
      have hlock : s.lock = some t := by
        by_contra hl
        obtain ⟨a', ha', hf', rfl⟩ := hpt.done_of_lt hdt (lt_of_lt_of_le hdg hga)
        exact hdn (hpt.noLock hl a' (mem_behind.mpr (Or.inl ha')) hf')
      simp [Tables.waitsFor, hpu.session, hpu.work, Tables.stmtWaits, hlock, htu.symm]
  · exact absurd hl hnotu

/-- Two webhooks can deadlock exactly if they are crossed, one way or the other. -/
theorem deadlock_free_iff (sha256 : String → String) (D : Database) (now : ℕ → Time) (hooks : ℕ → Webhook) :
    ¬ Deadlock sha256 D now hooks ↔ ¬ Crossed sha256 D (hooks 0) (hooks 1) ∧
    ¬ Crossed sha256 D (hooks 1) (hooks 0) := by
  rw [← not_or, not_iff_not]
  constructor
  · rintro ⟨ops, s, hb, hrun, h01, h10⟩
    rcases Pair.run hb hrun with hover | hp
    · exact absurd ⟨h01, h10⟩ hover.not_waiting
    · exact hp.circular h01 h10
  · rintro (hc | hc)
    · exact crossed_waits now (by omega) (by omega) (by omega) hc
    · obtain ⟨ops, s, hb, hrun, h10, h01⟩ := crossed_waits now (by omega) (by omega) (by omega) hc
      exact ⟨ops, s, hb, hrun, h01, h10⟩

/-- The digests of `["HighErrorRate","checkout","production"]` and `["CrashLoop","cart","production"]`. -/
def crossedSha (s : String) : String :=
  if s = "[\"CrashLoop\",\"cart\",\"production\"]"
  then "d57ec1f82230d4f764ccdf2ab2caf43530a9506f937ae209948aa408a3bbc4fd"
  else "ac3af31964d058b8939376526771c98695441d47109d1954988e9d067395b93f"

def crashLoop : Alert :=
  { status := .firing, labels := [("alertname", "CrashLoop"), ("service", "cart"), ("env", "production")],
    named := by decide }

/-- Both report the crash loop; the first reports high errors too, whose fingerprint is the lesser one. -/
def crossedHooks (t : ℕ) : Webhook :=
  { tenantId := "acme", actor := .webhook "alertmanager", settings := {},
    alerts := if t = 0 then [crashLoop, sampleAlert .firing "critical"] else [crashLoop] }

def noIncidents : Database := { clean := by simp [Table.empty], unique := by simp }

/-- The second opens the crash loop's incident, the first audits its own and waits at the crash loop. -/
def crossedOps : List Op :=
  [.next 1, .next 1, .next 1, .next 0, .next 0, .next 0, .next 0, .next 0, .next 0]

theorem crossedOps_run :
    (Runs.run (step crossedSha) (noIncidents.tables crossedSha (fun _ => 0) crossedHooks) crossedOps).map
        (fun s => s.waitsFor 0 1 && s.waitsFor 1 0) = some true := by decide +kernel

theorem webhooks_deadlock : ∃ D now hooks, Deadlock crossedSha D now hooks := by
  obtain ⟨s, hs, hw⟩ := Option.map_eq_some_iff.mp crossedOps_run
  rw [Bool.and_eq_true] at hw
  exact ⟨noIncidents, fun _ => 0, crossedHooks, crossedOps, s, by decide, hs, hw.1, hw.2⟩

end Blackboard.Ingest
