import Blackboard.Proofs.Conservation
import Blackboard.Spec.View

/-! What an incident's agents are told changes only when a transaction commits that merged a more
urgent alert, opened an incident in the half hour before, or closed one as of then. -/

namespace Blackboard.Ingest

/-! Versions of a row. -/

/-- What a later version of an incident keeps. -/
structure Frozen (a d : Incident) : Prop where
  tenantId : d.tenantId = a.tenantId
  title : d.title = a.title
  service : d.service = a.service
  environment : d.environment = a.environment
  labels : d.labels = a.labels
  createdAt : d.createdAt = a.createdAt
  priority : d.priority ≤ a.priority
  closed : ∀ c, a.closedAt = some c → d.closedAt = some c

theorem Frozen.refl (a : Incident) : Frozen a a := ⟨rfl, rfl, rfl, rfl, rfl, rfl, le_rfl, fun _ h => h⟩

theorem Frozen.trans {a b c : Incident} (h : Frozen a b) (h' : Frozen b c) : Frozen a c :=
  ⟨h'.tenantId.trans h.tenantId, h'.title.trans h.title, h'.service.trans h.service, h'.environment.trans h.environment,
    h'.labels.trans h.labels, h'.createdAt.trans h.createdAt, h'.priority.trans h.priority,
    fun x hx => h'.closed x (h.closed x hx)⟩

/-- A closed incident is in a terminal state. -/
def Closed (v : Incident) : Prop := v.closedAt.isSome = true → v.state ∈ Incidents.TERMINAL

theorem frozen_merged (now : Time) (o : Opening) (v : Incident) : Frozen v (Incidents.merged now o v) :=
  ⟨rfl, rfl, rfl, rfl, rfl, rfl, min_le_left .., fun _ h => h⟩

theorem checkTransition_open {a b : State} (h : Incidents.checkTransition a b = .ok ()) : a ∉ Incidents.TERMINAL := by
  intro ht
  unfold Incidents.checkTransition at h
  rw [if_pos (List.contains_iff_mem.mpr ht)] at h
  cases h

theorem frozen_moved {m : Transition} {v : Incident} (now : Time)
    (hcheck : Incidents.checkTransition m.fromState m.toState = .ok ())
    (hat : Incidents.isAt m.fromState m.expectedVersion v = true) (hv : Closed v) :
    Frozen v (Incidents.moved now m.toState v) := by
  refine ⟨rfl, rfl, rfl, rfl, rfl, rfl, le_rfl, fun c hc => ?_⟩
  simp only [Incidents.isAt, Bool.and_eq_true, decide_eq_true_eq] at hat
  exact absurd (hat.1 ▸ hv (by rw [hc]; rfl)) (checkTransition_open hcheck)

theorem closed_moved {m : Transition} {v : Incident} (now : Time)
    (hcheck : Incidents.checkTransition m.fromState m.toState = .ok ())
    (hat : Incidents.isAt m.fromState m.expectedVersion v = true) (hv : Closed v) :
    Closed (Incidents.moved now m.toState v) := by
  intro hc
  simp only [Incidents.moved] at hc ⊢
  split_ifs at hc with ht
  · exact List.contains_iff_mem.mp ht
  · simp only [Incidents.isAt, Bool.and_eq_true, decide_eq_true_eq] at hat
    exact absurd (hat.1 ▸ hv hc) (checkTransition_open hcheck)

/-- Every version of a row. -/
structure SlotOk (y : Slot) : Prop where
  committed : ∀ v, y.committed = some v → Closed v
  dirty : ∀ u v, y.dirty = some (u, v) → Closed v
  frozen : ∀ a u d, y.committed = some a → y.dirty = some (u, d) → Frozen a d

namespace SlotOk

variable {y : Slot} {t : ℕ}

theorem empty : SlotOk {} := ⟨fun _ h => (by cases h), fun _ _ h => (by cases h), fun _ _ _ h => (by cases h)⟩

theorem visible (h : SlotOk y) {v : Incident} (hv : y.visible t = some v) :
    Closed v ∧ ∀ a, y.committed = some a → Frozen a v := by
  unfold Slot.visible at hv
  rcases hd : y.dirty with _ | ⟨u, d⟩
  · rw [hd] at hv
    exact ⟨h.committed v hv, fun a ha => Option.some.inj (ha.symm.trans hv) ▸ Frozen.refl a⟩
  · rw [hd] at hv
    simp only at hv
    split_ifs at hv with hu
    · obtain rfl := Option.some.inj hv
      exact ⟨h.dirty u d hd, fun a ha => h.frozen a u d ha hd⟩
    · exact ⟨h.committed v hv, fun a ha => Option.some.inj (ha.symm.trans hv) ▸ Frozen.refl a⟩

theorem write (h : SlotOk y) {f : Incident → Incident}
    (hf : ∀ v, y.visible t = some v → Closed v → Frozen v (f v) ∧ Closed (f v)) : SlotOk (y.write t f) := by
  unfold Slot.write
  rcases hv : y.visible t with _ | v
  · exact h
  · obtain ⟨hclosed, hfrozen⟩ := h.visible hv
    obtain ⟨hfv, hcv⟩ := hf v hv hclosed
    refine ⟨h.committed, fun u w hw => ?_, fun a u d ha hd => ?_⟩
    · obtain ⟨-, rfl⟩ := Prod.mk.inj (Option.some.inj hw)
      exact hcv
    · obtain ⟨-, rfl⟩ := Prod.mk.inj (Option.some.inj hd)
      exact (hfrozen a ha).trans hfv

theorem settle (h : SlotOk y) : SlotOk (y.settle t) := by
  unfold Slot.settle
  rcases hd : y.dirty with _ | ⟨u, d⟩
  · exact h
  · simp only
    split_ifs
    · exact ⟨fun v hv => Option.some.inj hv ▸ h.dirty u d hd, fun _ _ hv => (by cases hv),
        fun _ _ _ _ hv => (by cases hv)⟩
    · exact h

theorem abandon (h : SlotOk y) : SlotOk (y.abandon t) := by
  unfold Slot.abandon
  rcases hd : y.dirty with _ | ⟨u, d⟩
  · exact h
  · simp only
    split_ifs
    · exact ⟨h.committed, fun _ _ hv => (by cases hv), fun _ _ _ _ hv => (by cases hv)⟩
    · exact h

end SlotOk

/-! What a step does to the rows. -/

/-- A move that is under way has been checked. -/
def Checked (x : Session) : Prop :=
  ∀ m, x.work = .other (.moving m) → Incidents.checkTransition m.fromState m.toState = .ok ()

/-- Everything that a step can do to `slots` and `alerts`. -/
inductive RowChange (s : Tables) : Op → Tables → Prop
  | same {op : Op} {s' : Tables} : s'.slots = s.slots → s'.alerts = s.alerts → RowChange s op s'
  | opened {op : Op} {s' : Tables} (t : ℕ) (now : Time) (o : Opening) :
      s'.slots = s.slots.insert { dirty := some (t, Incidents.opened now o) } → s'.alerts = s.alerts → RowChange s op s'
  | merged {op : Op} {s' : Tables} (t k : ℕ) (now : Time) (o : Opening) :
      s'.slots = s.slots.modify k (Slot.write t (Incidents.merged now o)) → s'.alerts = s.alerts → RowChange s op s'
  | moved {op : Op} {s' : Tables} (t : ℕ) (now : Time) (m : Transition) (i : Incident) :
      (s.slot m.incident).visible t = some i → Incidents.isAt m.fromState m.expectedVersion i = true →
      Incidents.checkTransition m.fromState m.toState = .ok () →
      s'.slots = s.slots.modify m.incident (Slot.write t (Incidents.moved now m.toState)) → s'.alerts = s.alerts →
      RowChange s op s'
  | committed {s' : Tables} (t : ℕ) (new : List AlertRow) :
      s'.slots = s.slots.update (fun _ => Slot.settle t) → s'.alerts = s.alerts ++ new → RowChange s (.commit t) s'
  | abandoned {op : Op} {s' : Tables} (t : ℕ) :
      s'.slots = s.slots.update (fun _ => Slot.abandon t) → s'.alerts = s.alerts → RowChange s op s'

/-- The sessions of `s'` are those of `s`, except that `t` has come to `x`. -/
def CameTo (s s' : Tables) (t : ℕ) (x : Session) : Prop := s'.sessions = s.sessions.modify t fun _ => x

section

variable {sha256 : String → String} {s s' : Tables} {op : Op} {t : ℕ} {x : Session} {h : Webhook} {a : Identified}
  {rest : List Identified} {pc : WebhookPc}

theorem webhookStmt_changes (hs : s.webhookStmt t x h a rest pc = some s') :
    RowChange s op s' ∧ ∃ x', CameTo s s' t x' ∧ Checked x' := by
  have hcheck : ∀ {y : Session} {todo : List Identified} {pc : WebhookPc}, y.work = .webhook h todo pc → Checked y :=
    fun hy m hm => by rw [hy] at hm; cases hm
  cases pc with
  | next =>
    obtain rfl := Option.some.inj hs
    exact ⟨.same rfl rfl, _, rfl, hcheck rfl⟩
  | inserting left =>
    simp only [Tables.webhookStmt] at hs
    split_ifs at hs
    · obtain rfl := Option.some.inj hs
      exact ⟨.same rfl rfl, _, rfl, hcheck rfl⟩
    · obtain rfl := Option.some.inj hs
      exact ⟨.opened t x.now _ rfl rfl, _, rfl, hcheck rfl⟩
  | merging left =>
    simp only [Tables.webhookStmt] at hs
    split at hs
    · obtain rfl := Option.some.inj hs
      exact ⟨.same rfl rfl, _, rfl, hcheck rfl⟩
    · split_ifs at hs
      · obtain rfl := Option.some.inj hs
        exact ⟨.same rfl rfl, _, rfl, hcheck rfl⟩
      · obtain rfl := Option.some.inj hs
        exact ⟨.merged t _ x.now _ rfl rfl, _, rfl, hcheck rfl⟩
  | rechecking id left =>
    simp only [Tables.webhookStmt] at hs
    split_ifs at hs
    · obtain rfl := Option.some.inj hs
      exact ⟨.merged t id x.now _ rfl rfl, _, rfl, hcheck rfl⟩
    · obtain rfl := Option.some.inj hs
      exact ⟨.same rfl rfl, _, rfl, hcheck rfl⟩
  | enqueueing id =>
    simp only [Tables.webhookStmt] at hs
    split_ifs at hs
    obtain rfl := Option.some.inj hs
    exact ⟨.same rfl rfl, _, rfl, hcheck rfl⟩
  | auditing id =>
    simp only [Tables.webhookStmt] at hs
    split_ifs at hs
    obtain rfl := Option.some.inj hs
    exact ⟨.same rfl rfl, _, rfl, hcheck rfl⟩
  | looking =>
    obtain rfl := Option.some.inj hs
    exact ⟨.same rfl rfl, _, rfl, hcheck rfl⟩
  | recording incidentId =>
    obtain rfl := Option.some.inj hs
    exact ⟨.same rfl rfl, _, rfl, hcheck rfl⟩
  | failed => cases hs

theorem otherStmt_changes {o : OtherPc} (ho : x.work = .other o) (hx : Checked x) (hs : s.otherStmt t x o = some s') :
    RowChange s op s' ∧ ∃ x', CameTo s s' t x' ∧ Checked x' := by
  have hidle : Checked { x with work := .other .idle } := fun m hm => by cases hm
  cases o with
  | idle => cases hs
  | moving m =>
    simp only [Tables.otherStmt, Tables.moveStmt] at hs
    split at hs
    · obtain rfl := Option.some.inj hs
      exact ⟨.same rfl rfl, _, rfl, hidle⟩
    · rename_i i hv
      split_ifs at hs with hat
      · obtain rfl := Option.some.inj hs
        exact ⟨.moved t x.now m i (slot_of_bind hv) hat (hx m ho) rfl rfl, _, rfl, fun m hm => by cases hm⟩
      · obtain rfl := Option.some.inj hs
        exact ⟨.same rfl rfl, _, rfl, hidle⟩
  | appending e =>
    simp only [Tables.otherStmt] at hs
    split_ifs at hs
    obtain rfl := Option.some.inj hs
    exact ⟨.same rfl rfl, _, rfl, fun m hm => by cases hm⟩
  | enqueueing e =>
    simp only [Tables.otherStmt] at hs
    split_ifs at hs
    obtain rfl := Option.some.inj hs
    exact ⟨.same rfl rfl, _, rfl, fun m hm => by cases hm⟩

theorem call_changes {c : Call} (hs : s.call t x c = some s') :
    s'.slots = s.slots ∧ s'.alerts = s.alerts ∧ (s'.sessions = s.sessions ∨ ∃ x', CameTo s s' t x' ∧ Checked x') := by
  cases c with
  | transition m =>
    simp only [Tables.call] at hs
    split at hs
    · rename_i hm
      obtain rfl := Option.some.inj hs
      refine ⟨rfl, rfl, .inr ⟨_, rfl, fun m' h' => ?_⟩⟩
      obtain rfl : m = m' := by simpa using h'
      exact hm
    · obtain rfl := Option.some.inj hs
      exact ⟨rfl, rfl, .inl rfl⟩
  | append e =>
    obtain rfl := Option.some.inj hs
    exact ⟨rfl, rfl, .inr ⟨_, rfl, fun m hm => by cases hm⟩⟩
  | enqueue e =>
    obtain rfl := Option.some.inj hs
    exact ⟨rfl, rfl, .inr ⟨_, rfl, fun m hm => by cases hm⟩⟩

/-- The versions that are there, and the moves under way. -/
structure Versions (s : Tables) : Prop where
  slots : ∀ k, SlotOk (s.slot k)
  sessions : ∀ u x, s.sessions.get? u = some x → Checked x

theorem checked_cameTo (hv : Versions s) (hc : CameTo s s' t x) (hx : Checked x) :
    ∀ u y, s'.sessions.get? u = some y → Checked y := by
  intro u y hy
  rw [hc, Table.get?_modify] at hy
  split_ifs at hy
  · obtain ⟨_, -, rfl⟩ := Option.map_eq_some_iff.mp hy
    exact hx
  · exact hv.sessions u y hy

theorem checked_insert (hv : Versions s) (hc : s'.sessions = s.sessions.insert x) (hx : Checked x) :
    ∀ u y, s'.sessions.get? u = some y → Checked y := by
  intro u y hy
  rw [hc, Table.get?_insert] at hy
  split_ifs at hy
  · exact Option.some.inj hy ▸ hx
  · exact hv.sessions u y hy

/-- What a step wrote, with every session still checked. -/
theorem step_changes (hv : Versions s) (hs : step sha256 s op = some s') :
    RowChange s op s' ∧ ∀ u x, s'.sessions.get? u = some x → Checked x := by
  cases op with
  | webhook now h =>
    obtain rfl := Option.some.inj hs
    exact ⟨.same rfl rfl, checked_insert hv rfl fun m hm => by cases hm⟩
  | begin now =>
    obtain rfl := Option.some.inj hs
    exact ⟨.same rfl rfl, checked_insert hv rfl fun m hm => by cases hm⟩
  | call t c =>
    obtain ⟨x, ht, hs⟩ := Option.bind_eq_some_iff.mp hs
    split at hs
    · split_ifs at hs
      obtain ⟨hslots, halerts, hsame | ⟨x', hc, hx'⟩⟩ := call_changes hs
      · exact ⟨.same hslots halerts, by rw [hsame]; exact hv.sessions⟩
      · exact ⟨.same hslots halerts, checked_cameTo hv hc hx'⟩
    · cases hs
  | next t =>
    obtain ⟨x, ht, hs⟩ := Option.bind_eq_some_iff.mp hs
    split at hs
    · obtain ⟨hw, x', hc, hx'⟩ := webhookStmt_changes hs
      exact ⟨hw, checked_cameTo hv hc hx'⟩
    · rename_i o ho
      obtain ⟨hw, x', hc, hx'⟩ := otherStmt_changes ho (hv.sessions t x ht) hs
      exact ⟨hw, checked_cameTo hv hc hx'⟩
    · cases hs
  | commit t =>
    obtain ⟨x, ht, hs⟩ := Option.bind_eq_some_iff.mp hs
    have hended : Checked (Tables.close x) := fun m hm => by cases hm
    split at hs
    · obtain rfl := Option.some.inj hs
      exact ⟨.committed t _ rfl rfl, checked_cameTo hv rfl hended⟩
    · obtain rfl := Option.some.inj hs
      exact ⟨.committed t _ rfl rfl, checked_cameTo hv rfl hended⟩
    · cases hs
  | rollback t =>
    obtain ⟨x, ht, hs⟩ := Option.bind_eq_some_iff.mp hs
    have hended : Checked (Tables.close x) := fun m hm => by cases hm
    split at hs
    · cases hs
    · obtain rfl := Option.some.inj hs
      exact ⟨.abandoned t rfl rfl, checked_cameTo hv rfl hended⟩

theorem RowChange.slots (hv : Versions s) (h : RowChange s op s') (k : ℕ) : SlotOk (s'.slot k) := by
  cases h with
  | same hs _ =>
    unfold Tables.slot
    rw [hs]
    exact hv.slots k
  | opened t now o hs _ =>
    unfold Tables.slot
    rw [hs, slot_insert]
    split_ifs
    · refine ⟨fun _ hc => (by cases hc), fun u v hd => ?_, fun _ _ _ hc => (by cases hc)⟩
      obtain ⟨-, rfl⟩ := Prod.mk.inj (Option.some.inj hd)
      exact fun hc => by cases hc
    · exact hv.slots k
  | merged t id now o hs _ =>
    unfold Tables.slot
    rw [hs, slot_modify s id k rfl]
    split_ifs
    · exact (hv.slots k).write fun v _ hc => ⟨frozen_merged now o v, hc⟩
    · exact hv.slots k
  | moved t now m i hi hat hcheck hs _ =>
    unfold Tables.slot
    rw [hs, slot_modify s m.incident k rfl]
    split_ifs with hk
    · refine (hv.slots k).write fun v hvis hc => ?_
      obtain rfl := Option.some.inj ((hk ▸ hvis).symm.trans hi)
      exact ⟨frozen_moved now hcheck hat hc, closed_moved now hcheck hat hc⟩
    · exact hv.slots k
  | committed t new hs _ =>
    unfold Tables.slot
    rw [hs, slot_update s rfl]
    exact (hv.slots k).settle
  | abandoned t hs _ =>
    unfold Tables.slot
    rw [hs, slot_update s rfl]
    exact (hv.slots k).abandon

theorem Versions.step (hv : Versions s) (hs : Ingest.step sha256 s op = some s') : Versions s' :=
  ⟨(step_changes hv hs).1.slots hv, (step_changes hv hs).2⟩

theorem Versions.init : Versions {} := ⟨fun k => by simpa [Tables.slot] using SlotOk.empty, fun u x h => by simp at h⟩

/-! What is shown. -/

theorem incident?_eq (s : Tables) (k : ℕ) : s.incident? k = (s.slot k).committed := by
  unfold Tables.incident? Tables.slot
  cases s.slots.get? k <;> rfl

/-- Only a commit changes what is committed. -/
theorem RowChange.same_rows (h : RowChange s op s') (hop : ∀ t, op ≠ .commit t) :
    s'.alerts = s.alerts ∧ ∀ k, s'.incident? k = s.incident? k := by
  have hwrite : ∀ (t : ℕ) (f : Incident → Incident) (y : Slot), (y.write t f).committed = y.committed := by
    intro t f y
    unfold Slot.write
    split <;> rfl
  have habandon : ∀ (t : ℕ) (y : Slot), (y.abandon t).committed = y.committed := by
    intro t y
    unfold Slot.abandon
    split
    · split_ifs <;> rfl
    · rfl
  refine ⟨?_, fun k => ?_⟩
  · cases h with
    | committed t => exact absurd rfl (hop t)
    | same _ ha | opened _ _ _ _ ha | merged _ _ _ _ _ ha | moved _ _ _ _ _ _ _ _ ha | abandoned _ _ ha => exact ha
  rw [incident?_eq, incident?_eq]
  cases h with
  | same hs _ => rw [Tables.slot, hs, Tables.slot]
  | opened t now o hs _ =>
    rw [Tables.slot, hs, slot_insert]
    split_ifs with hk
    · rw [hk, slot_size]
    · rfl
  | merged t id now o hs _ =>
    rw [Tables.slot, hs, slot_modify s id k rfl]
    split_ifs
    · exact hwrite _ _ _
    · rfl
  | moved t now m i _ _ _ hs _ =>
    rw [Tables.slot, hs, slot_modify s m.incident k rfl]
    split_ifs
    · exact hwrite _ _ _
    · rfl
  | committed t => exact absurd rfl (hop t)
  | abandoned t hs _ =>
    rw [Tables.slot, hs, slot_update s rfl]
    exact habandon _ _

theorem RowChange.size_le (h : RowChange s op s') : s.slots.size ≤ s'.slots.size := by
  cases h with
  | same hs _ => rw [hs]
  | opened _ _ _ hs _ => rw [hs, Table.size_insert]; exact Nat.le_succ _
  | merged _ _ _ _ hs _ => rw [hs, Table.size_modify]
  | moved _ _ _ _ _ _ _ hs _ => rw [hs, Table.size_modify]
  | committed _ _ hs _ => rw [hs, Table.size_update]
  | abandoned _ hs _ => rw [hs, Table.size_update]

theorem filterMap_range_of_le {α : Type} {f : ℕ → Option α} {m n : ℕ} (hmn : m ≤ n) (hf : ∀ k, m ≤ k → f k = none) :
    (List.range n).filterMap f = (List.range m).filterMap f := by
  induction n, hmn using Nat.le_induction with
  | base => rfl
  | succ n hn ih => rw [List.range_succ, List.filterMap_append, ih, List.filterMap_cons, hf n hn, List.filterMap_nil,
    List.append_nil]

variable {id : ℕ} {i i' : Incident}

theorem relatedTo_congr (hsize : s.slots.size ≤ s'.slots.size) (htold : ∀ k, s'.told id i' k = s.told id i k) :
    s'.relatedTo id i' = s.relatedTo id i := by
  have hbeyond : ∀ k, s.slots.size ≤ k → s.told id i k = none := by
    intro k hk
    have hnone : s.slots.get? k = none := List.getElem?_eq_none hk
    rw [Tables.told, Tables.incident?, hnone]
    rfl
  rw [Tables.relatedTo, Tables.relatedTo, ← filterMap_range_of_le hsize hbeyond]
  exact List.filterMap_congr fun k _ => htold k

/-- The later version reads the same. -/
structure Alike (i i' : Incident) : Prop where
  frozen : Frozen i i'
  priority : i.priority ≤ i'.priority

theorem Alike.refl (i : Incident) : Alike i i := ⟨Frozen.refl i, le_rfl⟩

theorem Alike.eq (h : Alike i i') : i'.priority = i.priority := Nat.le_antisymm h.frozen.priority h.priority

theorem Alike.related (h : Alike i i') (j : Incident) : related i' j = related i j := by
  rw [Ingest.related, Ingest.related, h.frozen.tenantId, h.frozen.environment, h.frozen.createdAt]

/-- The text depends on the version, the first firing alert and the rows told of. -/
theorem incidentView_congr (collate : String → String → Bool) (hi : s.incident? id = some i)
    (hi' : s'.incident? id = some i') (halike : Alike i i') (hann : s'.annotationsOf id = s.annotationsOf id)
    (hrel : s'.relatedTo id i' = s.relatedTo id i) : s'.incidentView collate id = s.incidentView collate id := by
  rw [Tables.incidentView, Tables.incidentView, hi, hi', Option.map_some, Option.map_some, hann, hrel, halike.eq,
    halike.frozen.tenantId, halike.frozen.title, halike.frozen.service, halike.frozen.environment,
    halike.frozen.labels, halike.frozen.createdAt]

/-- The first notification of a committed incident is committed with it. -/
theorem annotationsOf_append (hinv : Inv sha256 s) (hi : s.incident? id = some i) {new : List AlertRow}
    (hs : s'.alerts = s.alerts ++ new) : s'.annotationsOf id = s.annotationsOf id := by
  obtain ⟨r, hr, -⟩ := (hinv.committed id i (incident?_eq s id ▸ hi)).urgent
  obtain ⟨hmem, hp⟩ := List.mem_filter.mp hr
  have hfound : (s.alerts.find? fun r => r.status = .firing && r.incidentId = some id).isSome = true :=
    List.find?_isSome.mpr ⟨r, hmem, hp⟩
  obtain ⟨first, hfirst⟩ := Option.isSome_iff_exists.mp hfound
  rw [Tables.annotationsOf, Tables.annotationsOf, hs, List.find?_append, hfirst, Option.some_or]

/-! The condition. -/

/-- What a transaction did to another row than the incident's: it opened no incident that `i` would
be told of, and of one that `i` is told of it raised no priority and closed it only after `i` was
opened. -/
def Quiet (i : Incident) (committed : Option Incident) (d : Incident) : Prop :=
  match committed with
  | none => related i d = false
  | some a => related i a = true → a.priority ≤ d.priority ∧ ∀ c ∈ d.closedAt, i.createdAt < c

instance (i : Incident) (committed : Option Incident) (d : Incident) : Decidable (Quiet i committed d) :=
  match committed with
  | none => inferInstanceAs (Decidable (related i d = false))
  | some a => inferInstanceAs
    (Decidable (related i a = true → a.priority ≤ d.priority ∧ ∀ c ∈ d.closedAt, i.createdAt < c))

/-- What a transaction did to row `k`, for incident `id`: to its own row, it merged no more urgent alert. -/
def RowSteady (s : Tables) (id t : ℕ) (i : Incident) (k : ℕ) : Prop :=
  ∀ w ∈ (s.slot k).dirty, w.1 = t → if k = id then i.priority ≤ w.2.priority else Quiet i (s.incident? k) w.2

instance (s : Tables) (id t : ℕ) (i : Incident) (k : ℕ) : Decidable (RowSteady s id t i k) :=
  inferInstanceAs (Decidable (∀ w ∈ (s.slot k).dirty,
    w.1 = t → if k = id then i.priority ≤ w.2.priority else Quiet i (s.incident? k) w.2))

/-- A commit that leaves what is told of incident `id`. -/
def Steady (id : ℕ) (s : Tables) : Op → Prop
  | .commit t => ∀ i ∈ s.incident? id, ∀ k < s.slots.size, RowSteady s id t i k
  | _ => True

instance (id : ℕ) (s : Tables) (op : Op) : Decidable (Steady id s op) :=
  match op with
  | .commit t => inferInstanceAs (Decidable (∀ i ∈ s.incident? id, ∀ k < s.slots.size, RowSteady s id t i k))
  | .webhook .. | .begin .. | .call .. | .next .. | .rollback .. => isTrue trivial

theorem Steady.row (h : Steady id s (.commit t)) (hi : s.incident? id = some i) {k : ℕ} {d : Incident}
    (hd : (s.slot k).dirty = some (t, d)) : if k = id then i.priority ≤ d.priority else Quiet i (s.incident? k) d := by
  have hk : k < s.slots.size := by
    by_contra hge
    have hnone : s.slots.get? k = none := List.getElem?_eq_none (Nat.le_of_not_lt hge)
    rw [Tables.slot, hnone] at hd
    cases hd
  exact h i hi k hk (t, d) hd rfl

theorem settle_committed (t : ℕ) (y : Slot) :
    (y.settle t).committed = y.committed ∨ ∃ d, y.dirty = some (t, d) ∧ (y.settle t).committed = some d := by
  unfold Slot.settle
  rcases hd : y.dirty with _ | ⟨u, d⟩
  · exact .inl rfl
  · simp only
    split_ifs with hu
    · exact .inr ⟨d, by rw [hu], rfl⟩
    · exact .inl rfl

theorem related_frozen {a d : Incident} (h : Frozen a d) (hclosed : ∀ c, d.closedAt = some c → i.createdAt < c)
    (hr : related i a = true) : related i d = true := by
  simp only [related, Bool.and_eq_true, decide_eq_true_eq] at hr ⊢
  rw [h.tenantId, h.environment, h.createdAt]
  refine ⟨hr.1, ?_⟩
  rcases hc : d.closedAt with _ | c
  · rfl
  · simpa using hclosed c hc

theorem related_of_frozen {a d : Incident} (h : Frozen a d) (hr : related i d = true) : related i a = true := by
  simp only [related, Bool.and_eq_true, decide_eq_true_eq] at hr ⊢
  rw [h.tenantId, h.environment, h.createdAt] at hr
  refine ⟨hr.1, ?_⟩
  rcases hc : a.closedAt with _ | c
  · rfl
  · simpa [h.closed c hc] using hr.2

/-- A row told of is told of the same after a quiet commit. -/
theorem told_quiet {k : ℕ} (hv : Versions s) {d : Incident} {t : ℕ} (hd : (s.slot k).dirty = some (t, d))
    (hq : Quiet i (s.incident? k) d) (hi' : s'.incident? k = some d) : s'.told id i k = s.told id i k := by
  unfold Tables.told
  rw [hi']
  rcases hc : s.incident? k with _ | a
  · rw [hc] at hq
    simp [show related i d = false from hq]
  · rw [hc] at hq
    have hfrozen := (hv.slots k).frozen a t d ((incident?_eq s k).symm.trans hc) hd
    cases hr : related i a with
    | true =>
      obtain ⟨hp, hcl⟩ := hq hr
      simp only [Option.bind_some, related_frozen hfrozen hcl hr, hr, hfrozen.title, hfrozen.service, hfrozen.createdAt,
        Nat.le_antisymm hfrozen.priority hp]
    | false =>
      have hno : related i d = false := by
        by_contra h
        rw [related_of_frozen hfrozen (Bool.eq_true_of_not_eq_false h)] at hr
        cases hr
      simp [hr, hno]

theorem commit_changes (hs : step sha256 s (.commit t) = some s') :
    s'.slots = s.slots.update (fun _ => Slot.settle t) ∧ ∃ new, s'.alerts = s.alerts ++ new := by
  obtain ⟨x, ht, hs⟩ := Option.bind_eq_some_iff.mp hs
  split at hs
  · obtain rfl := Option.some.inj hs
    exact ⟨rfl, _, rfl⟩
  · obtain rfl := Option.some.inj hs
    exact ⟨rfl, _, rfl⟩
  · cases hs

theorem view_commit (collate : String → String → Bool) (hinv : Inv sha256 s) (hv : Versions s)
    (hi : s.incident? id = some i) (hsteady : Steady id s (.commit t)) (hs : step sha256 s (.commit t) = some s') :
    s'.incidentView collate id = s.incidentView collate id ∧ ∃ i', s'.incident? id = some i' := by
  obtain ⟨hslots, new, halerts⟩ := commit_changes hs
  have hrow : ∀ k, s'.incident? k = s.incident? k ∨ ∃ d, (s.slot k).dirty = some (t, d) ∧ s'.incident? k = some d := by
    intro k
    rw [incident?_eq, incident?_eq, Tables.slot, hslots, slot_update s rfl]
    exact settle_committed t (s.slot k)
  -- the incident's own row
  obtain ⟨i', hi', halike⟩ : ∃ i', s'.incident? id = some i' ∧ Alike i i' := by
    rcases hrow id with h | ⟨d, hd, h⟩
    · exact ⟨i, h.trans hi, Alike.refl i⟩
    · exact ⟨d, h, (hv.slots id).frozen i t d ((incident?_eq s id).symm.trans hi) hd, by simpa using hsteady.row hi hd⟩
  refine ⟨incidentView_congr collate hi hi' halike (annotationsOf_append hinv hi halerts) ?_, i', hi'⟩
  refine relatedTo_congr (by rw [hslots, Table.size_update]) fun k => ?_
  -- and any other
  have htold : s'.told id i k = s.told id i k := by
    rcases hrow k with h | ⟨d, hd, h⟩
    · rw [Tables.told, Tables.told, h]
    · by_cases hk : k = id
      · subst hk
        simp [Tables.told]
      · exact told_quiet hv hd (by simpa [hk] using hsteady.row hi hd) h
  rw [← htold]
  unfold Tables.told
  simp only [halike.related]

/-- One step of anybody leaves the text, if it is a commit then a steady one. -/
theorem view_step (collate : String → String → Bool) (hinv : Inv sha256 s) (hv : Versions s)
    (hi : s.incident? id = some i) (hsteady : Steady id s op) (hs : step sha256 s op = some s') :
    s'.incidentView collate id = s.incidentView collate id ∧ ∃ i', s'.incident? id = some i' := by
  have hw := (step_changes hv hs).1
  by_cases hop : ∃ t, op = .commit t
  · obtain ⟨t, rfl⟩ := hop
    exact view_commit collate hinv hv hi hsteady hs
  · obtain ⟨halerts, hrows⟩ := hw.same_rows fun t ht => hop ⟨t, ht⟩
    refine ⟨incidentView_congr collate hi ((hrows id).trans hi) (Alike.refl i) ?_ ?_, i, (hrows id).trans hi⟩
    · rw [Tables.annotationsOf, Tables.annotationsOf, halerts]
    · exact relatedTo_congr hw.size_le fun k => by rw [Tables.told, Tables.told, hrows]

end

/-- Whatever runs at once: from any moment at which an incident is there, what its agents are told
stays the same over every run whose commits are steady for it. -/
theorem describe_stable (sha256 : String → String) (collate : String → String → Bool) (id : ℕ) (ops ops' : List Op)
    (s s' : Tables) (hs : Runs.run (step sha256) {} ops = some s) (hs' : Runs.run (step sha256) s ops' = some s')
    (hthere : (s.incident? id).isSome = true) (hsteady : Runs.Admits (step sha256) (Steady id) s ops') :
    (s'.incidentView collate id).map IncidentView.describe = (s.incidentView collate id).map IncidentView.describe := by
  have hversions : Versions s := Runs.invariant (fun _ _ _ hv h => hv.step h) hs Versions.init
  let told : Tables → Prop := fun u =>
    Inv sha256 u ∧ Versions u ∧ (∃ i, u.incident? id = some i) ∧ u.incidentView collate id = s.incidentView collate id
  have hstep : ∀ u op v, told u → Steady id u op → step sha256 u op = some v → told v := by
    rintro u op v ⟨hinv, hv, ⟨i, hi⟩, hsame⟩ hop h
    obtain ⟨hview, hthere⟩ := view_step collate hinv hv hi hop h
    exact ⟨hinv.step h, hv.step h, hthere, hview.trans hsame⟩
  obtain ⟨-, -, -, hsame⟩ := Runs.invariant_under hstep hs' hsteady
    ⟨Inv.run hs, hversions, Option.isSome_iff_exists.mp hthere, rfl⟩
  rw [hsame]

/-- One incident by an alert of this severity. -/
def opensOne (severity : String) : List Op :=
  [.webhook 0 (sampleWebhook severity), .next 0, .next 0, .next 0, .next 0, .next 0, .commit 0]

/-- And a second alert of it. -/
def mergesOne (severity : String) : List Op :=
  [.webhook 60 (sampleWebhook severity), .next 1, .next 1, .next 1, .next 1, .commit 1]

/-- The text after the first alert, and after the second. -/
def textsOf (first second : String) : Option (Option String × Option String) :=
  (Runs.run (step sampleSha) {} (opensOne first)).bind fun s =>
    (Runs.run (step sampleSha) s (mergesOne second)).map fun s' =>
      ((s.incidentView (· ≤ ·) 0).map IncidentView.describe, (s'.incidentView (· ≤ ·) 0).map IncidentView.describe)

theorem describe_stable_merged : ∃ s s', Runs.run (step sampleSha) {} (opensOne "critical") = some s ∧
    Runs.run (step sampleSha) s (mergesOne "warning") = some s' ∧
    (s'.incident? 0).map (fun i => (i.alertCount, i.priority)) = some (2, 1) ∧
    (s'.incidentView (· ≤ ·) 0).map IncidentView.describe = (s.incidentView (· ≤ ·) 0).map IncidentView.describe := by
  have hrun : ((Runs.run (step sampleSha) {} (opensOne "critical")).bind fun s =>
      if (s.incident? 0).isSome = true ∧ Runs.Admits (step sampleSha) (Steady 0) s (mergesOne "warning") then
        (Runs.run (step sampleSha) s (mergesOne "warning")).bind fun s' =>
          (s'.incident? 0).map fun i => (i.alertCount, i.priority)
      else none) = some (2, 1) := by decide +kernel
  obtain ⟨s, hs, h⟩ := Option.bind_eq_some_iff.mp hrun
  split_ifs at h with hc
  obtain ⟨s', hs', h⟩ := Option.bind_eq_some_iff.mp h
  exact ⟨s, s', hs, hs', h, describe_stable sampleSha (· ≤ ·) 0 _ _ s s' hs hs' hc.1 hc.2⟩

/-- The text of the sample's incident opened by a warning. -/
def sampleText (priority : String) : String :=
  "Incident: HighErrorRate on service checkout (priority " ++ priority ++ ", environment production).\n" ++
    "Opened at 1970-01-01T00:00:00Z.\n" ++
    "Alert labels: \x7b\"alertname\": \"HighErrorRate\", \"env\": \"production\", \"service\": \"checkout\", " ++
    "\"severity\": \"warning\"\x7d\n" ++
    "No other open incidents in this environment."

/-- A critical alert merged into a warning's incident makes it P1 in the text. -/
theorem priority_drifts :
    textsOf "warning" "critical" = some (some (sampleText "P2"), some (sampleText "P1")) ∧
    sampleText "P2" ≠ sampleText "P1" := by
  decide +kernel

end Blackboard.Ingest
